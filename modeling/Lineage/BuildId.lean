/-!
# Build identifiers

A build of the substrate is identified by 128 bits, written as 32 hexadecimal
digits in groups of 8, 4, 4, 4 and 12 (`BuildId.render`).

Four spellings are read (`BuildId.parse?`), with letters of either case:

* the plain digits, without hyphens;
* the digits in their groups, joined by hyphens;
* the hyphenated digits in braces;
* the hyphenated digits after `urn:uuid:`.
-/

namespace Lineage

/-- The identifier of one build: its 32 hexadecimal digits, the highest first. -/
structure BuildId where
  /-- The digits. -/
  digits : List (Fin 16)
  size_eq : digits.length = 32 := by decide
  deriving DecidableEq

namespace BuildId

/-- The value of a hexadecimal digit, of either case. -/
def digit? (c : Char) : Option (Fin 16) :=
  if '0' ≤ c ∧ c ≤ '9' then some (Fin.ofNat 16 (c.toNat - '0'.toNat))
  else if 'a' ≤ c ∧ c ≤ 'f' then some (Fin.ofNat 16 (c.toNat - 'a'.toNat + 10))
  else if 'A' ≤ c ∧ c ≤ 'F' then some (Fin.ofNat 16 (c.toNat - 'A'.toNat + 10))
  else none

/-- A digit as it is written, in lower case. -/
def digitChar (d : Fin 16) : Char :=
  if d.val < 10 then Char.ofNat ('0'.toNat + d.val) else Char.ofNat ('a'.toNat + d.val - 10)

/-- The identifier made of the given digits, if there are 32 of them. -/
def ofDigits? (digits : List (Fin 16)) : Option BuildId :=
  if h : digits.length = 32 then some ⟨digits, h⟩ else none

/-- The sizes of the groups in which the digits are written. -/
def groups : List Nat := [8, 4, 4, 4, 12]

/-- Reads digits without hyphens. -/
def ofPlain? (text : List Char) : Option BuildId :=
  text.mapM digit? >>= ofDigits?

/-- Reads the groups of digits, with a hyphen before each but the first. -/
def groupDigits? : List Nat → List Char → Option (List (Fin 16))
  | [], [] => some []
  | [], _ :: _ => none
  | [n], text => if text.length = n then text.mapM digit? else none
  | n :: sizes, text => do
    let head ← (text.take n).mapM digit?
    match text.drop n with
    | '-' :: rest => return head ++ (← groupDigits? sizes rest)
    | _ => none

/-- Reads digits in their groups, joined by hyphens. -/
def ofHyphenated? (text : List Char) : Option BuildId :=
  groupDigits? groups text >>= ofDigits?

/-- Reads an identifier in one of its four spellings, told apart by their
    length. -/
def parse? (text : String) : Option BuildId :=
  let chars := text.toList
  match chars.length with
  | 32 => ofPlain? chars
  | 36 => ofHyphenated? chars
  | 38 => if chars.head? = some '\x7b' ∧ chars.getLast? = some '\x7d'
      then ofHyphenated? (chars.tail.dropLast) else none
  | 45 => if (String.ofList (chars.take 9)).toLower = "urn:uuid:"
      then ofHyphenated? (chars.drop 9) else none
  | _ => none

/-- The digits cut into groups of the given sizes. -/
def cut : List Nat → List Char → List (List Char)
  | [], _ => []
  | n :: sizes, text => text.take n :: cut sizes (text.drop n)

/-- The identifier as it is written: lower case, in its groups, joined by
    hyphens. -/
def render (b : BuildId) : String :=
  "-".intercalate ((cut groups (b.digits.map digitChar)).map String.ofList)

instance : ToString BuildId := ⟨render⟩

end BuildId

end Lineage
