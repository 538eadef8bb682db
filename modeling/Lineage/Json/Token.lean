import Lineage.Json.Number

/-!
# Tokens of JSON texts

A text is cut into brackets, commas, colons, strings and words: numbers and the
literals `null`, `true` and `false`, each reaching up to the next delimiter
(`Token.scan?`).

A string is scanned into *units*: characters as they stand, and the 16-bit units
that escapes write. Pairs of surrogate units are joined afterwards
(`Token.decode?`); a surrogate left alone makes the string a text without a
value, though it is well formed.
-/

namespace Lineage.Json

/-- A token of a JSON text. -/
inductive Token where
  | openArray
  | closeArray
  | openObject
  | closeObject
  | comma
  | colon
  /-- A string, with the text that it stands for, if it stands for any. -/
  | text (value : Option String)
  /-- A number or a literal. -/
  | word (value : Json)

namespace Token

/-- White space between tokens. -/
def isSpace (c : Char) : Bool :=
  c = ' ' || c = '\n' || c = '\t' || c = '\r'

/-- The token that a single character makes. -/
def punctuation? (c : Char) : Option Token :=
  match c with
  | '[' => some openArray
  | ']' => some closeArray
  | '\x7b' => some openObject
  | '\x7d' => some closeObject
  | ',' => some comma
  | ':' => some colon
  | _ => none

/-- Whether a character ends a word. -/
def isDelimiter (c : Char) : Bool :=
  isSpace c || (punctuation? c).isSome || c = '"'

/-- Reads a word: a literal or a number. -/
def word? (chars : List Char) : Option Token :=
  match String.ofList chars with
  | "null" => some (word .null)
  | "true" => some (word (.bool true))
  | "false" => some (word (.bool false))
  | _ => (Number.read? chars).map word

/-- The value of a hexadecimal digit. -/
def hexDigit? (c : Char) : Option Nat :=
  if '0' ≤ c ∧ c ≤ '9' then some (c.toNat - '0'.toNat)
  else if 'a' ≤ c ∧ c ≤ 'f' then some (c.toNat - 'a'.toNat + 10)
  else if 'A' ≤ c ∧ c ≤ 'F' then some (c.toNat - 'A'.toNat + 10)
  else none

/-- The 16-bit unit that four hexadecimal digits write. -/
def unit? (a b c d : Char) : Option Nat :=
  ([a, b, c, d].mapM hexDigit?).map fun digits => digits.foldl (fun n digit => 16 * n + digit) 0

/-- The character that a backslash makes of the next one. -/
def escaped? (c : Char) : Option Char :=
  match c with
  | '"' => some '"'
  | '\\' => some '\\'
  | '/' => some '/'
  | 'b' => some '\x08'
  | 'f' => some '\x0c'
  | 'n' => some '\n'
  | 'r' => some '\r'
  | 't' => some '\t'
  | _ => none

/-- Joins the units of a string to its text: a high surrogate with the low one
    that follows it. Any other surrogate has no place in a text. -/
def decode? : List (Char ⊕ Nat) → Option (List Char)
  | [] => some []
  | .inl c :: rest => (decode? rest).map (c :: ·)
  | .inr high :: .inr low :: rest =>
    if 0xD800 ≤ high ∧ high < 0xDC00 then
      if 0xDC00 ≤ low ∧ low < 0xE000 then
        (decode? rest).map (Char.ofNat (0x10000 + (high - 0xD800) * 0x400 + (low - 0xDC00)) :: ·)
      else none
    else if 0xDC00 ≤ high ∧ high < 0xE000 then none
    else (decode? (.inr low :: rest)).map (Char.ofNat high :: ·)
  | .inr unit :: rest =>
    if 0xD800 ≤ unit ∧ unit < 0xE000 then none
    else (decode? rest).map (Char.ofNat unit :: ·)

/-- What the scanner is in the middle of. -/
inductive Scan where
  /-- Between two tokens. -/
  | between
  /-- In a word, its characters so far in reverse. -/
  | word (chars : List Char)
  /-- In a string, its units so far in reverse. -/
  | text (units : List (Char ⊕ Nat))

/-- Whether a word ends in front of the given rest of a text. -/
def endsBefore : List Char → Bool
  | [] => true
  | c :: _ => isDelimiter c

/-- Cuts a text into tokens. -/
def scan? : Scan → List Char → Option (List Token)
  | .between, [] => some []
  | .word _, [] => none
  | .text _, [] => none
  | .between, c :: rest =>
    if isSpace c then scan? .between rest
    else if c = '"' then scan? (.text []) rest
    else match punctuation? c with
      | some t => (scan? .between rest).map (t :: ·)
      | none =>
        if endsBefore rest then do return (← word? [c]) :: (← scan? .between rest)
        else scan? (.word [c]) rest
  | .word chars, c :: rest =>
    if endsBefore rest then do
      return (← word? (c :: chars).reverse) :: (← scan? .between rest)
    else scan? (.word (c :: chars)) rest
  | .text units, '"' :: rest =>
    (scan? .between rest).map (text ((decode? units.reverse).map String.ofList) :: ·)
  | .text units, '\\' :: 'u' :: a :: b :: c :: d :: rest => do
    scan? (.text (.inr (← unit? a b c d) :: units)) rest
  | .text units, '\\' :: c :: rest => do
    scan? (.text (.inl (← escaped? c) :: units)) rest
  | .text units, c :: rest =>
    if c = '\\' ∨ c.toNat < 0x20 then none else scan? (.text (.inl c :: units)) rest

/-- The tokens of a text. -/
def ofText? (text : String) : Option (List Token) :=
  scan? .between text.toList

end Token

end Lineage.Json
