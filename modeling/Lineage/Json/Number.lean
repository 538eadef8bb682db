import Lineage.Json.Basic

/-!
# Numbers in JSON texts

A number is written as an optional minus sign, an integer part without leading
zeros, and optionally a fraction and an exponent. Written as an integer in the
range from `-2 ^ 63` to `2 ^ 64 - 1` it stands for itself; any other stands for
a double. (So does `-0`: no integer keeps the sign.)

The double is found in two steps, each of which rounds: the leading digits that
fit into 64 bits make a significand (`Scaled`), which is then multiplied or
divided by a power of ten, in doubles (`Scaled.magnitude?`). It need not be the
nearest one, but the two are close. If it is beyond the range, the number has no
value.
-/

namespace Lineage.Json.Number

/-- The natural number that decimal digits write. -/
def ofDigits (digits : List Char) : Nat :=
  digits.foldl (fun n c => 10 * n + (c.toNat - '0'.toNat)) 0

/-- Splits the digits off the front of a text. -/
def takeDigits (text : List Char) : List Char × List Char :=
  (text.takeWhile Char.isDigit, text.dropWhile Char.isDigit)

/-- The lexical parts of a number. -/
structure Parts where
  /-- Whether a minus sign stands in front. -/
  negative : Bool
  /-- The digits before the point. -/
  whole : List Char
  /-- The digits after the point. -/
  fraction : List Char
  /-- The exponent, if one is written. -/
  exponent : Option Int

/-- Reads the exponent of a number, which ends it. -/
def exponent? : List Char → Option (Option Int)
  | [] => some none
  | e :: rest =>
    if e = 'e' ∨ e = 'E' then
      let (negative, rest) := match rest with
        | '+' :: r => (false, r)
        | '-' :: r => (true, r)
        | r => (false, r)
      if rest ≠ [] ∧ rest.all Char.isDigit then
        some (some (if negative then -Int.ofNat (ofDigits rest) else Int.ofNat (ofDigits rest)))
      else none
    else none

/-- Reads the fraction of a number, if it has one. -/
def fraction? : List Char → Option (List Char × List Char)
  | '.' :: rest =>
    let (digits, rest) := takeDigits rest
    if digits = [] then none else some (digits, rest)
  | rest => some ([], rest)

/-- Takes a number apart. -/
def parts? (text : List Char) : Option Parts := do
  let (negative, text) := match text with
    | '-' :: r => (true, r)
    | r => (false, r)
  let (whole, rest) := takeDigits text
  guard (whole ≠ [] ∧ (whole.head? = some '0' → whole.length = 1))
  let (fraction, rest) ← fraction? rest
  let exponent ← exponent? rest
  return { negative, whole, fraction, exponent }

/-! ### The value -/

/-- A number in decimal: `significand * 10 ^ exponent`. -/
structure Scaled where
  /-- The leading digits, as far as they are kept. -/
  significand : Nat
  /-- The power of ten. -/
  exponent : Int

namespace Scaled

/-- Appends a digit to a significand, if it still fits into 64 bits. -/
def append? (significand : Nat) (digit : Char) : Option Nat :=
  let n := ofDigits [digit] + 10 * significand
  if n < Nat.pow 2 64 then some n else none

/-- The number that the digits before the point write. Once a digit does not fit
    it is dropped, with all that follow. -/
def ofWhole (digits : List Char) : Scaled :=
  digits.foldl (fun s c =>
    match if s.exponent = 0 then append? s.significand c else none with
    | some n => ⟨n, 0⟩
    | none => { s with exponent := s.exponent + 1 }) ⟨0, 0⟩

/-- Takes the digits after the point, up to the first that does not fit. -/
def takeFraction : Scaled → List Char → Scaled
  | s, [] => s
  | s, c :: rest =>
    match append? s.significand c with
    | some n => takeFraction ⟨n, s.exponent - 1⟩ rest
    | none => s

/-- The greatest power of ten by which a magnitude is scaled in one step. -/
def maxStep : Nat := 308

/-- Divides by a power of ten, in steps. -/
def shrink (m : Magnitude) (n : Nat) : Magnitude :=
  if n ≤ maxStep then m.div (.tenPow n)
  else if m = 0 then 0
  else shrink (m.div (.tenPow maxStep)) (n - maxStep)
termination_by n
decreasing_by
  rename_i h _
  have : 0 < maxStep := by decide
  omega

/-- The magnitude of a number, if it is not far beyond the range. -/
def magnitude? (s : Scaled) : Option Magnitude :=
  let m := Magnitude.ofNat s.significand
  if s.exponent < 0 then some (shrink m s.exponent.natAbs)
  else if s.exponent ≤ maxStep then some (m.mul (.tenPow s.exponent.toNat))
  else if m = 0 then some 0
  else none

end Scaled

/-- The number in decimal that the parts write. -/
def Parts.scaled (p : Parts) : Scaled :=
  let s := (Scaled.ofWhole p.whole).takeFraction p.fraction
  { s with exponent := s.exponent + p.exponent.getD 0 }

/-- Whether an integer is kept as one: whether it fits into 64 bits, with a sign
    or without. -/
def isInteger (n : Int) : Bool :=
  -Int.ofNat (Nat.pow 2 63) ≤ n && n < Int.ofNat (Nat.pow 2 64)

/-- The integer that the parts write, if it is kept as one. -/
def Parts.integer? (p : Parts) : Option Int :=
  let n := Int.ofNat (ofDigits p.whole)
  let signed := if p.negative then -n else n
  if p.fraction = [] ∧ p.exponent = none ∧ ¬(p.negative ∧ n = 0) ∧ isInteger signed then
    some signed
  else none

/-- The value of a number from its parts. -/
def Parts.value (p : Parts) : Json :=
  match p.integer? with
  | some n => .int n
  | none =>
    match p.scaled.magnitude? >>= Double.ofMagnitude? p.negative with
    | some d => .double d
    | none => .void

/-- Reads a number. -/
def read? (text : List Char) : Option Json :=
  (parts? text).map Parts.value

end Lineage.Json.Number
