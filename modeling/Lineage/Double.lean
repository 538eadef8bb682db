/-!
# Doubles

The finite numbers of the 64-bit binary floating-point format, up to the sign of
zero. All of them are multiples of the least positive one, which is `2 ^ -1074`,
so a double is given by how many of these *units* it is. The magnitudes that
occur have at most 53 significant bits and are less than `2 ^ 1024`.

Arithmetic on magnitudes is exact and then rounded to the nearest one that has
53 significant bits, of two equally near to the one with the even last bit
(`Magnitude.ofRatio`). The range is not part of it: a magnitude may be beyond
the bound, where there is no double (`Magnitude.bound`).
-/

namespace Lineage

/-- A quotient rounded to the nearest integer, of two equally near to the even
    one. -/
def roundDiv (n d : Nat) : Nat :=
  let q := n / d
  let r := n % d
  if 2 * r < d ∨ (2 * r = d ∧ q % 2 = 0) then q else q + 1

/-- A rounded quotient is at most half a unit off. -/
theorem roundDiv_near (n d : Nat) (hd : 0 < d) :
    2 * n ≤ 2 * (roundDiv n d * d) + d ∧ 2 * (roundDiv n d * d) ≤ 2 * n + d := by
  have hn : d * (n / d) + n % d = n := Nat.div_add_mod n d
  have hr : n % d < d := Nat.mod_lt n hd
  rw [roundDiv, Nat.mul_comm _ d]
  split
  · omega
  · rw [Nat.mul_add, Nat.mul_one]
    omega

/-- A quotient without remainder is not rounded. -/
theorem roundDiv_mul (k d : Nat) (hd : 0 < d) : roundDiv (k * d) d = k := by
  simp [roundDiv, Nat.mul_div_cancel _ hd, hd]

/-- A magnitude, in units of `2 ^ -1074`. -/
abbrev Magnitude := Nat

namespace Magnitude

/-- How many units are one. -/
def one : Magnitude := Nat.pow 2 1074

/-- The bound of the range, `2 ^ 1024`. -/
def bound : Magnitude := Nat.pow 2 2098

/-- The magnitude nearest to a quotient of units. Beyond 53 bits the last ones
    are rounded away. -/
def ofRatio (n d : Nat) : Magnitude :=
  let step := Nat.pow 2 ((n / d).log2 - 52)
  roundDiv n (d * step) * step

/-- The magnitude nearest to a natural number. -/
def ofNat (n : Nat) : Magnitude :=
  ofRatio (n * one) 1

/-- The rounded product. -/
def mul (a b : Magnitude) : Magnitude :=
  ofRatio (a * b) one

/-- The rounded quotient. -/
def div (a b : Magnitude) : Magnitude :=
  ofRatio (a * one) b

/-- The magnitude nearest to a power of ten. -/
def tenPow (n : Nat) : Magnitude :=
  ofNat (Nat.pow 10 n)

end Magnitude

/-- A finite double. -/
structure Double where
  /-- How many units of `2 ^ -1074` it is. -/
  units : Int
  deriving DecidableEq, Inhabited

/-- The double of a magnitude and a sign, unless it is beyond the range. -/
def Double.ofMagnitude? (negative : Bool) (m : Magnitude) : Option Double :=
  if m < Magnitude.bound then some ⟨if negative then -Int.ofNat m else Int.ofNat m⟩ else none

end Lineage
