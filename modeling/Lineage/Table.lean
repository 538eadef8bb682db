/-!
# Tables

A table maps keys to values and remembers the order in which the keys came. A
new value for a known key takes the place of the old one.
-/

namespace Lineage

/-- A map that keeps its keys in the order of their first insertion. -/
abbrev Table (κ ν : Type) := List (κ × ν)

namespace Table

variable {κ ν : Type} [DecidableEq κ]

/-- The value of a key. -/
def get? (t : Table κ ν) (key : κ) : Option ν :=
  t.lookup key

/-- Gives a key the value made from its old one, if it has one. -/
def alter : Table κ ν → κ → (Option ν → ν) → Table κ ν
  | [], key, f => [(key, f none)]
  | (k, v) :: t, key, f => if k = key then (k, f (some v)) :: t else (k, v) :: alter t key f

/-- Gives a key a value. -/
def set (t : Table κ ν) (key : κ) (v : ν) : Table κ ν :=
  t.alter key fun _ => v

/-- Gives a key a value, unless it has one. -/
def setIfNew (t : Table κ ν) (key : κ) (v : ν) : Table κ ν :=
  t.alter key (·.getD v)

/-- Gives each key of the second table its value there. -/
def overlay (t u : Table κ ν) : Table κ ν :=
  u.foldl (fun t e => t.set e.1 e.2) t

/-- Gives each key of the second table its value there, unless it has one. -/
def extend (t u : Table κ ν) : Table κ ν :=
  u.foldl (fun t e => t.setIfNew e.1 e.2) t

/-- Only the value of the altered key changes. -/
theorem get?_alter (t : Table κ ν) (key : κ) (f : Option ν → ν) (k : κ) :
    (t.alter key f).get? k = if k = key then some (f (t.get? key)) else t.get? k := by
  simp only [get?]
  induction t with
  | nil => grind [alter]
  | cons e t ih => grind [alter]

end Table

end Lineage
