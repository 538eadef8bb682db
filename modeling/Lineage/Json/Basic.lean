import Lineage.Double

/-!
# JSON values

The values that JSON texts stand for. The members of an object are kept in the
order in which they were written, repeated names included: what a repetition
means depends on what the object is read as.

Where a value is kept for its own sake, it is in *normal form*: the members of
its objects have distinct names in ascending order, so that equal values are
equal terms (`Json.normal?`). Of a repeated name the last member counts.

Some well-formed texts stand for no value: a number beyond the range of a
double, a string with half of a surrogate pair, arrays and objects nested
deeper than 127 levels. They are read as `Json.void`, which can be skipped but
not used.
-/

namespace Lineage

/-- A JSON value. -/
inductive Json where
  /-- Well-formed text that stands for no value. -/
  | void
  | null
  | bool (b : Bool)
  /-- An integer in the range from `-2 ^ 63` to `2 ^ 64 - 1`. -/
  | int (n : Int)
  /-- Any other number. -/
  | double (d : Double)
  | str (s : String)
  | arr (items : List Json)
  | obj (members : List (String × Json))
  deriving Inhabited

namespace Json

/-! ### Equality -/

mutual

/-- Whether two values are the same. -/
def same : Json → Json → Bool
  | void, void => true
  | null, null => true
  | bool a, bool b => a == b
  | int m, int n => m == n
  | double d, double e => d == e
  | str s, str t => s == t
  | arr xs, arr ys => sameItems xs ys
  | obj xs, obj ys => sameMembers xs ys
  | _, _ => false

/-- Whether two lists of items are the same. -/
def sameItems : List Json → List Json → Bool
  | [], [] => true
  | x :: xs, y :: ys => same x y && sameItems xs ys
  | _, _ => false

/-- Whether two lists of members are the same. -/
def sameMembers : List (String × Json) → List (String × Json) → Bool
  | [], [] => true
  | (k, x) :: xs, (l, y) :: ys => k == l && same x y && sameMembers xs ys
  | _, _ => false

end

mutual

theorem same_iff : (a b : Json) → (same a b = true ↔ a = b)
  | void, b => by cases b <;> simp [same]
  | null, b => by cases b <;> simp [same]
  | bool _, b => by cases b <;> simp [same]
  | int _, b => by cases b <;> simp [same]
  | double _, b => by cases b <;> simp [same]
  | str _, b => by cases b <;> simp [same]
  | arr xs, b => by cases b <;> simp [same, sameItems_iff xs]
  | obj xs, b => by cases b <;> simp [same, sameMembers_iff xs]

theorem sameItems_iff : (xs ys : List Json) → (sameItems xs ys = true ↔ xs = ys)
  | [], ys => by cases ys <;> simp [sameItems]
  | x :: xs, [] => by simp [sameItems]
  | x :: xs, y :: ys => by simp [sameItems, same_iff x, sameItems_iff xs]

theorem sameMembers_iff : (xs ys : List (String × Json)) → (sameMembers xs ys = true ↔ xs = ys)
  | [], ys => by cases ys <;> simp [sameMembers]
  | (k, x) :: xs, [] => by simp [sameMembers]
  | (k, x) :: xs, (l, y) :: ys => by simp [sameMembers, same_iff x, sameMembers_iff xs]

end

instance : DecidableEq Json := fun a b => decidable_of_iff _ (same_iff a b)

/-! ### Objects in normal form -/

/-- The members of an object in normal form: distinct names in ascending
    order. -/
abbrev Members := List (String × Json)

namespace Members

/-- The value of the named member. -/
def get? (ms : Members) (name : String) : Option Json :=
  ms.lookup name

/-- Sets the named member, in its place in the order of names. -/
def set : Members → String → Json → Members
  | [], name, v => [(name, v)]
  | (k, w) :: ms, name, v =>
    if name < k then (name, v) :: (k, w) :: ms
    else if name = k then (name, v) :: ms
    else (k, w) :: set ms name v

/-- Sets each of the given members in turn, so that of a repeated name the last
    value stays. -/
def setAll (ms : Members) (new : List (String × Json)) : Members :=
  new.foldl (fun ms m => ms.set m.1 m.2) ms

/-- The members of an object as written, brought to normal form. -/
def ofList (ms : List (String × Json)) : Members :=
  setAll [] ms

end Members

/-! ### Normal form -/

mutual

/-- The normal form of a value, if it is one throughout. -/
def normal? : Json → Option Json
  | void => none
  | null => some null
  | bool b => some (bool b)
  | int n => some (int n)
  | double d => some (double d)
  | str s => some (str s)
  | arr items => (normalItems? items).map arr
  | obj members => (normalMembers? members).map (obj ∘ Members.ofList)

/-- The normal forms of all items. -/
def normalItems? : List Json → Option (List Json)
  | [] => some []
  | j :: rest => do return (← normal? j) :: (← normalItems? rest)

/-- The members with their values in normal form. -/
def normalMembers? : List (String × Json) → Option (List (String × Json))
  | [] => some []
  | (k, j) :: rest => do return (k, ← normal? j) :: (← normalMembers? rest)

end

end Json

end Lineage
