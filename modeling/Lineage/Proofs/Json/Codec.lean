import Lineage.Json.Record

/-!
# Decoding what was encoded

A type has a *lawful* form in JSON if every value is decoded from what it is encoded to
(`Codec.Lawful`). Lists of values with lawful forms have lawful forms. A record is read
field by field, each as it was written: the names of its fields are told apart, and none
of them is given twice (`record?_obj`). Fields that are left out are found missing, the
others are found as before (`Record.defaultBy?_only`).
-/

namespace Lineage.Json

/-- Every value of the type is decoded from what it is encoded to. -/
class Codec.Lawful (α : Type) [Codec α] : Prop where
  decode?_encode : ∀ a : α, decode? (encode a) = some a

export Codec.Lawful (decode?_encode)

attribute [simp] decode?_encode

/-- The valid values of the type are decoded from what they are encoded to. Whatever is
    decoded is valid, so it is decoded again after encoding it. -/
structure RoundTrips (α : Type) [Codec α] (valid : α → Prop) : Prop where
  decode?_encode : ∀ a, valid a → decode? (encode a) = some a
  encode_decode? : ∀ j a, decode? j = some a → valid a ∧ decode? (encode a) = some a

namespace RoundTrips

variable {α : Type} [Codec α] {valid : α → Prop}

theorem of_valid (hencode : ∀ a, valid a → decode? (encode a) = some a)
    (hvalid : ∀ j a, decode? j = some a → valid a) : RoundTrips α valid where
  decode?_encode := hencode
  encode_decode? j a ha := ⟨hvalid j a ha, hencode a (hvalid j a ha)⟩

variable (α) in
theorem of_lawful [Codec.Lawful α] : RoundTrips α fun _ => True :=
  .of_valid (fun a _ => Codec.Lawful.decode?_encode a) fun _ _ _ => trivial

end RoundTrips

instance : Codec.Lawful String where
  decode?_encode _ := rfl

instance : Codec.Lawful Bool where
  decode?_encode _ := rfl

instance {α : Type} [Codec α] [Codec.Lawful α] : Codec.Lawful (List α) where
  decode?_encode items := by
    change (items.map encode).mapM decode? = some items
    induction items with
    | nil => rfl
    | cons a items ih => simp [ih]

/-! ### Fields -/

/-- An object with known members, none of them twice, is read as a record of these members. -/
theorem record?_obj {fields : List String} {ms : List (String × Json)}
    (hms : (ms.map Prod.fst).Sublist fields) (hnd : fields.Nodup) :
    record? fields (.obj ms) = some ⟨ms, false⟩ := by
  have hknown : (ms.filter fun m => fields.contains m.1) = ms :=
    List.filter_eq_self.2 fun m hm =>
      List.contains_iff_mem.2 (hms.subset (List.mem_map_of_mem hm))
  simp only [record?, hknown, if_pos (hms.nodup hnd)]

theorem record?_bind {α : Type} {fields : List String} {ms : List (String × Json)}
    {read : Record → Option α} (hms : (ms.map Prod.fst).Sublist fields)
    (hnd : fields.Nodup) : (record? fields (.obj ms) >>= read) = read ⟨ms, false⟩ := by
  rw [record?_obj hms hnd]
  rfl

/-- The object with those members only whose names are kept. -/
def only (keep : String → Bool) : Json → Json
  | .obj ms => .obj (ms.filter fun m => keep m.1)
  | j => j

theorem lookup_filter (keep : String → Bool) (ms : List (String × Json)) (name : String) :
    (ms.filter fun m => keep m.1).lookup name =
      if keep name then ms.lookup name else none := by
  induction ms with
  | nil => simp
  | cons m ms ih =>
    obtain ⟨k, v⟩ := m
    by_cases hk : name = k
    · subst hk
      cases hkeep : keep name with
      | true => simp [hkeep]
      | false =>
        rw [hkeep] at ih
        simpa [hkeep] using ih
    · have hne : (name == k) = false := beq_false_of_ne hk
      cases hkeep : keep k <;> simp [hkeep, List.lookup_cons, hne, ih]

namespace Record

variable {α : Type}

/-- A field that is kept is read as before, and one that is left out has its default. -/
theorem defaultBy?_only {read? : Json → Option α} {ms : List (String × Json)}
    {name : String} {v : Json} {a : α} (hname : ms.lookup name = some v)
    (hread : read? v = some a) (keep : String → Bool) (positional : Bool) (default : α) :
    (Record.mk (ms.filter fun m => keep m.1) positional).defaultBy? read? name default =
      some (if keep name then a else default) := by
  rw [defaultBy?, lookup_filter, hname]
  cases keep name with
  | true => exact hread
  | false => rfl

/-- A field with a default that was not read has its default. -/
theorem of_defaultBy? {r : Record} {read? : Json → Option α} {name : String} {default a : α}
    (h : r.defaultBy? read? name default = some a) : a = default ∨ ∃ v, read? v = some a := by
  rw [defaultBy?] at h
  cases hname : r.members.lookup name with
  | none =>
    rw [hname] at h
    exact .inl (Option.some.inj h).symm
  | some v =>
    rw [hname] at h
    exact .inr ⟨v, h⟩

/-- What may be missing is read as it was written, unless it is written as if it were
    missing. -/
theorem optional?_encodeOption [Codec α] [Codec.Lawful α] (hne : ∀ a : α, encode a ≠ .null)
    {r : Record} {name : String} {o : Option α}
    (hname : r.members.lookup name = some (encodeOption o)) : r.optional? name = some o := by
  rw [optional?, hname]
  cases o with
  | none => rfl
  | some a =>
    have hread := decode?_encode a
    have hne := hne a
    rw [encodeOption]
    generalize encode a = j at hread hne ⊢
    cases j with
    | null => exact absurd rfl hne
    | _ => exact congrArg (Option.map some) hread

end Record

end Lineage.Json
