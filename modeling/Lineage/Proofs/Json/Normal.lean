import Lineage.Json.Record
import Mathlib.Data.List.Basic

/-!
# Values in normal form

Free-form values are kept in normal form (`Json.Normal`): they are values throughout, and
the members of their objects have names in ascending order, so no name twice. Bringing a
value to normal form leads there (`normal_of_normal?`), and leaves it alone if it is there
already (`Normal.normal?_eq_some`).

An object is brought to normal form by setting its members one after the other. Setting a
member keeps the names ascending (`Members.Ascending.set`), and members whose names are
ascending are appended one by one.
-/

namespace Lineage.Json

/-! ### Ascending names -/

namespace Members

/-- The names of the members are in ascending order. -/
def Ascending (ms : Members) : Prop :=
  (ms.map Prod.fst).Pairwise (· < ·)

instance (ms : Members) : Decidable ms.Ascending :=
  inferInstanceAs (Decidable ((ms.map Prod.fst).Pairwise (· < ·)))

theorem mem_set {ms : Members} {name : String} {v : Json} {m : String × Json}
    (hm : m ∈ ms.set name v) : m = (name, v) ∨ m ∈ ms := by
  induction ms with
  | nil => exact .inl (List.mem_singleton.1 hm)
  | cons e ms ih =>
    rw [set] at hm
    split_ifs at hm with hlt heq
    · exact List.mem_cons.1 hm
    · exact (List.mem_cons.1 hm).imp_right (List.mem_cons_of_mem _)
    · rcases List.mem_cons.1 hm with rfl | hm
      · exact .inr List.mem_cons_self
      · exact (ih hm).imp_right (List.mem_cons_of_mem _)

/-- Setting a member keeps the names in ascending order, whether it is there already or not. -/
theorem Ascending.set {ms : Members} (hms : ms.Ascending) (name : String) (v : Json) :
    (ms.set name v).Ascending := by
  induction ms with
  | nil => exact List.pairwise_singleton _ _
  | cons e ms ih =>
    obtain ⟨hhead, hms⟩ := List.pairwise_cons.1 hms
    rw [Members.set]
    split_ifs with hlt heq
    · refine List.pairwise_cons.2 ⟨?_, List.pairwise_cons.2 ⟨hhead, hms⟩⟩
      exact List.forall_mem_cons.2 ⟨hlt, fun k hk => String.lt_trans hlt (hhead k hk)⟩
    · subst heq
      exact List.pairwise_cons.2 ⟨hhead, hms⟩
    · refine List.pairwise_cons.2 ⟨fun k hk => ?_, ih hms⟩
      -- the new name is behind the first one, as are all others
      obtain ⟨m, hm, rfl⟩ := List.mem_map.1 hk
      rcases mem_set hm with rfl | hm
      · exact Std.lt_of_le_of_ne hlt fun h => heq h.symm
      · exact hhead _ (List.mem_map_of_mem hm)

theorem Ascending.setAll {ms : Members} (hms : ms.Ascending) (new : List (String × Json)) :
    (ms.setAll new).Ascending := by
  induction new generalizing ms with
  | nil => exact hms
  | cons m new ih => exact ih (hms.set m.1 m.2)

theorem ascending_ofList (ms : List (String × Json)) : (ofList ms).Ascending :=
  Ascending.setAll (show Ascending [] from .nil) ms

/-- Setting members adds no others. -/
theorem mem_setAll {ms : Members} {new : List (String × Json)} {m : String × Json}
    (hm : m ∈ ms.setAll new) : m ∈ ms ∨ m ∈ new := by
  induction new generalizing ms with
  | nil => exact .inl hm
  | cons e new ih =>
    rcases ih hm with hm | hm
    · refine (mem_set hm).symm.imp_right ?_
      rintro rfl
      exact List.mem_cons_self
    · exact .inr (List.mem_cons_of_mem _ hm)

/-- A name that is behind all others is set at the end. -/
theorem set_eq_append {ms : Members} {name : String} {v : Json}
    (hname : ∀ k ∈ ms.map Prod.fst, k < name) : ms.set name v = ms ++ [(name, v)] := by
  induction ms with
  | nil => rfl
  | cons e ms ih =>
    obtain ⟨hlt, hname⟩ := List.forall_mem_cons.1 hname
    have hne : name ≠ e.1 := fun h => String.lt_irrefl _ (h ▸ hlt)
    rw [set, if_neg (String.lt_asymm hlt), if_neg hne, ih hname]
    rfl

/-- Members whose names go on in ascending order are appended as they are. -/
theorem setAll_eq_append {ms new : Members} (hms : Ascending (ms ++ new)) :
    ms.setAll new = ms ++ new := by
  induction new generalizing ms with
  | nil => exact (List.append_nil ms).symm
  | cons m new ih =>
    have hlast : ∀ k ∈ ms.map Prod.fst, k < m.1 := by
      rw [Ascending, List.map_append, List.pairwise_append] at hms
      exact fun k hk => hms.2.2 k hk m.1 List.mem_cons_self
    rw [List.append_cons] at hms ⊢
    rw [setAll, List.foldl_cons, set_eq_append hlast]
    exact ih hms

/-- So an object whose names are in ascending order is made of its members just as they are. -/
theorem Ascending.ofList_eq {ms : Members} (hms : ms.Ascending) : ofList ms = ms :=
  setAll_eq_append (show Ascending ([] ++ ms) from hms)

end Members

/-! ### Normal values -/

/-- The value is in normal form. -/
inductive Normal : Json → Prop
  | null : Normal .null
  | bool (b : Bool) : Normal (.bool b)
  | int (n : Int) : Normal (.int n)
  | double (d : Double) : Normal (.double d)
  | str (s : String) : Normal (.str s)
  | arr {items : List Json} (items_normal : ∀ j ∈ items, Normal j) : Normal (.arr items)
  | obj {ms : Members} (ascending : ms.Ascending) (values_normal : ∀ m ∈ ms, Normal m.2) :
      Normal (.obj ms)

mutual

/-- What a value is brought to is in normal form. The recursion follows the value, through the
    items of arrays and the members of objects. -/
theorem normal_of_normal? : (j : Json) → ∀ {j' : Json}, normal? j = some j' → Normal j'
  | .void, _, h => nomatch h
  | .null, _, rfl => .null
  | .bool b, _, rfl => .bool b
  | .int n, _, rfl => .int n
  | .double d, _, rfl => .double d
  | .str s, _, rfl => .str s
  | .arr items, _, h => by
    rw [normal?, Option.map_eq_some_iff] at h
    obtain ⟨items', hitems, rfl⟩ := h
    exact .arr (normal_of_normalItems? items hitems)
  | .obj ms, _, h => by
    rw [normal?, Option.map_eq_some_iff] at h
    obtain ⟨ms', hms, rfl⟩ := h
    have hvalues := normal_of_normalMembers? ms hms
    exact .obj (Members.ascending_ofList ms') fun m hm =>
      hvalues m ((Members.mem_setAll hm).resolve_left List.not_mem_nil)

theorem normal_of_normalItems? : (items : List Json) → ∀ {items' : List Json},
    normalItems? items = some items' → ∀ j ∈ items', Normal j
  | [], _, rfl => fun _ hj => absurd hj List.not_mem_nil
  | j :: items, _, h => by
    obtain ⟨j', hj, h⟩ := Option.bind_eq_some_iff.1 h
    obtain ⟨items', hitems, h⟩ := Option.bind_eq_some_iff.1 h
    obtain rfl := Option.some.inj h
    exact List.forall_mem_cons.2 ⟨normal_of_normal? j hj, normal_of_normalItems? items hitems⟩

theorem normal_of_normalMembers? : (ms : List (String × Json)) →
    ∀ {ms' : List (String × Json)}, normalMembers? ms = some ms' → ∀ m ∈ ms', Normal m.2
  | [], _, rfl => fun _ hm => absurd hm List.not_mem_nil
  | (k, j) :: ms, _, h => by
    obtain ⟨j', hj, h⟩ := Option.bind_eq_some_iff.1 h
    obtain ⟨ms', hms, h⟩ := Option.bind_eq_some_iff.1 h
    obtain rfl := Option.some.inj h
    exact List.forall_mem_cons.2 ⟨normal_of_normal? j hj, normal_of_normalMembers? ms hms⟩

end

theorem normalItems?_eq_some {items : List Json} (h : ∀ j ∈ items, normal? j = some j) :
    normalItems? items = some items := by
  induction items with
  | nil => rfl
  | cons j items ih =>
    obtain ⟨hj, hitems⟩ := List.forall_mem_cons.1 h
    rw [normalItems?, hj, ih hitems]
    rfl

theorem normalMembers?_eq_some {ms : Members} (h : ∀ m ∈ ms, normal? m.2 = some m.2) :
    normalMembers? ms = some ms := by
  induction ms with
  | nil => rfl
  | cons m ms ih =>
    obtain ⟨hm, hms⟩ := List.forall_mem_cons.1 h
    rw [normalMembers?, hm, ih hms]
    rfl

/-- A value in normal form is what it is brought to. -/
theorem Normal.normal?_eq_some {j : Json} (hj : Normal j) : normal? j = some j := by
  induction hj with
  | null | bool | int | double | str => rfl
  | arr _ ih => rw [normal?, normalItems?_eq_some ih, Option.map_some]
  | obj ascending _ ih =>
    rw [normal?, normalMembers?_eq_some ih, Option.map_some, Function.comp, ascending.ofList_eq]

/-! ### Normal members -/

/-- The members are those of an object in normal form. -/
def Members.Normal (ms : Members) : Prop :=
  Json.Normal (.obj ms)

theorem Members.normal_nil : Members.Normal [] :=
  .obj .nil fun _ hm => absurd hm List.not_mem_nil

/-- Setting members that are normal leaves an object in normal form. -/
theorem Members.Normal.setAll {ms new : Members} (hms : ms.Normal) (hnew : new.Normal) :
    (ms.setAll new).Normal := by
  cases hms with
  | obj ascending values_normal =>
    cases hnew with
    | obj _ new_normal =>
      refine .obj (ascending.setAll new) fun m hm => ?_
      exact (mem_setAll hm).elim (values_normal m) (new_normal m)

theorem Members.Normal.set {ms : Members} (hms : ms.Normal) (name : String) {v : Json}
    (hv : Json.Normal v) : (ms.set name v).Normal := by
  have hnew : Members.Normal [(name, v)] :=
    .obj (List.pairwise_singleton _ _) fun m hm => List.mem_singleton.1 hm ▸ hv
  exact hms.setAll hnew

/-- The members of an object in normal form are read as they are. -/
theorem Members.Normal.members?_eq_some {ms : Members} (hms : ms.Normal) :
    members? (.obj ms) = some ms := by
  cases hms with
  | obj ascending values_normal =>
    rw [members?, normalMembers?_eq_some fun m hm => (values_normal m hm).normal?_eq_some,
      Option.map_some, ascending.ofList_eq]

/-- Whatever members are read, they are those of an object in normal form. -/
theorem normal_of_members? {j : Json} {ms : Members} (h : members? j = some ms) :
    ms.Normal := by
  cases j with
  | obj members =>
    refine normal_of_normal? (.obj members) ?_
    rw [members?, Option.map_eq_some_iff] at h
    obtain ⟨ms', hms, rfl⟩ := h
    rw [normal?, hms]
    rfl
  | void | null | bool | int | double | str | arr => exact nomatch h

end Lineage.Json
