import Lineage.Proofs.Access.Guard

/-!
# Translating names

A caller knows attributes by their aliases. In a compiled scope an alias is
resolved to the attribute that it was made from, and so is the name of an
attribute without an alias, since no alias captures it
(`Scope.resolve_aliasOf`).

Therefore no two attributes of a catalogue are translated to one name, and a
request in translated names is answered like the request in the names of the
attributes (`ReadGuard.check_translated_of_build`). A fault that names offenders
names them as the request did.
-/

namespace Lineage

/-- The table lists each of the names once, with what the function makes of it. -/
def Table.Translates (t : Table String String) (f : String → String) (names : List String) :
    Prop :=
  t.Distinct ∧ ∀ name, t.get? name = if name ∈ names then some (f name) else none

/-- The fault, with other names for the offenders. -/
def Fault.renameOffenders (f : String → String) : Fault → Fault
  | .access (.unauthorized k c offenders) => .access (.unauthorized k c (offenders.map f))
  | fault => fault

/-- An answer given under the policy, with other names for the offenders if the
    policy lists them. -/
def FailurePolicy.renameOffenders (f : String → String) :
    FailurePolicy → Except Fault (List String) → Except Fault (List String)
  | lenient, answer => answer
  | strict, answer => answer.mapError (Fault.renameOffenders f)

namespace Scope

theorem translates_translate (s : Scope) (names : List String) :
    (s.translate names).Translates s.aliasOf names := by
  -- stated for the names listed before those that are left
  suffices ∀ t : Table String String, t.Distinct →
      Table.Distinct (names.foldl (fun t name => t.set name (s.aliasOf name)) t) ∧
      ∀ name, Table.get? (names.foldl (fun t name => t.set name (s.aliasOf name)) t) name =
        if name ∈ names then some (s.aliasOf name) else t.get? name from
    this [] Table.distinct_nil
  induction names with
  | nil => exact fun t ht => ⟨ht, fun _ => rfl⟩
  | cons first names ih =>
    intro t ht
    obtain ⟨hd, hget⟩ := ih (t.set first (s.aliasOf first)) (ht.alter first _)
    refine ⟨hd, fun name => ?_⟩
    rw [List.foldl_cons, hget, Table.set, Table.get?_alter]
    by_cases hname : name = first
    · simp [hname]
    · simp [hname]

section Compiled

variable {c : Catalogue} {label : String} {rules : CallerRules} {aliases : Table String String}
  {s : Scope} (hs : compile c label rules aliases = .ok s)
include hs

/-- The name under which an attribute is known stands for this attribute. -/
theorem resolve_aliasOf {attr : String} (hattr : attr ∈ c.names) :
    s.resolve (s.aliasOf attr) = attr := by
  rw [aliasOf]
  cases ha : s.aliases.get? attr with
  | none => exact resolve_eq_of_mem_names hs hattr
  | some newName => exact resolve_eq_of_mem_aliases hs (Table.mem_of_get? ha)

/-- No two attributes are known under one name. -/
theorem aliasOf_inj {a b : String} (ha : a ∈ c.names) (hb : b ∈ c.names)
    (hab : s.aliasOf a = s.aliasOf b) : a = b := by
  rw [← resolve_aliasOf hs ha, hab, resolve_aliasOf hs hb]

/-- Whether an attribute may be read does not depend on which of its names is
    requested. -/
theorem permits_aliasOf {attr : String} (hattr : attr ∈ c.names) :
    s.permits (s.aliasOf attr) = s.permits attr := by
  rw [permits, permits, resolve_aliasOf hs hattr, resolve_eq_of_mem_names hs hattr]

theorem map_resolve_map_aliasOf {attrs : List String} (hattrs : attrs ⊆ c.names) :
    (attrs.map s.aliasOf).map s.resolve = attrs.map s.resolve := by
  rw [List.map_map]
  refine List.map_congr_left fun attr hmem => ?_
  rw [Function.comp_apply, resolve_aliasOf hs (hattrs hmem),
    resolve_eq_of_mem_names hs (hattrs hmem)]

theorem filter_permits_map_aliasOf {attrs : List String} (hattrs : attrs ⊆ c.names) :
    (attrs.map s.aliasOf).filter (fun name => !s.permits name) =
      (attrs.filter fun name => !s.permits name).map s.aliasOf := by
  rw [List.filter_map]
  refine congrArg (List.map s.aliasOf) (List.filter_congr fun attr hmem => ?_)
  rw [Function.comp_apply, permits_aliasOf hs (hattrs hmem)]

end Compiled

end Scope

namespace ReadGuard

variable {h : Hierarchy} {m : Metadata} {s : RuleSet} {g : ReadGuard}

/-- A request in the names under which a caller knows attributes is answered like
    the request in their own names, except for the names of the offenders. -/
theorem check_map_aliasOf {policy : FailurePolicy} (hpolicy : g.handler = policy.handler)
    {k : TypeKey} {c : Credential} {cat : Catalogue} {label : String} {rules : CallerRules}
    {aliases : Table String String} {sc : Scope} (hscope : g.scope k c = .ok sc)
    (hsc : Scope.compile cat label rules aliases = .ok sc) {attrs : List String}
    (hattrs : attrs ⊆ cat.names) :
    g.check k (attrs.map sc.aliasOf) c = policy.renameOffenders sc.aliasOf (g.check k attrs c) := by
  rw [check_eq hscope, check_eq hscope, Scope.filter_permits_map_aliasOf hsc hattrs,
    Scope.map_resolve_map_aliasOf hsc hattrs, hpolicy]
  simp only [List.map_eq_nil_iff]
  -- the two answers take the same branch, and differ at most in the offenders
  cases policy with
  | lenient => rfl
  | strict => split_ifs <;> rfl

/-- To each caller the attributes of a type are known under different names, and
    so they are to callers without rules. A request in these names gets the same
    answer as one in the names of the attributes. Only where the strict policy
    lists the offenders it lists them by the names requested. -/
theorem check_translated_of_build (hs : h.Sealed) {policy : FailurePolicy}
    (hg : build h m s policy.handler = .ok g) {k : TypeKey} (hk : h.contains k = true)
    (c : Credential) :
    ∃ cat, m.get? k = some cat ∧ ∃ shown plain : String → String,
      (∀ names, ∃ t, g.translateFor k c names = .ok t ∧ t.Translates shown names) ∧
      (∀ names, ∃ t, g.translate k names = .ok t ∧ t.Translates plain names) ∧
      (∀ a ∈ cat.names, ∀ b ∈ cat.names, shown a = shown b → a = b) ∧
      (∀ a ∈ cat.names, ∀ b ∈ cat.names, plain a = plain b → a = b) ∧
      ∀ attrs ⊆ cat.names,
        g.check k (attrs.map shown) c = policy.renameOffenders shown (g.check k attrs c) := by
  obtain ⟨root, hw⟩ := hs.wellFormed
  obtain ⟨n, hn, rfl⟩ := hw.contains_iff.1 hk
  obtain ⟨cat, t, hcat, ht, hcompile⟩ := exists_types hw hg hn
  obtain ⟨label, hsc⟩ := compile_scope hcompile c
  have hplain := compile_unrestricted hcompile
  have hscope : g.scope n.key c = .ok (t.scope c) := by rw [scope, ht]
  refine ⟨cat, hcat, (t.scope c).aliasOf, t.unrestricted.aliasOf, ?_, ?_, ?_, ?_, ?_⟩
  · intro names
    refine ⟨(t.scope c).translate names, ?_, Scope.translates_translate _ names⟩
    rw [translateFor, hscope]
    rfl
  · intro names
    refine ⟨t.unrestricted.translate names, ?_, Scope.translates_translate _ names⟩
    rw [translate, ht]
  · exact fun a ha b hb => Scope.aliasOf_inj hsc ha hb
  · exact fun a ha b hb => Scope.aliasOf_inj hplain ha hb
  · exact fun attrs => check_map_aliasOf (handler_eq hg) hscope hsc

open Invoices in
theorem check_translated_of_build_invoices :
    ∃ g, build hierarchy metadata rules FailurePolicy.strict.handler = .ok g ∧
      hierarchy.contains invoice = true ∧
      ∃ cat, metadata.get? invoice = some cat ∧ ∃ shown plain : String → String,
        (∀ names, ∃ t, g.translateFor invoice clerk names = .ok t ∧ t.Translates shown names) ∧
        (∀ names, ∃ t, g.translate invoice names = .ok t ∧ t.Translates plain names) ∧
        (∀ a ∈ cat.names, ∀ b ∈ cat.names, shown a = shown b → a = b) ∧
        (∀ a ∈ cat.names, ∀ b ∈ cat.names, plain a = plain b → a = b) ∧
        ∀ attrs ⊆ cat.names, g.check invoice (attrs.map shown) clerk =
          FailurePolicy.strict.renameOffenders shown (g.check invoice attrs clerk) := by
  obtain ⟨g, hg⟩ : ∃ g, build hierarchy metadata rules FailurePolicy.strict.handler = .ok g :=
    ⟨_, rfl⟩
  have hk : hierarchy.contains invoice = true := by decide +kernel
  exact ⟨g, hg, hk, check_translated_of_build (Hierarchy.sealed_built discovery) hg hk clerk⟩

end ReadGuard

end Lineage
