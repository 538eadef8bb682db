import Lineage.Fault

/-!
# Discovery

What is known of types from outside: the root marker, the descriptors of
finitely many types, and a search for the types that descend from a marker
(`Discovery`). The search may fail, and nothing ties its answers to the
described types.

A type descends from a marker if a chain of supertypes leads from it to the
marker (`Discovery.descends`). The chain runs through described types, the
marker itself need not be described, and hierarchies may be cyclic: no type is
visited twice.

Fields are read through a `FieldReader`. For a *managed* type it knows an
authoritative list of fields, which replaces the declared ones.
-/

namespace Lineage

/-- The outcome of a recursion of bounded depth: `none` if it would have gone
    deeper, otherwise a result or an error. -/
abbrev Bounded (ε α : Type) := ExceptT ε Option α

/-- What is known of types from outside. -/
structure Discovery where
  /-- The marker from which all resource types descend. -/
  root : TypeKey
  /-- The described types. Of two with the same key the first one counts. -/
  described : List TypeDescriptor
  /-- The search for the types that descend from a marker. -/
  find : TypeKey → Except Fault (List TypeDescriptor)

namespace Discovery

variable (p : Discovery)

/-- The descriptor of a type. -/
def describe? (k : TypeKey) : Option TypeDescriptor :=
  p.described.find? (·.key = k)

/-- A depth that no chain of distinct types exceeds: one for each described
    type, one for an end that is not described, and one to spare. -/
def depthBound : Nat :=
  p.described.length + 2

/-- Searches upwards from a type for the marker, at most to the given depth.
    The state holds the types visited so far. -/
def search (marker : TypeKey) : Nat → TypeKey → StateT (List TypeKey) Option Bool
  | 0, _ => fun _ => none
  | fuel + 1, k => do
    if (← get).contains k then return false
    modify (k :: ·)
    match p.describe? k with
    | none => return false
    | some d => d.supertypes.anyM fun parent =>
      if parent = marker then return true else search marker fuel parent

/-- Whether a chain of one or more supertypes leads from the type to the
    marker. -/
def descends (k marker : TypeKey) : Bool :=
  ((p.search marker p.depthBound k).run' []).getD false

/-- Discovery with some of its answers replaced. The types to `hide` are not
    described, those to `add` are described in place of others with their keys,
    and the search finds the `extra` types after all others. -/
def adjust (hide : List TypeKey) (add extra : List TypeDescriptor) : Discovery where
  root := p.root
  described := (add ++ p.described).filter fun d => !hide.contains d.key
  find marker := return (← p.find marker) ++ extra

/-- Discovery whose search always fails. -/
def failing (fault : Fault) : Discovery :=
  { p with find := fun _ => .error fault }

end Discovery

/-- How the fields of a type are read. -/
structure FieldReader where
  /-- The fields that the type declares. -/
  declared : TypeDescriptor → List Field
  /-- The authoritative fields of a managed type. -/
  managed : TypeDescriptor → Option (List Field)

namespace FieldReader

/-- Reads the declared fields off the descriptor, and manages no type. -/
def ofDescriptor : FieldReader where
  declared := TypeDescriptor.fields
  managed _ := none

/-- The fields that count for a type: the authoritative ones if it is managed,
    otherwise the declared ones. -/
def fields (r : FieldReader) (d : TypeDescriptor) : List Field :=
  (r.managed d).getD (r.declared d)

end FieldReader

end Lineage
