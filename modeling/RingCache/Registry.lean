import RingCache.Failure
import RingCache.Table

/-!
# Registries

A registry finds groups by name. A name belongs to the group that was registered
under it first; a later registration of the name fails and changes nothing.
-/
namespace RingCache

/-- Groups by name. -/
structure Registry (γ : Type) where
  groups : Table String γ

namespace Registry
variable {γ : Type}

/-- The registry without groups. -/
def empty : Registry γ := ⟨.empty⟩

instance : Inhabited (Registry γ) := ⟨empty⟩

/-- The group of a name. -/
def find? (registry : Registry γ) (name : String) : Option γ :=
  registry.groups.find? name

/-- The names, ascending. -/
def names (registry : Registry γ) : List String :=
  registry.groups.keys

/-- Registers a group under a name that is still free. -/
def register (registry : Registry γ) (name : String) (group : γ) : Except Failure (Registry γ) :=
  if registry.groups.contains name then
    .error (.config ("duplicate registration of group [" ++ name ++ "]"))
  else .ok ⟨registry.groups.insert name group⟩

/-- The registry after the group of a name changed. -/
def update (registry : Registry γ) (name : String) (change : γ → γ) : Registry γ :=
  ⟨registry.groups.modify name change⟩

end Registry

end RingCache
