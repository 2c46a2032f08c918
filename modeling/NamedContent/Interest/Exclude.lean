import NamedContent.Name.Basic

/-! Components that an interest skips right after its name. -/

set_option autoImplicit false

namespace NamedContent

/-- A bound, up to and including which all is skipped, and single components,
which are kept in ascending order without repetition. -/
structure Exclude where
  through : Option Component
  components : List Component
  deriving DecidableEq, Repr

namespace Exclude

def empty : Exclude := ⟨none, []⟩

def upTo (bound : Component) : Exclude := ⟨some bound, []⟩

def insertAscending (component : Component) : List Component → List Component
  | [] => [component]
  | first :: rest =>
    if component < first then component :: first :: rest
    else if component = first then first :: rest
    else first :: insertAscending component rest

def excluding (exclude : Exclude) (component : Component) : Exclude :=
  { exclude with components := insertAscending component exclude.components }

def contains (exclude : Exclude) (component : Component) : Bool :=
  exclude.through.any (component ≤ ·) || exclude.components.contains component

def isEmpty (exclude : Exclude) : Bool := exclude.through.isNone && exclude.components.isEmpty

end Exclude

end NamedContent
