/-! Why a text is not a name. -/

set_option autoImplicit false

namespace NamedContent

/-- The first fault of a text that is no name; positions count components. -/
inductive Malformed where
  | missingSeparator
  | emptyComponent (position : Nat)
  | relativeComponent (position : Nat)
  | invalidEscape (position : Nat)
  deriving DecidableEq, Repr

def Malformed.message : Malformed → String
  | .missingSeparator => "name strings must begin with '/'"
  | .emptyComponent position => s!"empty component at position {position}"
  | .relativeComponent position => s!"relative component at position {position}"
  | .invalidEscape position => s!"invalid percent escape in component {position}"

end NamedContent
