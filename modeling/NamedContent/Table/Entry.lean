import NamedContent.Interest.Basic

/-! Entries of the interest table. -/

set_option autoImplicit false

namespace NamedContent

inductive Entry (V : Type) where
  | bare (name : Name) (value : V)
  | interest (asked : Interest) (value : V)
  deriving DecidableEq, Repr

namespace Entry

variable {V : Type}

def name : Entry V → Name
  | .bare name _ => name
  | .interest asked _ => asked.name

def interest? : Entry V → Option Interest
  | .bare _ _ => none
  | .interest asked _ => some asked

def value : Entry V → V
  | .bare _ value => value
  | .interest _ value => value

/-- Bare names match nothing. -/
def matchesTarget (target : Target) (entry : Entry V) : Bool :=
  entry.interest?.any (·.matchesTarget target)

end Entry

end NamedContent
