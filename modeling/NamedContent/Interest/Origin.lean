/-! Where an answer to an interest may come from. -/

set_option autoImplicit false

namespace NamedContent

/-- A set of origins, one bit for each. -/
structure Origin where
  bits : UInt8
  deriving DecidableEq, Repr

namespace Origin

def contentStore : Origin := ⟨1⟩
def generated : Origin := ⟨2⟩
def stale : Origin := ⟨4⟩
def markStale : Origin := ⟨8⟩

def union (first second : Origin) : Origin := ⟨first.bits ||| second.bits⟩

def contains (first second : Origin) : Bool := first.bits &&& second.bits == second.bits

/-- The origins of an interest that states none. -/
def standard : Origin := contentStore.union generated

end Origin

end NamedContent
