import NamedContent.Word

/-! Points in time, in whole milliseconds. -/

set_option autoImplicit false

namespace NamedContent

/-- Milliseconds since the start of 1970. -/
structure Timestamp where
  ms : UInt64
  deriving DecidableEq, Inhabited, Repr

namespace Timestamp

instance : LT Timestamp := ⟨fun first second => first.ms < second.ms⟩
instance : LE Timestamp := ⟨fun first second => first.ms ≤ second.ms⟩

instance (first second : Timestamp) : Decidable (first < second) :=
  inferInstanceAs (Decidable (first.ms < second.ms))

instance (first second : Timestamp) : Decidable (first ≤ second) :=
  inferInstanceAs (Decidable (first.ms ≤ second.ms))

def zero : Timestamp := ⟨0⟩

/-- The time `ms` milliseconds later, or the last one there is. -/
def add (time : Timestamp) (ms : UInt64) : Timestamp := ⟨Word.add time.ms ms⟩

def since? (time earlier : Timestamp) : Option UInt64 :=
  if earlier ≤ time then some (time.ms - earlier.ms) else none

def latest (first second : Timestamp) : Timestamp := if first ≤ second then second else first

end Timestamp

end NamedContent
