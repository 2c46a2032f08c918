import NamedContent.Word

/-! Lengths of time, to the nanosecond. -/

set_option autoImplicit false

namespace NamedContent

/-- Whole seconds and the nanoseconds beyond them. -/
structure Duration where
  seconds : UInt64
  nanos : Fin 1000000000
  deriving DecidableEq, Repr

namespace Duration

def zero : Duration := ⟨0, 0⟩

def greatest : Duration := ⟨UInt64.ofNat Word.greatest, ⟨999999999, by decide⟩⟩

def ofSeconds (seconds : UInt64) : Duration := ⟨seconds, 0⟩

def ofMillis (ms : UInt64) : Duration :=
  ⟨ms / 1000, Fin.ofNat 1000000000 (ms.toNat % 1000 * 1000000)⟩

def ofParts? (seconds nanos : Nat) : Option Duration :=
  let whole := seconds + nanos / 1000000000
  if whole ≤ Word.greatest then some ⟨UInt64.ofNat whole, Fin.ofNat 1000000000 nanos⟩ else none

/-- The sum of two durations, or the longest one. -/
def add (first second : Duration) : Duration :=
  (ofParts? (first.seconds.toNat + second.seconds.toNat) (first.nanos.val + second.nanos.val)).getD greatest

/-- Whole milliseconds, or the greatest word beyond it. -/
def millis (duration : Duration) : UInt64 :=
  Word.clamp (duration.seconds.toNat * 1000 + duration.nanos.val / 1000000)

private def paddedDigits (width number : Nat) : List Char :=
  let digits := Nat.toDigits 10 number
  List.replicate (width - digits.length) '0' ++ digits

private def decimal (whole fraction places : Nat) : String :=
  let digits := ((paddedDigits places fraction).reverse.dropWhile (· == '0')).reverse
  if digits.isEmpty then toString whole else toString whole ++ "." ++ String.ofList digits

/-- The text of a duration in the largest unit of which it holds at least one. -/
def text (duration : Duration) : String :=
  let nanos := duration.nanos.val
  if duration.seconds > 0 then decimal duration.seconds.toNat nanos 9 ++ "s"
  else if nanos ≥ 1000000 then decimal (nanos / 1000000) (nanos % 1000000) 6 ++ "ms"
  else if nanos ≥ 1000 then decimal (nanos / 1000) (nanos % 1000) 3 ++ "µs"
  else toString nanos ++ "ns"

end Duration

end NamedContent
