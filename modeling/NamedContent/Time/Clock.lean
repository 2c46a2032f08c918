import NamedContent.Time.Duration
import NamedContent.Time.Timestamp

/-! Clocks that a controller takes its time from.

Where nothing but waiting takes time, a running clock is ahead by exactly the
time waited. -/

set_option autoImplicit false

namespace NamedContent

inductive Clock where
  | manual (time : Timestamp)
  /-- Moves on by itself from a start, and shows whole milliseconds. -/
  | running (start : Timestamp) (elapsed : Duration)
  deriving DecidableEq, Repr

namespace Clock

def startingAt (time : Timestamp) : Clock := .running time .zero

def now : Clock → Timestamp
  | .manual time => time
  | .running start elapsed => start.add elapsed.millis

/-- Sets the time. A running clock cannot be set. -/
def set (clock : Clock) (time : Timestamp) : Clock :=
  match clock with
  | .manual _ => .manual time
  | .running .. => clock

def wait (clock : Clock) (duration : Duration) : Clock :=
  match clock with
  | .manual _ => clock
  | .running start elapsed => .running start (elapsed.add duration)

def readings (clock : Clock) : List Duration → List Timestamp
  | [] => [clock.now]
  | pause :: rest => clock.now :: (clock.wait pause).readings rest

end Clock

end NamedContent
