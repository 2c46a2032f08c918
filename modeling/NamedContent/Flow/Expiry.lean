import NamedContent.Flow.Basic

/-! Forgetting by age: pending interests and the marks of idle streams. -/

set_option autoImplicit false

namespace NamedContent

def Pending.isLive (pending : Pending) (now : Timestamp) : Bool := pending.deadline.all (now < ·)

/-- Whether a stream last moved less than `idle` milliseconds ago, or after now. -/
def Mark.isFresh (mark : Mark) (now : Timestamp) (idle : UInt64) : Bool :=
  match now.since? mark.touched with
  | some age => age < idle
  | none => true

namespace Flow

variable {τ : Type}

/-- Drops the interests whose deadline has come, and the marks of streams that
have been idle for an interest's lifetime with nothing buffered under them: such
a stream has no reader left to keep in order. -/
def expire (flow : Flow τ) (now : Timestamp) : Flow τ :=
  let marks := match flow.config.interestLifetime with
    | some lifetime =>
      flow.marks.filter fun mark => mark.isFresh now lifetime.millis || flow.buffer.anyUnder mark.stream
    | none => flow.marks
  { flow with
    now := flow.now.latest now
    pending := flow.pending.filter fun entry => entry.value.isLive now
    marks := marks }

end Flow

end NamedContent
