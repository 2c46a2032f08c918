import NamedContent.Flow.Expiry
import NamedContent.Flow.Selection

/-! Putting content and asking for it.

A put is first admitted, which touches neither the buffer nor the transport,
and then carried out. Interests are answered one after the other. An object
that the transport refuses is back where it was, and a pending interest stays. -/

set_option autoImplicit false

namespace NamedContent

inductive PutOutcome where
  | delivered
  | buffered
  /-- It went to the transport unchecked, because flow control is disabled. -/
  | bypassed
  deriving DecidableEq, Repr

inductive Admission where
  | bypass
  | deliver (candidate : Candidate)
  | buffer
  deriving DecidableEq, Repr

namespace Flow

variable {τ : Type}

def admission (flow : Flow τ) (object : ContentObject) (now : Timestamp) : Except Failure Admission × Flow τ :=
  if flow.closed then (.error .closed, flow)
  else if !flow.enabled then (.ok .bypass, flow)
  else if !flow.covers object.name then (.error (.outsideNamespaces object.name), flow)
  else
    let flow := flow.expire now
    match flow.bestPending? object with
    | some candidate => (.ok (.deliver candidate), flow)
    | none =>
      if !flow.isBuffered object.name && flow.buffer.size ≥ flow.config.highwater then
        (.error (.capacity flow.config.highwater), flow)
      else (.ok .buffer, flow)

/-- The mark of a segment's stream once the segment has been delivered. -/
def advance (flow : Flow τ) (stream : Name) (segment : UInt64) : Mark :=
  let highest := match flow.lowWater? stream with
    | some delivered => max segment delivered
    | none => segment
  ⟨stream, highest, flow.now⟩

variable [Transport τ]

def send (flow : Flow τ) (object : ContentObject) : Except Failure Unit × Flow τ :=
  let (taken, transport) := Transport.deliver flow.transport object
  (taken.mapError .transport, { flow with transport := transport })

/-- Hands an object to the transport. The mark of its stream moves only if the
transport takes it. -/
def deliver (flow : Flow τ) (object : ContentObject) : Except Failure Unit × Flow τ :=
  match flow.send object with
  | (.error failure, flow) => (.error failure, flow)
  | (.ok (), flow) =>
    match object.name.splitSegment? with
    | some (stream, segment) => (.ok (), { flow with marks := flow.marks.insert (flow.advance stream segment) })
    | none => (.ok (), flow)

def commit (flow : Flow τ) (object : ContentObject) : Admission → Except Failure PutOutcome × Flow τ
  | .bypass =>
    match flow.send object with
    | (.error failure, flow) => (.error failure, flow)
    | (.ok (), flow) => (.ok .bypassed, flow)
  | .deliver candidate =>
    match flow.deliver object with
    | (.error failure, flow) => (.error failure, flow)
    | (.ok (), flow) =>
      (.ok .delivered,
        { flow with pending := (flow.pending.removeInterest candidate.interest candidate.pending).2 })
  | .buffer => (.ok .buffered, { flow with buffer := flow.buffer.insert object })

/-- Delivers an object to a pending interest or buffers it. -/
def put (flow : Flow τ) (object : ContentObject) (now : Timestamp) : Except Failure PutOutcome × Flow τ :=
  match flow.admission object now with
  | (.error failure, flow) => (.error failure, flow)
  | (.ok admission, flow) => flow.commit object admission

def register (flow : Flow τ) (interest : Interest) (now : Timestamp) : Flow τ :=
  let deadline := flow.config.interestLifetime.map fun lifetime => now.add lifetime.millis
  { flow with
    pending := flow.pending.addInterest interest ⟨flow.nextSeq, deadline⟩
    nextSeq := flow.nextSeq + 1 }

/-- Whether an interest is passed over: after close, outside the namespaces, or
when it refuses generated content. -/
def ignores (flow : Flow τ) (interest : Interest) : Bool :=
  flow.closed || !flow.overlaps interest.name || !interest.acceptsGenerated

/-- Answers one interest from the buffer or keeps it. The object is taken out
before the transport gets it and goes back if the transport refuses it. -/
def askOne (flow : Flow τ) (interest : Interest) (now : Timestamp) : Except Failure Bool × Flow τ :=
  if flow.ignores interest then (.ok false, flow)
  else
    match flow.bestBuffered? interest with
    | none => (.ok false, flow.register interest now)
    | some object =>
      let taken := { flow with buffer := flow.buffer.erase object.name }
      match taken.deliver object with
      | (.error failure, flow) => (.error failure, { flow with buffer := flow.buffer.insert object })
      | (.ok (), flow) => (.ok true, flow)

def askEach (flow : Flow τ) (now : Timestamp) (answered : Nat) : List Interest → Except Failure Nat × Flow τ
  | [] => (.ok answered, flow)
  | interest :: rest =>
    match flow.askOne interest now with
    | (.error failure, flow) => (.error failure, flow)
    | (.ok hit, flow) => flow.askEach now (answered + if hit then 1 else 0) rest

/-- Answers what it can from the buffer and keeps the other interests, unless
they are passed over. Answers how many were answered. -/
def ask (flow : Flow τ) (interests : List Interest) (now : Timestamp) : Except Failure Nat × Flow τ :=
  (flow.expire now).askEach now 0 interests

end Flow

end NamedContent
