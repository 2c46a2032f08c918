import NamedContent.Proofs.Flow.Stores

/-! Content and interests find each other, whichever comes first.

A put looks at every pending interest and an interest at everything buffered.
So an object and an interest that match are kept side by side only where the
segment order held them back when they met, and the order holds back only a
next interest, and only beyond the segment that follows its reference. -/

set_option autoImplicit false

namespace NamedContent.Flow

variable {τ : Type} {flow before after : Flow τ} {event : Event}
variable {object : ContentObject} {interest : Interest} {pending : Pending}

structure Beside (flow : Flow τ) (object : ContentObject) (interest : Interest) (pending : Pending) : Prop where
  stored : object ∈ flow.buffer.values
  waits : Entry.interest interest pending ∈ flow.pending.toList
  matched : interest.matchesObject object = true

/-- The object lies on the stream that the interest follows, with at least one
segment between the reference and it. -/
structure Ahead (interest : Interest) (object : ContentObject) (reference number : UInt64) : Prop where
  next : interest.selector = some .next
  longer : object.name.length = interest.name.length + 1
  refers : interest.reference? = some (.segment reference)
  ends : object.name.last? = some (.segment number)
  gap : reference.toNat + 1 < number.toNat

theorem Ahead.of_inOrder (late : flow.inOrder interest object.name = false) :
    flow.config.strictSegmentOrder = true ∧ ∃ reference number, Ahead interest object reference number := by
  obtain ⟨strict, next, longer, reference, number, refers, ends, beyond⟩ := inOrder_eq_false_iff.mp late
  have reached := flow.lt_reach interest.name reference
  exact ⟨strict, reference, number, next, longer, refers, ends, by omega⟩

/-- The entries are filed well and a matching pair is one that the order held back. -/
structure Settled (flow : Flow τ) : Prop where
  wellFormed : flow.pending.WellFormed
  ahead : ∀ {object : ContentObject} {interest : Interest} {pending : Pending},
    flow.Beside object interest pending →
    flow.config.strictSegmentOrder = true ∧ ∃ reference number, Ahead interest object reference number

theorem not_beside_new (config : FlowConfig) (transport : τ) :
    ¬ (Flow.new config transport).Beside object interest pending := by
  intro pair
  exact absurd pair.stored List.not_mem_nil

theorem settled_new (config : FlowConfig) (transport : τ) : (Flow.new config transport).Settled where
  wellFormed := Table.wellFormed_empty
  ahead := fun pair => absurd pair (not_beside_new config transport)

variable [Transport τ]

-- A pair meets by the put of the object or the registration of the interest,
-- and only if it is out of order then.
theorem Step.beside_cases (step : before.Step event after) (wellFormed : before.pending.WellFormed)
    (pair : after.Beside object interest pending) :
    before.Beside object interest pending ∨ after.inOrder interest object.name = false := by
  rcases step.stored_cases pair.stored with stored | rfl
  · rcases step.waits_cases wellFormed pair.waits with waits | rfl
    · exact Or.inl ⟨stored, waits, pair.matched⟩
    · cases step with
      | register now heeded nothing =>
        exact Or.inr (inOrder_eq_false_of_bestBuffered? nothing stored pair.matched)
  · cases step with
    | buffer judged =>
      cases judged with
      | buffer weighed unwanted room =>
        exact Or.inr (inOrder_eq_false_of_bestPending? wellFormed unwanted pair.waits pair.matched)

theorem Step.settled (step : before.Step event after) (held : before.Settled) : after.Settled where
  wellFormed := step.wellFormed held.wellFormed
  ahead := by
    intro object interest pending pair
    rcases step.beside_cases held.wellFormed pair with earlier | late
    · rw [step.strict]
      exact held.ahead earlier
    · exact Ahead.of_inOrder late

theorem Trail.settled {start final : Flow τ} {moments : List (Moment τ)} (trail : Trail start moments final)
    (held : start.Settled) : final.Settled :=
  trail.keeps Settled held Step.settled

theorem Trail.strict {start final : Flow τ} {moments : List (Moment τ)} (trail : Trail start moments final) :
    final.config.strictSegmentOrder = start.config.strictSegmentOrder :=
  trail.keeps (fun flow => flow.config.strictSegmentOrder = start.config.strictSegmentOrder) rfl
    fun step same => step.strict.trans same

theorem Trail.lifetime {start final : Flow τ} {moments : List (Moment τ)} (trail : Trail start moments final) :
    final.config.interestLifetime = start.config.interestLifetime :=
  trail.keeps (fun flow => flow.config.interestLifetime = start.config.interestLifetime) rfl
    fun step same => step.lifetime.trans same

theorem settled_run (config : FlowConfig) (transport : τ) (requests : List Request) :
    ((Flow.new config transport).run requests).2.Settled :=
  ((Flow.new config transport).trail_history requests).settled (settled_new config transport)

/-- No match is missed: what matches and still waits is a next interest on a
stream and one of its segments, with a gap between the reference and it. -/
theorem waiting_match_has_gap (config : FlowConfig) (transport : τ) (requests : List Request)
    (stored : object ∈ ((Flow.new config transport).run requests).2.buffer.values)
    (waits : Entry.interest interest pending ∈ ((Flow.new config transport).run requests).2.pending.toList)
    (matched : interest.matchesObject object = true) :
    config.strictSegmentOrder = true ∧ interest.selector = some .next ∧
      object.name.length = interest.name.length + 1 ∧
      ∃ reference number, interest.reference? = some (.segment reference) ∧
        object.name.last? = some (.segment number) ∧ reference.toNat + 1 < number.toNat := by
  obtain ⟨strict, reference, number, held⟩ :=
    (settled_run config transport requests).ahead ⟨stored, waits, matched⟩
  rw [((Flow.new config transport).trail_history requests).strict] at strict
  exact ⟨strict, held.next, held.longer, reference, number, held.refers, held.ends, held.gap⟩

namespace Sample

def fresh : Flow (List ContentObject) := Flow.new .standard []

def stream : Name := .ofBytes [[0x73]]

def segment (number : UInt64) : ContentObject := .new (stream.segment number) []

def follower (reference : UInt64) : Interest := .next (stream.segment reference) 1

def exactly (number : UInt64) : Interest := .ofName (stream.segment number)

/-- Segment 2 is buffered, and then segment 1 is asked for twice. -/
def gap : List Request := [.addNamespace stream, .put (segment 2) ⟨1000⟩, .ask [follower 0, follower 0] ⟨1000⟩]

end Sample

open Flow.Sample in
theorem segment_waits_beyond_gap :
    let final := ((Flow.new .standard ([] : List ContentObject)).run gap).2
    segment 2 ∈ final.buffer.values ∧ Entry.interest (follower 0) ⟨0, some ⟨5000⟩⟩ ∈ final.pending.toList ∧
      (follower 0).matchesObject (segment 2) = true ∧
      ∃ reference number, (follower 0).reference? = some (.segment reference) ∧
        (segment 2).name.last? = some (.segment number) ∧ reference.toNat + 1 < number.toNat := by
  intro final
  have stored : segment 2 ∈ final.buffer.values := by decide +kernel
  have waits : Entry.interest (follower 0) ⟨0, some ⟨5000⟩⟩ ∈ final.pending.toList := by decide +kernel
  have matched : (follower 0).matchesObject (segment 2) = true := by decide +kernel
  have held := waiting_match_has_gap .standard [] gap stored waits matched
  exact ⟨stored, waits, matched, held.2.2.2⟩

end NamedContent.Flow
