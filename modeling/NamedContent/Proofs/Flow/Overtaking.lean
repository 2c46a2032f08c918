import NamedContent.Proofs.Flow.Meeting

/-! Segments that are kept although their turn has come.

The order is asked about a pair when its two parts meet and never again. A later
delivery to another interest may move the mark of the stream past the gap that
kept the pair apart; the pair is then kept all the same. These deliveries are
the only way in which a pair comes to be kept for no reason. -/

set_option autoImplicit false

namespace NamedContent

/-- A next interest on a stream with a segment as its reference. -/
structure Interest.Follows (interest : Interest) (stream : Name) (reference : UInt64) : Prop where
  named : interest.name = stream
  next : interest.selector = some .next
  refers : interest.reference? = some (.segment reference)

theorem Interest.follows_next (stream : Name) (reference : UInt64) :
    (Interest.next (stream.segment reference) stream.length).Follows stream reference where
  named := by rw [next_segment, ofName]
  next := rfl
  refers := by rw [next_segment]; rfl

namespace Flow

variable {τ : Type} {flow before after start final : Flow τ} {event : Event} {moments : List (Moment τ)}
variable {stream : Name} {reference number delivered : UInt64} {level : Nat}
variable {object : ContentObject} {interest : Interest} {pending : Pending}

theorem reach_eq (marked : flow.lowWater? stream = some delivered) :
    flow.reach stream reference = max reference.toNat delivered.toNat + 1 := by
  rw [reach, marked, Word.toNat_max]

theorem reach_eq_of_none (unmarked : flow.lowWater? stream = none) :
    flow.reach stream reference = reference.toNat + 1 := by
  rw [reach, unmarked]

-- A pair of a segment and a next interest on its stream is held back beyond reach.
theorem reach_lt_of_inOrder (named : object.name = stream.segment number) (follows : interest.Follows stream reference)
    (late : flow.inOrder interest object.name = false) : flow.reach stream reference < number.toNat := by
  obtain ⟨-, -, -, otherReference, otherNumber, refers, ends, beyond⟩ := inOrder_eq_false_iff.mp late
  rw [follows.refers, Option.some.injEq, Component.segment_inj] at refers
  rw [named, Name.last?_segment, Option.some.injEq, Component.segment_inj] at ends
  subst refers ends
  rwa [follows.named] at beyond

/-- A buffered segment and a pending next interest on its stream that matches
it, with nothing in the mark of the stream that holds the segment back. -/
structure Overdue (flow : Flow τ) (stream : Name) (reference number : UInt64) (object : ContentObject)
    (interest : Interest) (pending : Pending) : Prop where
  named : object.name = stream.segment number
  follows : interest.Follows stream reference
  beside : flow.Beside object interest pending
  within : number.toNat ≤ flow.reach stream reference

/-- A segment that brings `level` within reach goes out while the pair is held
back, and ever since the pair is kept and the mark of the stream remembered. -/
def Overtaken (moments : List (Moment τ)) (stream : Name) (reference : UInt64) (level : Nat)
    (object : ContentObject) (interest : Interest) (pending : Pending) : Prop :=
  ∃ earlier moment later, moments = earlier ++ moment :: later ∧
    moment.before.Beside object interest pending ∧ moment.before.reach stream reference < level ∧
    (∃ passed, moment.event.Advances stream passed ∧ level ≤ passed.toNat + 1) ∧
    ∀ since ∈ moment :: later,
      since.after.Beside object interest pending ∧ (since.after.lowWater? stream).isSome

theorem Overtaken.extend {moment : Moment τ}
    (overtaken : Overtaken moments stream reference level object interest pending)
    (beside : moment.after.Beside object interest pending) (marked : (moment.after.lowWater? stream).isSome) :
    Overtaken (moments ++ [moment]) stream reference level object interest pending := by
  obtain ⟨earlier, passing, later, rfl, together, short, advances, kept⟩ := overtaken
  refine ⟨earlier, passing, later ++ [moment], List.append_assoc _ _ _, together, short, advances, ?_⟩
  intro since found
  rcases List.mem_append.mp (List.cons_append ▸ found) with found | found
  · exact kept since found
  · exact List.mem_singleton.mp found ▸ ⟨beside, marked⟩

variable [Transport τ]

-- The step that brings a level within reach of a pair is a delivery that passes it.
theorem Step.advances_of_reach (step : before.Step event after) (short : before.reach stream reference < level)
    (within : level ≤ after.reach stream reference) :
    ∃ passed, event.Advances stream passed ∧ level ≤ passed.toNat + 1 := by
  have least := before.lt_reach stream reference
  rcases step.lowWater?_cases stream with same | forgotten | ⟨passed, advances⟩
  · unfold reach at short within
    rw [same] at within
    omega
  · rw [reach_eq_of_none forgotten] at within
    omega
  · refine ⟨passed, advances, ?_⟩
    rw [reach_eq (step.lowWater?_of_advances advances)] at within
    cases marked : before.lowWater? stream with
    | none =>
      rw [toNat_advance_of_none marked] at within
      omega
    | some delivered =>
      rw [toNat_advance marked] at within
      rw [reach_eq marked] at short
      omega

theorem Step.lowWater?_mono (step : before.Step event after) (marked : before.lowWater? stream = some delivered)
    (remembered : (after.lowWater? stream).isSome) :
    ∃ moved, after.lowWater? stream = some moved ∧ delivered.toNat ≤ moved.toNat := by
  rcases step.lowWater?_cases stream with same | forgotten | ⟨passed, advances⟩
  · exact ⟨delivered, same.trans marked, Nat.le_refl _⟩
  · simp [forgotten] at remembered
  · refine ⟨_, step.lowWater?_of_advances advances, ?_⟩
    rw [toNat_advance marked]
    exact Nat.le_max_right _ _

theorem Trail.overtaken (trail : Trail start moments final) (settled : start.Settled)
    (apart : ¬ start.Beside object interest pending) (named : object.name = stream.segment number)
    (follows : interest.Follows stream reference) (least : number.toNat ≤ level)
    (beside : final.Beside object interest pending) (within : level ≤ final.reach stream reference) :
    Overtaken moments stream reference level object interest pending := by
  -- The invariant: whenever the level is within reach of the pair, some moment so far made it so.
  have invariant := trail.carries (List.nil_append moments).symm
    (fun past flow => flow.Settled ∧ (flow.Beside object interest pending →
      level ≤ flow.reach stream reference → Overtaken past stream reference level object interest pending))
    ⟨settled, fun together => absurd together apart⟩ ?_
  · exact invariant.2 beside within
  · rintro past later moment - step ⟨settled, origin⟩
    refine ⟨step.settled settled, fun together reached => ?_⟩
    obtain ⟨-, otherReference, otherNumber, ahead⟩ := (step.settled settled).ahead together
    have refers := ahead.refers
    rw [follows.refers, Option.some.injEq, Component.segment_inj] at refers
    have ends := ahead.ends
    rw [named, Name.last?_segment, Option.some.injEq, Component.segment_inj] at ends
    subst refers ends
    have gap := ahead.gap
    have marked : (moment.after.lowWater? stream).isSome := by
      cases found : moment.after.lowWater? stream with
      | some delivered => rfl
      | none =>
        rw [reach_eq_of_none found] at reached
        omega
    rcases step.beside_cases settled.wellFormed together with earlier | late
    · by_cases short : moment.before.reach stream reference < level
      · refine ⟨past, moment, [], rfl, earlier, short, step.advances_of_reach short reached, ?_⟩
        intro since found
        exact List.mem_singleton.mp found ▸ ⟨together, marked⟩
      · exact (origin earlier (Nat.not_lt.mp short)).extend together marked
    · have beyond := reach_lt_of_inOrder named follows late
      omega

theorem Trail.within_of_overtaken (trail : Trail start moments final)
    (overtaken : Overtaken moments stream reference level object interest pending) :
    final.Beside object interest pending ∧ level ≤ final.reach stream reference := by
  obtain ⟨earlier, moment, later, rfl, -, -, ⟨passed, advances, passes⟩, kept⟩ := overtaken
  obtain ⟨-, step, rest⟩ := trail.at_moment
  have moved := step.lowWater?_of_advances advances
  have least := moment.before.le_advance stream passed
  obtain ⟨beside, delivered, marked, reached⟩ := rest.carries (List.nil_append later).symm
    (fun _ flow => flow.Beside object interest pending ∧
      ∃ delivered, flow.lowWater? stream = some delivered ∧ level ≤ delivered.toNat + 1)
    ⟨(kept moment List.mem_cons_self).1, _, moved, by omega⟩ (by
      rintro past since next rfl step ⟨-, delivered, marked, reached⟩
      have found : next ∈ moment :: (past ++ next :: since) := by simp
      obtain ⟨beside, remembered⟩ := kept next found
      obtain ⟨further, markedFurther, above⟩ := step.lowWater?_mono marked remembered
      exact ⟨beside, further, markedFurther, by omega⟩)
  refine ⟨beside, ?_⟩
  rw [reach_eq marked]
  omega

/-- No pair is overdue after a run exactly if none has been overtaken in it. -/
theorem none_overdue_iff_none_overtaken (config : FlowConfig) (transport : τ) (requests : List Request) :
    (∀ stream reference number object interest pending,
      ¬ ((Flow.new config transport).run requests).2.Overdue stream reference number object interest pending) ↔
    ∀ stream reference number object interest pending, object.name = stream.segment number →
      interest.Follows stream reference →
      ¬ Overtaken ((Flow.new config transport).history requests) stream reference number.toNat
        object interest pending := by
  have trail := (Flow.new config transport).trail_history requests
  constructor
  · intro noneOverdue stream reference number object interest pending named follows overtaken
    obtain ⟨beside, within⟩ := trail.within_of_overtaken overtaken
    exact noneOverdue stream reference number object interest pending ⟨named, follows, beside, within⟩
  · intro noneOvertaken stream reference number object interest pending ⟨named, follows, beside, within⟩
    exact noneOvertaken stream reference number object interest pending named follows
      (trail.overtaken (settled_new config transport) (not_beside_new config transport) named follows
        (Nat.le_refl _) beside within)

def Sample.filled : List Request := Sample.gap ++ [.put (Sample.segment 1) ⟨1000⟩]

open Flow.Sample in
/-- Once segment 1 has gone to the first reader, segment 2 stays beside the
second one although nothing holds it back. -/
theorem segment_overdue_after_gap_filled :
    ((Flow.new .standard ([] : List ContentObject)).run filled).2.Overdue Sample.stream 0 2 (segment 2)
      (follower 0) ⟨1, some ⟨5000⟩⟩ where
  named := rfl
  follows := ⟨rfl, rfl, rfl⟩
  beside := ⟨by decide +kernel, by decide +kernel, by decide +kernel⟩
  within := by decide +kernel

end Flow

end NamedContent
