import NamedContent.Proofs.Flow.Overtaking

/-! Which segment a next interest gets.

It always lies after the reference. The buffer answers with the smallest that
there is. A put looks at nothing but the object that is put, and so skips a
segment that waits for the same interest once that pair has been overtaken. -/

set_option autoImplicit false

namespace NamedContent.Flow

variable {τ : Type} {flow before after : Flow τ} {event : Event}
variable {object : ContentObject} {interest : Interest} {stream : Name} {reference number : UInt64}

/-- A buffered segment that matches, between the reference and another segment. -/
structure Skipped (flow : Flow τ) (interest : Interest) (stream : Name) (reference number : UInt64)
    (skipped : UInt64) (object : ContentObject) : Prop where
  stored : object ∈ flow.buffer.values
  named : object.name = stream.segment skipped
  above : reference < skipped
  below : skipped < number
  matched : interest.matchesObject object = true

theorem le_reach_of_inOrder (strict : flow.config.strictSegmentOrder = true)
    (named : object.name = stream.segment number) (follows : interest.Follows stream reference)
    (ordered : flow.inOrder interest object.name = true) : number.toNat ≤ flow.reach stream reference := by
  by_contra beyond
  have late : flow.inOrder interest object.name = false := by
    refine inOrder_eq_false_iff.mpr ⟨strict, follows.next, ?_, reference, number, follows.refers, ?_, ?_⟩
    · rw [named, Name.length_segment, follows.named]
    · rw [named, Name.last?_segment]
    · rw [follows.named]
      exact Nat.not_le.mp beyond
  rw [late] at ordered
  exact absurd ordered (by simp)

theorem reference_lt (matched : interest.matchesObject object = true)
    (named : object.name = stream.segment number) (follows : interest.Follows stream reference) :
    reference < number := by
  rw [← follows.named] at named
  exact Component.segment_lt_segment.mp (Interest.reference_lt_of_matchesObject matched named follows.refers)

theorem ne_fullName (named : object.name = stream.segment number) (follows : interest.Follows stream reference) :
    interest.name ≠ object.fullName := by
  intro spelled
  have longer := congrArg Name.length spelled
  rw [follows.named, ContentObject.fullName, Name.length_child, named, Name.length_segment] at longer
  omega

-- Where the object of a segment is in order, so is that of a smaller one.
theorem inOrder_of_lt {other : ContentObject} {smaller : UInt64} (named : object.name = stream.segment number)
    (otherNamed : other.name = stream.segment smaller) (follows : interest.Follows stream reference)
    (less : smaller < number) (ordered : flow.inOrder interest object.name = true) :
    flow.inOrder interest other.name = true := by
  by_contra disordered
  have late := Bool.eq_false_iff.mpr disordered
  obtain ⟨strict, -⟩ := inOrder_eq_false_iff.mp late
  have within := le_reach_of_inOrder strict named follows ordered
  have beyond := reach_lt_of_inOrder otherNamed follows late
  have below := UInt64.lt_iff_toNat_lt.mp less
  omega

theorem not_skipped_of_bestBuffered? (best : flow.bestBuffered? interest = some object)
    (named : object.name = stream.segment number) (follows : interest.Follows stream reference)
    {skipped : UInt64} {other : ContentObject} :
    ¬ flow.Skipped interest stream reference number skipped other := by
  rintro ⟨stored, otherNamed, -, below, matched⟩
  obtain ⟨-, -, spelled | ⟨ordered, first⟩⟩ := bestBuffered?_cases best
  · exact ne_fullName named follows spelled
  · have allowed : flow.mayHave interest other = true :=
      mayHave_iff.mpr ⟨matched, inOrder_of_lt named otherNamed follows below ordered⟩
    have within : interest.name.isPrefixOf other.name = true := by
      rw [follows.named, otherNamed]
      exact Name.isPrefixOf_segment _ _
    have least := first (by simp [follows.next]) other stored within allowed
    rw [named, otherNamed] at least
    exact Std.not_lt.mpr least (Name.segment_lt_segment below)

variable [Transport τ]

/-- A delivery to a next interest on a stream is of a segment after the
reference. It skips no buffered one that matches, unless a put delivers it after
the skipped one has been overtaken as it waited for that interest. -/
theorem delivery_skips_none_iff (config : FlowConfig) (transport : τ) (requests : List Request)
    {earlier later : List (Moment τ)} {moment : Moment τ}
    (divided : (Flow.new config transport).history requests = earlier ++ moment :: later)
    (consumed : moment.event.consumed? = some (interest, object))
    (named : object.name = stream.segment number) (follows : interest.Follows stream reference) :
    reference < number ∧
      ((∀ skipped other, ¬ moment.before.Skipped interest stream reference number skipped other) ↔
        ∀ pending skipped other, moment.event = .delivered object ⟨interest, pending⟩ →
          other.name = stream.segment skipped → reference < skipped → skipped < number →
          ¬ Overtaken earlier stream reference number.toNat other interest pending) := by
  have trail := (Flow.new config transport).trail_history requests
  rw [divided] at trail
  obtain ⟨reached, step, -⟩ := trail.at_moment
  have settled := reached.settled (settled_new config transport)
  have taken := step.consumed_cases settled.wellFormed consumed
  refine ⟨?_, ?_, ?_⟩
  · rcases taken with ⟨pending, -, -, allowed⟩ | ⟨-, best⟩
    · exact reference_lt (mayHave_iff.mp allowed).1 named follows
    · exact reference_lt (bestBuffered?_cases best).2.1 named follows
  · rintro skipsNone pending skipped other - otherNamed above below overtaken
    obtain ⟨beside, -⟩ := reached.within_of_overtaken overtaken
    exact skipsNone skipped other ⟨beside.stored, otherNamed, above, below, beside.matched⟩
  · intro noneOvertaken skipped other skips
    rcases taken with ⟨pending, delivered, waits, allowed⟩ | ⟨-, best⟩
    · have beside : moment.before.Beside other interest pending := ⟨skips.stored, waits, skips.matched⟩
      have within := le_reach_of_inOrder (settled.ahead beside).1 named follows (mayHave_iff.mp allowed).2
      have least := Nat.le_of_lt (UInt64.lt_iff_toNat_lt.mp skips.below)
      exact noneOvertaken pending skipped other delivered skips.named skips.above skips.below
        (reached.overtaken (settled_new config transport) (not_beside_new config transport) skips.named follows
          least beside within)
    · exact not_skipped_of_bestBuffered? best named follows skips

namespace Sample

/-- Segment 3 waits beside a reader of segment 1, segment 5 goes to a reader of
its own, and then segment 4 is put. -/
def jump : List Request :=
  [.addNamespace Sample.stream, .put (segment 3) ⟨1000⟩, .ask [follower 0, exactly 5] ⟨1000⟩,
    .put (segment 5) ⟨1000⟩, .put (segment 4) ⟨1000⟩]

def jumping : List (Moment (List ContentObject)) := (Flow.new .standard []).history jump

def landing : Moment (List ContentObject) := jumping.get ⟨9, by decide +kernel⟩

end Sample

open Flow.Sample in
/-- Segment 4 goes to a reader of segment 1 while segment 3 is buffered. -/
theorem delivery_skips_after_jump :
    ∃ moment ∈ jumping, moment.event = .delivered (segment 4) ⟨follower 0, ⟨0, some ⟨5000⟩⟩⟩ ∧
      (follower 0).Follows Sample.stream 0 ∧
      moment.before.Skipped (follower 0) Sample.stream 0 4 3 (segment 3) := by
  refine ⟨landing, List.get_mem _ _, by decide +kernel, ⟨rfl, rfl, rfl⟩, ?_⟩
  constructor
  case stored => decide +kernel
  case named => rfl
  case above => decide
  case below => decide
  case matched => decide +kernel

open Flow.Sample in
theorem jump_skips_as_overtaken :
    ∃ earlier moment later, jumping = earlier ++ moment :: later ∧
      moment.event.consumed? = some (follower 0, segment 4) ∧
      (segment 4).name = Sample.stream.segment 4 ∧ (follower 0).Follows Sample.stream 0 ∧ (0 : UInt64) < 4 ∧
      ((∀ skipped other, ¬ moment.before.Skipped (follower 0) Sample.stream 0 4 skipped other) ↔
        ∀ pending skipped other, moment.event = .delivered (segment 4) ⟨follower 0, pending⟩ →
          other.name = Sample.stream.segment skipped → 0 < skipped → skipped < 4 →
          ¬ Overtaken earlier Sample.stream 0 (4 : UInt64).toNat other (follower 0) pending) := by
  have divided : jumping = jumping.take 9 ++ landing :: jumping.drop 10 := by simp [landing]
  have consumed : landing.event.consumed? = some (follower 0, segment 4) := by decide +kernel
  have follows : (follower 0).Follows Sample.stream 0 := ⟨rfl, rfl, rfl⟩
  have skips := delivery_skips_none_iff .standard [] jump divided consumed rfl follows
  exact ⟨_, _, _, divided, consumed, rfl, follows, skips⟩

end NamedContent.Flow
