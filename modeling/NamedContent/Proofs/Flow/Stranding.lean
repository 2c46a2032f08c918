import NamedContent.Proofs.Flow.Progress
import NamedContent.Proofs.Flow.Separation
import NamedContent.Proofs.Flow.Waiting

/-! Readers that wait for a stream whose mark is forgotten.

A mark is forgotten when its stream has not moved for the lifetime of an
interest. That lifetime is counted from the last move, and the lifetime of an
interest from the time it was kept. So whoever has come to the stream at a later
time than it last moved may wait on without the mark. -/

set_option autoImplicit false

namespace NamedContent

theorem Timestamp.lt_iff {first second : Timestamp} : first < second ↔ first.ms.toNat < second.ms.toNat :=
  UInt64.lt_iff_toNat_lt

theorem Pending.lt_of_isLive {pending : Pending} {touched joined now : Timestamp} {lifetime : Duration}
    (deadline : pending.deadline = some (joined.add lifetime.millis)) (live : pending.isLive now = true)
    (long : touched.ms.toNat + lifetime.millis.toNat ≤ now.ms.toNat) : touched < joined := by
  have early : now < joined.add lifetime.millis := by simpa [isLive, deadline] using live
  have bound : (joined.add lifetime.millis).ms.toNat ≤ joined.ms.toNat + lifetime.millis.toNat := by
    rw [Timestamp.add, Word.toNat_add]
    exact Nat.min_le_left _ _
  rw [Timestamp.lt_iff] at *
  omega

namespace Flow

variable {τ : Type} {stream : Name} {past later : List (Moment τ)} {moment : Moment τ} {now : Timestamp}

def sinceMoved (stream : Name) (moments : List (Moment τ)) : List (Moment τ) :=
  moments.rtakeWhile fun moment => (moment.event.advance? stream).isNone

theorem untilMoved_append_sinceMoved (stream : Name) (moments : List (Moment τ)) :
    untilMoved stream moments ++ sinceMoved stream moments = moments := List.rdropWhile_append_rtakeWhile

/-- The mark of a stream is forgotten with age while an interest in the stream waits on. -/
structure Strands (stream : Name) (moment : Moment τ) (now : Timestamp) : Prop where
  expires : moment.event = .expired now
  forgets : moment.forgets stream = true
  waiting : ∃ interest pending, interest.name = stream ∧
    Entry.interest interest pending ∈ moment.before.pending.toList ∧ pending.isLive now = true

/-- An interest in a stream was kept after every time that had been given when
the stream last moved, and still waits at a given time. -/
structure LateReader (lifetime : Option Duration) (stream : Name) (past : List (Moment τ)) (now : Timestamp)
    (interest : Interest) (joined : Timestamp) (pending : Pending) : Prop where
  named : interest.name = stream
  waits : Waits lifetime past interest joined pending
  live : pending.isLive now = true
  late : ∀ given ∈ times (untilMoved stream past), given < joined

-- An interest kept at a later time than the stream last moved is kept after it moved.
theorem LateReader.registered_since {lifetime : Option Duration} {interest : Interest} {joined : Timestamp}
    {pending : Pending} (reader : LateReader lifetime stream past now interest joined pending) :
    ∃ kept ∈ sinceMoved stream past, kept.event = .registered interest := by
  obtain @⟨earlier, since, kept, divided, registered, given, -, -, -⟩ := reader.waits
  refine ⟨kept, ?_, registered⟩
  have whole : untilMoved stream past ++ sinceMoved stream past = earlier ++ kept :: since :=
    (untilMoved_append_sinceMoved stream past).trans divided
  rcases List.append_eq_append_iff.mp whole with ⟨between, rfl, quiet⟩ | ⟨between, moved, -⟩
  · rw [quiet]
    exact List.mem_append_right _ List.mem_cons_self
  · -- Else its time would be among those given before the stream moved.
    obtain ⟨other, found, expired⟩ := given_of_lastGiven? given
    have before := reader.late joined ⟨other, moved ▸ List.mem_append_left _ found, expired⟩
    exact absurd before (UInt64.lt_irrefl _)

variable [Transport τ]

theorem strands_iff {config : FlowConfig} {transport : τ} {requests : List Request}
    (divided : (Flow.new config transport).history requests = past ++ moment :: later) :
    Strands stream moment now ↔
      moment.event = .expired now ∧ (moment.before.lowWater? stream).isSome = true ∧
        Lapse config stream past moment ∧
        ∃ interest joined pending, LateReader config.interestLifetime stream past now interest joined pending := by
  have trail := (Flow.new config transport).trail_history requests
  rw [divided] at trail
  obtain ⟨reached, step, -⟩ := trail.at_moment
  have begins : past <+: (Flow.new config transport).history requests := ⟨_, divided.symm⟩
  have limit : moment.before.config.interestLifetime = config.interestLifetime := reached.lifetime
  have lapses := (reached.tracked begins stream).forgets_iff_lapse limit step
  constructor
  · rintro ⟨expires, forgets, interest, pending, named, waits, live⟩
    obtain ⟨present, lapse⟩ := lapses.mp forgets
    obtain ⟨joined, waited⟩ := (reached.mem_pending_iff begins).mp waits
    refine ⟨expires, present, lapse, interest, joined, pending, named, waited, live, ?_⟩
    cases lapse with
    | @idle time touched lifetime expired limited moved long nothing =>
      obtain rfl : now = time := Event.expired.inj (expires.symm.trans expired)
      obtain ⟨-, -, -, -, deadline, -⟩ := waited
      rw [limited] at deadline
      intro given found
      have after := Pending.lt_of_isLive deadline live long
      exact UInt64.lt_of_le_of_lt (moved.2 found) after
    | uncovered removes => exact absurd (expires.symm.trans removes) (by simp)
    | closed closes => exact absurd (expires.symm.trans closes) (by simp)
  · rintro ⟨expires, present, lapse, interest, joined, pending, reader⟩
    refine ⟨expires, lapses.mpr ⟨present, lapse⟩, interest, pending, reader.named, ?_, reader.live⟩
    exact (reached.mem_pending_iff begins).mpr ⟨joined, reader.waits⟩

/-- A stream whose mark is forgotten with age leaves a reader behind exactly if
one has come to the stream after the time it last moved and still waits. So it
does only if its name was asked for since it last moved. -/
theorem forgetting_strands_iff_late_reader (config : FlowConfig) (transport : τ) (requests : List Request)
    (stream : Name) (past later : List (Moment τ)) (moment : Moment τ) (now : Timestamp)
    (divided : (Flow.new config transport).history requests = past ++ moment :: later) :
    (Strands stream moment now ↔
      moment.event = .expired now ∧ (moment.before.lowWater? stream).isSome = true ∧
        Lapse config stream past moment ∧
        ∃ interest joined pending, LateReader config.interestLifetime stream past now interest joined pending) ∧
    (Strands stream moment now →
      ∃ kept ∈ sinceMoved stream past, ∃ interest, kept.event = .registered interest ∧ interest.name = stream) := by
  refine ⟨strands_iff divided, fun strands => ?_⟩
  obtain ⟨-, -, -, interest, joined, pending, reader⟩ := (strands_iff divided).mp strands
  obtain ⟨kept, found, registered⟩ := reader.registered_since
  exact ⟨kept, found, interest, registered, reader.named⟩

namespace Sample

/-- Segment 1 goes out, and later someone asks for what follows segment 0. The
mark is forgotten before segment 2 comes. -/
def estranged : List Request :=
  [.addNamespace Sample.stream, .ask [.ofName Sample.stream] ⟨1000⟩, .put (segment 1) ⟨1000⟩,
    .ask [follower 0] ⟨3000⟩, .ask [] ⟨5000⟩, .put (segment 2) ⟨5000⟩]

def neglect : Moment (List ContentObject) := (fresh.history estranged).get ⟨7, by decide +kernel⟩

theorem history_estranged :
    fresh.history estranged = (fresh.history estranged).take 7 ++ neglect :: (fresh.history estranged).drop 8 := by
  simp [neglect]

theorem strands_neglect : Strands Sample.stream neglect ⟨5000⟩ where
  expires := by decide +kernel
  forgets := by decide +kernel
  waiting := ⟨follower 0, ⟨1, some ⟨7000⟩⟩, by decide +kernel, by decide +kernel, by decide +kernel⟩

end Sample

open Flow.Sample in
/-- At times that do not go back, a reader is left without the mark, and segment 2
that follows the last one delivered is kept from it. -/
theorem follower_is_stranded :
    (estranged.filterMap Request.time?).Pairwise (· ≤ ·) ∧ neglect ∈ fresh.history estranged ∧
      Strands Sample.stream neglect ⟨5000⟩ ∧ segment 2 ∈ (fresh.run estranged).2.buffer.values ∧
      Entry.interest (follower 0) ⟨1, some ⟨7000⟩⟩ ∈ (fresh.run estranged).2.pending.toList := by
  refine ⟨by decide +kernel, List.get_mem _ _, strands_neglect, by decide +kernel, by decide +kernel⟩

open Flow.Sample in
theorem neglect_has_late_reader :
    fresh.history estranged = (fresh.history estranged).take 7 ++ neglect :: (fresh.history estranged).drop 8 ∧
      Strands Sample.stream neglect ⟨5000⟩ ∧
      (∃ interest joined pending, LateReader FlowConfig.standard.interestLifetime Sample.stream
        ((fresh.history estranged).take 7) ⟨5000⟩ interest joined pending) ∧
      ∃ kept ∈ sinceMoved Sample.stream ((fresh.history estranged).take 7), ∃ interest,
        kept.event = .registered interest ∧ interest.name = Sample.stream := by
  obtain ⟨exact, since⟩ := forgetting_strands_iff_late_reader .standard ([] : List ContentObject) estranged
    Sample.stream _ _ neglect ⟨5000⟩ history_estranged
  obtain ⟨-, -, -, reader⟩ := exact.mp strands_neglect
  exact ⟨history_estranged, strands_neglect, reader, since strands_neglect⟩

end Flow

end NamedContent
