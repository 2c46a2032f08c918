import NamedContent.Proofs.Flow.Dismissal
import NamedContent.Proofs.Flow.Progress
import NamedContent.Proofs.Flow.Retrieval

/-! Interests in one batch or in two.

Between two batches a flow forgets what has come of age, and the first batch may
have given it more to forget: an interest that lives for no time at all, or the
mark of a stream whose last buffered object was taken. Whatever looks for these
later forgets them too. So it does not matter how interests are batched, except
to what is still there to be forgotten. -/

set_option autoImplicit false

namespace NamedContent

attribute [ext] Flow

namespace Flow

variable {τ : Type} {flow : Flow τ} {time now : Timestamp} {object : ContentObject}

/-! One interest leaves the same behind whether or not the flow has forgotten
before what it has to forget then. -/

def remembers (flow : Flow τ) (now : Timestamp) (mark : Mark) : Bool :=
  match flow.config.interestLifetime with
  | some lifetime => mark.isFresh now lifetime.millis || flow.buffer.anyUnder mark.stream
  | none => true

theorem marks_expire (flow : Flow τ) (now : Timestamp) :
    (flow.expire now).marks = flow.marks.filter (flow.remembers now) := by
  unfold expire remembers
  cases flow.config.interestLifetime with
  | none => exact NameIndex.ext (by simp)
  | some lifetime => rfl

def release (flow : Flow τ) (object : ContentObject) (transport : τ) : Flow τ :=
  { flow.forward object transport with buffer := flow.buffer.erase object.name }

-- What keeps a mark after an object was taken did so before.
theorem remembers_of_release {transport : τ} {mark : Mark}
    (kept : (flow.release object transport).remembers now mark = true) : flow.remembers now mark = true := by
  have under : (flow.buffer.erase object.name).anyUnder mark.stream = true →
      flow.buffer.anyUnder mark.stream = true := by
    rw [NameIndex.anyUnder_iff, NameIndex.anyUnder_iff]
    rintro ⟨held, member, begins⟩
    exact ⟨held, (NameIndex.mem_erase_iff.mp member).1, begins⟩
  unfold remembers at *
  simp only [release, config_forward] at kept
  split at kept
  · rw [Bool.or_eq_true] at kept ⊢
    exact kept.imp_right under
  · rfl

theorem advance_expire (recent : time ≤ flow.now) (stored : object ∈ flow.buffer.values) {stream : Name}
    {number : UInt64} (named : object.name = stream.segment number) :
    (flow.expire time).advance stream number = flow.advance stream number := by
  have begins : stream.isPrefixOf object.name = true := named ▸ Name.isPrefixOf_segment stream number
  have still : (flow.expire time).now = flow.now := Timestamp.latest_eq_left recent
  rw [advance, advance, flow.lowWater?_expire stored begins time, still]

theorem marks_release (flow : Flow τ) (object : ContentObject) (transport : τ) :
    (flow.release object transport).marks
      = match object.name.splitSegment? with
        | some (stream, number) => flow.marks.insert (flow.advance stream number)
        | none => flow.marks := by
  unfold release forward
  cases object.name.splitSegment? <;> rfl

theorem release_expire (canonical : flow.pending.Canonical) (recent : time ≤ flow.now)
    (stored : object ∈ flow.buffer.values) (transport : τ) :
    ((flow.expire time).release object transport).expire time = (flow.release object transport).expire time := by
  have again := expire_expire canonical (Timestamp.le_refl time)
  have waiting := congrArg Flow.pending again
  have times := congrArg Flow.now again
  have keeps : ((flow.expire time).release object transport).remembers time
      = (flow.release object transport).remembers time := by
    unfold remembers
    simp only [release, config_forward]
    rfl
  have marks : (((flow.expire time).release object transport).expire time).marks
      = ((flow.release object transport).expire time).marks := by
    rw [marks_expire, marks_expire, keeps, marks_release, marks_release, marks_expire]
    cases split : object.name.splitSegment? with
    | none => exact NameIndex.filter_filter _ fun _ => remembers_of_release
    | some parts =>
      simp only [advance_expire recent stored (Name.splitSegment?_eq_some_iff.mp split)]
      exact NameIndex.filter_insert_filter _ (fun _ => remembers_of_release) _
  unfold release at *
  rw [forward_eq, forward_eq flow] at *
  exact Flow.ext rfl rfl rfl rfl waiting marks times rfl rfl rfl

theorem register_expire (canonical : flow.pending.Canonical) (interest : Interest) :
    ((flow.expire time).register interest now).expire time = (flow.register interest now).expire time := by
  have again := expire_expire canonical (Timestamp.le_refl time)
  have marks := congrArg Flow.marks again
  have times := congrArg Flow.now again
  exact Flow.ext rfl rfl rfl rfl (canonical.filter_add_filter (fun _ live => live) _) marks times rfl rfl rfl

variable [Transport τ]

theorem askOne_expire (canonical : flow.pending.Canonical) (recent : time ≤ flow.now) (interest : Interest)
    (now : Timestamp) :
    ((flow.expire time).askOne interest now).1 = (flow.askOne interest now).1 ∧
      ((flow.expire time).askOne interest now).2.expire time = (flow.askOne interest now).2.expire time := by
  have again := expire_expire canonical (Timestamp.le_refl time)
  have heeds : (flow.expire time).ignores interest = flow.ignores interest := rfl
  have finds := flow.bestBuffered?_expire interest time
  cases ignored : flow.ignores interest with
  | true => simp [askOne, heeds, ignored, again]
  | false =>
    cases best : flow.bestBuffered? interest with
    | none => simp [askOne, heeds, ignored, finds, best, register_expire canonical]
    | some object =>
      rw [askOne_eq flow now ignored best, askOne_eq _ now (heeds.trans ignored) (finds.trans best)]
      rcases flow.deliver_cases object with ⟨fault, transport, handed, result⟩ | ⟨transport, handed, result⟩
      · have refused : (flow.expire time).deliver object
            = (.error (.transport fault), { flow.expire time with transport := transport }) := deliver_error handed
        simp only [result, refused]
        exact ⟨trivial, congrArg (fun flow : Flow τ => { flow with transport := transport }) again⟩
      · have taken : (flow.expire time).deliver object = (.ok (), (flow.expire time).forward object transport) :=
          deliver_ok handed
        simp only [result, taken]
        exact ⟨trivial, release_expire canonical recent (bestBuffered?_cases best).1 transport⟩

theorem askEach_expire (canonical : flow.pending.Canonical) (recent : time ≤ flow.now) (now : Timestamp)
    (answered : Nat) (interests : List Interest) :
    ((flow.expire time).askEach now answered interests).1 = (flow.askEach now answered interests).1 ∧
      events ((flow.expire time).askMoments now interests) = events (flow.askMoments now interests) ∧
      ((flow.expire time).askEach now answered interests).2.expire time
        = (flow.askEach now answered interests).2.expire time := by
  induction interests generalizing flow answered with
  | nil => exact ⟨rfl, rfl, expire_expire canonical (Timestamp.le_refl time)⟩
  | cons interest rest ih =>
    have plain := flow.step_askOne interest now
    have forgetful := (flow.expire time).step_askOne interest now
    have heeds : (flow.expire time).ignores interest = flow.ignores interest := rfl
    have finds := flow.bestBuffered?_expire interest time
    have here := askOne_expire canonical recent interest now
    rcases asked : flow.askOne interest now with ⟨reply, after⟩
    rcases aged : (flow.expire time).askOne interest now with ⟨answer, other⟩
    rw [asked] at plain here
    rw [aged] at forgetful here
    obtain ⟨rfl, left⟩ := here
    simp only [askEach, askMoments, asked, aged, heeds, finds, events, List.map_cons]
    cases answer with
    | error failure => exact ⟨rfl, rfl, left⟩
    | ok hit =>
      -- Both flows lead to the one that has forgotten once more.
      have nowRecent : time ≤ after.now := Timestamp.le_trans recent plain.now_le
      have otherRecent : time ≤ other.now :=
        Timestamp.le_trans (Timestamp.right_le_latest _ _) forgetful.now_le
      obtain ⟨replies, happens, ends⟩ := ih (plain.canonical canonical) nowRecent (answered + if hit then 1 else 0)
      obtain ⟨otherReplies, otherHappens, otherEnds⟩ :=
        ih (forgetful.canonical (canonical.retain _ _)) otherRecent (answered + if hit then 1 else 0)
      rw [left] at otherReplies otherHappens otherEnds
      exact ⟨otherReplies.symm.trans replies, congrArg _ (otherHappens.symm.trans happens),
        otherEnds.symm.trans ends⟩

theorem askEach_add (flow : Flow τ) (now : Timestamp) (before answered : Nat) (interests : List Interest) :
    flow.askEach now (before + answered) interests
      = ((flow.askEach now answered interests).1.map (before + ·), (flow.askEach now answered interests).2) := by
  induction interests generalizing flow answered with
  | nil => rfl
  | cons interest rest ih =>
    rcases reply : flow.askOne interest now with ⟨failure | hit, after⟩
    · simp [askEach, reply, Except.map]
    · simp only [askEach, reply, Nat.add_assoc, ih]

theorem askMoments_append {flow middle : Flow τ} {answered count : Nat} {first : List Interest}
    (asked : flow.askEach now answered first = (.ok count, middle)) (second : List Interest) :
    flow.askMoments now (first ++ second) = flow.askMoments now first ++ middle.askMoments now second := by
  induction first generalizing flow answered with
  | nil =>
    obtain rfl : flow = middle := (Prod.mk.inj asked).2
    rfl
  | cons interest rest ih =>
    rcases reply : flow.askOne interest now with ⟨failure | hit, after⟩
    · simp [askEach, reply] at asked
    · simp only [askEach, reply] at asked
      simp [askMoments, reply, ih asked]

-- Interests that go on where others ended might as well be a batch of their own,
-- given at the same time, as far as anything that comes later can tell.
theorem ask_of_askEach {flow whole : Flow τ} (canonical : flow.pending.Canonical) (recent : time ≤ flow.now)
    {early count : Nat} {interests : List Interest}
    (asked : flow.askEach time early interests = (.ok count, whole)) :
    ∃ late parted, flow.ask interests time = (.ok late, parted) ∧ early + late = count ∧
      outgoing ((flow.expire time).askMoments time interests) = outgoing (flow.askMoments time interests) ∧
      parted.expire time = whole.expire time := by
  obtain ⟨replies, happens, left⟩ := askEach_expire canonical recent time 0 interests
  have counted := flow.askEach_add time early 0 interests
  rw [Nat.add_zero, asked] at counted
  rcases alone : flow.askEach time 0 interests with ⟨failure | late, rest⟩
  · simp [alone, Except.map] at counted
  rw [alone] at counted replies left
  obtain ⟨counts, rfl⟩ := Prod.mk.inj counted
  refine ⟨late, (flow.ask interests time).2, Prod.ext replies rfl, (Except.ok.inj counts).symm, ?_, left⟩
  rw [outgoing_eq, happens, outgoing_eq]

/-- It makes no difference whether interests come in one batch or, at the same
time, in two. As many are answered and the same objects go to the transport in
the same order. The same ones are buffered, and what follows is the same. -/
theorem batches_may_be_split (config : FlowConfig) (transport : τ) (requests : List Request)
    {first second : List Interest} {time : Timestamp} {count : Nat} {whole : Flow τ}
    (asked : ((Flow.new config transport).run requests).2.ask (first ++ second) time = (.ok count, whole)) :
    let flow := ((Flow.new config transport).run requests).2
    ∃ early late middle parted, flow.ask first time = (.ok early, middle) ∧
      middle.ask second time = (.ok late, parted) ∧ early + late = count ∧
      outgoing (flow.moments (.ask first time)) ++ outgoing (middle.moments (.ask second time))
        = outgoing (flow.moments (.ask (first ++ second) time)) ∧
      parted.buffer = whole.buffer ∧ parted.transport = whole.transport ∧
      parted.expire time = whole.expire time ∧
      ∀ later : List Request, (∀ now ∈ later.filterMap Request.time?, time ≤ now) →
        (parted.run later).1 = (whole.run later).1 ∧
        outgoing (parted.history later) = outgoing (whole.history later) ∧
        (parted.run later).2.buffer = (whole.run later).2.buffer ∧
        (parted.run later).2.transport = (whole.run later).2.transport := by
  intro flow
  have canonical : flow.pending.Canonical := ((Flow.new config transport).trail_history requests).canonical .empty
  rw [ask, askEach_append] at asked
  rcases before : (flow.expire time).askEach time 0 first with ⟨failure | early, middle⟩
  · simp [flow, before] at asked
  replace asked : middle.askEach time early second = (.ok count, whole) := by simpa [flow, before] using asked
  -- The second batch begins by forgetting once more.
  have trail : Trail (flow.expire time) ((flow.expire time).askMoments time first) middle := by
    simpa [before] using (flow.expire time).trail_askMoments time 0 first
  have middleCanonical : middle.pending.Canonical := trail.canonical (canonical.retain _ _)
  have recent : time ≤ middle.now :=
    trail.keeps (time ≤ ·.now) (Timestamp.right_le_latest _ _) fun step held => Timestamp.le_trans held step.now_le
  obtain ⟨late, parted, apart, counts, sent, same⟩ := ask_of_askEach middleCanonical recent asked
  have partedCanonical := canonical_handle middleCanonical (.ask second time)
  rw [handle, apart] at partedCanonical
  have wholeCanonical := (middle.trail_askMoments time early second).canonical middleCanonical
  rw [asked] at wholeCanonical
  have buffer := congrArg Flow.buffer same
  have carrier := congrArg Flow.transport same
  refine ⟨early, late, middle, parted, before, apart, counts, ?_, buffer, carrier, same,
    fun later order => run_eq_of_expire_eq partedCanonical wholeCanonical same order⟩
  simp [moments, Event.accepted?, askMoments_append before, sent]

namespace Sample

def hasty : FlowConfig := { FlowConfig.standard with interestLifetime := some .zero }

def stocked : List Request :=
  [.addNamespace Sample.stream, .addNamespace aside, .put (segment 1) ⟨1000⟩, .put asideItem ⟨1000⟩]

def opening : List Interest := [follower 3, exactly 1]

def resumption : List Request :=
  [.put (segment 4) ⟨1000⟩, .ask [follower 3, follower 0] ⟨1000⟩, .put (segment 1) ⟨1000⟩]

end Sample

open Flow.Sample in
/-- Between the two batches the flow forgets the first interest and the mark of
the stream, which are both still there after the whole batch. -/
theorem hasty_batch_may_be_split :
    let flow := ((Flow.new hasty ([] : List ContentObject)).run stocked).2
    let whole := (flow.ask (opening ++ [.ofName aside]) ⟨1000⟩).2
    ∃ middle parted, flow.ask opening ⟨1000⟩ = (.ok 1, middle) ∧
      middle.ask [.ofName aside] ⟨1000⟩ = (.ok 1, parted) ∧
      whole.pending.size = 1 ∧ parted.pending.size = 0 ∧
      whole.lowWater? Sample.stream = some 1 ∧ parted.lowWater? Sample.stream = none ∧
      whole.transport = [segment 1, asideItem] ∧ parted.transport = whole.transport ∧
      (parted.run resumption).1 = (whole.run resumption).1 := by
  intro flow whole
  have asked : flow.ask (opening ++ [.ofName aside]) ⟨1000⟩ = (.ok 2, whole) := by
    rw [← show (flow.ask (opening ++ [.ofName aside]) ⟨1000⟩).1 = .ok 2 by decide +kernel]
  have order : ∀ now ∈ resumption.filterMap Request.time?, (⟨1000⟩ : Timestamp) ≤ now := by decide +kernel
  obtain ⟨early, late, middle, parted, first, second, -, -, -, carrier, -, later⟩ :=
    batches_may_be_split hasty [] stocked asked
  obtain rfl : (flow.ask opening ⟨1000⟩).2 = middle := congrArg Prod.snd first
  obtain rfl : (Flow.ask _ [.ofName aside] ⟨1000⟩).2 = parted := congrArg Prod.snd second
  refine ⟨_, _, Prod.ext ?_ rfl, Prod.ext ?_ rfl, ?_, ?_, ?_, ?_, ?_, carrier, (later resumption order).1⟩ <;>
    decide +kernel

end Flow

end NamedContent
