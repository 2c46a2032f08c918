import NamedContent.Proofs.Flow.Consumption

/-! Which pending interest takes an object.

Of the interests that may have it the longest name wins, then the reference
furthest along, then the earliest registration. No two pending interests were
registered at the same moment, so the winner is the only one of its rank. -/

set_option autoImplicit false

namespace NamedContent

namespace Candidate

def ContinuesAfter (candidate : Candidate) (reference : Component) : Prop :=
  candidate.interest.selector = some .next ∧ candidate.interest.reference? = some reference

variable {first second third chosen : Candidate} {candidates : List Candidate} {reference : Component}

theorem eq_of_entry_eq (same : Entry.interest first.interest first.pending = .interest second.interest second.pending) :
    first = second := by
  obtain ⟨interest, pending⟩ := first
  obtain ⟨rfl, rfl⟩ := Entry.interest.inj same
  rfl

theorem position?_eq_some_iff : first.position? = some reference ↔ first.ContinuesAfter reference := by
  rw [position?, ContinuesAfter]
  split
  · rename_i next
    exact (and_iff_right next).symm
  · rename_i other
    exact iff_of_false (by simp) fun continues => other continues.1

theorem position?_eq_iff :
    first.position? = second.position? ↔ ∀ reference, first.ContinuesAfter reference ↔ second.ContinuesAfter reference := by
  simp only [← position?_eq_some_iff]
  exact Option.ext_iff

theorem ContinuesAfter.eq {further : Component} (continues : chosen.ContinuesAfter reference)
    (also : chosen.ContinuesAfter further) : reference = further :=
  Option.some.inj (continues.2.symm.trans also.2)

theorem positionBefore_iff {near far : Option Component} :
    positionBefore near far = true ↔ ∃ further, far = some further ∧ ∀ reference, near = some reference → reference < further := by
  cases near <;> cases far <;> simp [positionBefore]

theorem positionBefore_trans {near middle far : Option Component} (before : positionBefore near middle = true)
    (later : positionBefore middle far = true) : positionBefore near far = true := by
  obtain ⟨half, rfl, above⟩ := positionBefore_iff.mp before
  obtain ⟨further, rfl, beyond⟩ := positionBefore_iff.mp later
  refine positionBefore_iff.mpr ⟨further, rfl, fun reference held => ?_⟩
  exact Std.lt_trans (above reference held) (beyond half rfl)

theorem position_trichotomy (near far : Option Component) :
    positionBefore near far = true ∨ near = far ∨ positionBefore far near = true := by
  cases near with
  | none =>
    cases far with
    | none => exact Or.inr (Or.inl rfl)
    | some _ => exact Or.inl rfl
  | some reference =>
    cases far with
    | none => exact Or.inr (Or.inr rfl)
    | some further => simpa [positionBefore] using Std.lt_trichotomy reference further

theorem yieldsTo_refl (candidate : Candidate) : candidate.yieldsTo candidate = true :=
  yieldsTo_iff.mpr (Or.inr ⟨rfl, Or.inr ⟨rfl, Nat.le_refl _⟩⟩)

theorem yieldsTo_total (first second : Candidate) : first.yieldsTo second = true ∨ second.yieldsTo first = true := by
  rw [yieldsTo_iff, yieldsTo_iff]
  rcases Nat.lt_trichotomy first.interest.name.length second.interest.name.length with shorter | same | longer
  · exact Or.inl (Or.inl shorter)
  · rcases position_trichotomy first.position? second.position? with behind | level | ahead
    · exact Or.inl (Or.inr ⟨same, Or.inl behind⟩)
    · rcases Nat.le_total second.pending.seq first.pending.seq with earlier | later
      · exact Or.inl (Or.inr ⟨same, Or.inr ⟨level, earlier⟩⟩)
      · exact Or.inr (Or.inr ⟨same.symm, Or.inr ⟨level.symm, later⟩⟩)
    · exact Or.inr (Or.inr ⟨same.symm, Or.inl ahead⟩)
  · exact Or.inr (Or.inl longer)

theorem yieldsTo_trans (before : first.yieldsTo second = true) (later : second.yieldsTo third = true) :
    first.yieldsTo third = true := by
  rw [yieldsTo_iff] at *
  rcases before with shorter | ⟨same, before⟩
  · exact Or.inl (by omega)
  · rcases later with shorter | ⟨level, later⟩
    · exact Or.inl (by omega)
    · refine Or.inr ⟨same.trans level, ?_⟩
      rcases before with behind | ⟨beside, earlier⟩
      · rcases later with further | ⟨beside, -⟩
        · exact Or.inl (positionBefore_trans behind further)
        · exact Or.inl (beside ▸ behind)
      · rcases later with further | ⟨level, sooner⟩
        · exact Or.inl (beside ▸ further)
        · exact Or.inr ⟨beside.trans level, Nat.le_trans sooner earlier⟩

-- Of two names of one length the reference further along decides, then the number.
theorem ranked_of_yieldsTo (yields : first.yieldsTo second = true)
    (same : first.interest.name.length = second.interest.name.length) :
    (∃ further, second.ContinuesAfter further ∧ ∀ reference, first.ContinuesAfter reference → reference < further) ∨
      (∀ reference, first.ContinuesAfter reference ↔ second.ContinuesAfter reference) ∧
        second.pending.seq ≤ first.pending.seq := by
  rw [← position?_eq_iff]
  simp only [← position?_eq_some_iff]
  rcases yieldsTo_iff.mp yields with shorter | ⟨-, behind | level⟩
  · exact absurd same shorter.ne
  · exact Or.inl (positionBefore_iff.mp behind)
  · exact Or.inr level

theorem yieldsTo_best? (best : best? candidates = some chosen) : ∀ other ∈ candidates, other.yieldsTo chosen = true := by
  cases candidates with
  | nil => simp
  | cons first rest =>
    induction rest generalizing first with
    | nil =>
      obtain rfl : first = chosen := Option.some.inj best
      simpa using yieldsTo_refl first
    | cons second rest ih =>
      rw [best?_cons_cons] at best
      obtain ⟨winner, others⟩ := List.forall_mem_cons.mp (ih _ best)
      -- Whoever wins the first comparison is not worse than either of the two.
      have both : first.yieldsTo chosen = true ∧ second.yieldsTo chosen = true := by
        split at winner
        · rename_i yields
          exact ⟨yieldsTo_trans yields winner, winner⟩
        · rename_i stays
          exact ⟨winner, yieldsTo_trans ((yieldsTo_total first second).resolve_left stays) winner⟩
      exact List.forall_mem_cons.mpr ⟨both.1, List.forall_mem_cons.mpr ⟨both.2, others⟩⟩

end Candidate

namespace Flow

variable {τ : Type} {flow : Flow τ} {moments : List (Moment τ)} {object : ContentObject} {now : Timestamp}
variable {among : Set Candidate} {chosen other : Candidate} {i j : Nat}

/-- The pending interests that may have an object at a time, given what has been
forgotten by then. -/
def eligible (flow : Flow τ) (object : ContentObject) (now : Timestamp) : Set Candidate :=
  {candidate | Entry.interest candidate.interest candidate.pending ∈ flow.pending.toList ∧
    candidate.pending.isLive now = true ∧ candidate.interest.matchesObject object = true ∧
    (flow.expire now).inOrder candidate.interest object.name = true}

def RegisteredAt (moments : List (Moment τ)) (candidate : Candidate) (place : Nat) : Prop :=
  ∃ moment, moments[place]? = some moment ∧ moment.event = .registered candidate.interest ∧
    candidate.pending.seq = moment.before.nextSeq

/-- The first of some pending interests by rank: the longest name, then the
greatest reference of a next interest, then the earliest registration. -/
structure Foremost (moments : List (Moment τ)) (among : Set Candidate) (chosen : Candidate) : Prop where
  member : chosen ∈ among
  longest : ∀ other ∈ among, other.interest.name.length ≤ chosen.interest.name.length
  furthest : ∀ other ∈ among, other.interest.name.length = chosen.interest.name.length →
    ∀ reference, other.ContinuesAfter reference → ∃ further, chosen.ContinuesAfter further ∧ reference ≤ further
  earliest : ∀ other ∈ among, other.interest.name.length = chosen.interest.name.length →
    (∀ reference, other.ContinuesAfter reference ↔ chosen.ContinuesAfter reference) →
    ∃ i j, RegisteredAt moments chosen i ∧ RegisteredAt moments other j ∧ i ≤ j

namespace Numbered

variable (held : Numbered moments flow)
include held

theorem exists_registeredAt {candidate : Candidate}
    (waits : Entry.interest candidate.interest candidate.pending ∈ flow.pending.toList) :
    ∃ place, RegisteredAt moments candidate place := by
  obtain ⟨moment, passed, interest, registered, deadline, same⟩ := held.registered waits
  obtain ⟨asked, number⟩ := Entry.interest.inj same
  obtain ⟨place, found⟩ := List.mem_iff_getElem?.mp passed
  exact ⟨place, moment, found, asked ▸ registered, congrArg Pending.seq number⟩

theorem place_le (first : RegisteredAt moments chosen i) (second : RegisteredAt moments other j)
    (order : chosen.pending.seq ≤ other.pending.seq) : i ≤ j := by
  obtain ⟨moment, here, registered, number⟩ := first
  obtain ⟨later, there, also, further⟩ := second
  obtain ⟨i_lt, rfl⟩ := List.getElem?_eq_some_iff.mp here
  obtain ⟨j_lt, rfl⟩ := List.getElem?_eq_some_iff.mp there
  by_contra behind
  have ascending : (moments.filterMap Moment.issued?).Pairwise (· < ·) := held.issued ▸ List.pairwise_lt_range
  have apart := List.pairwise_iff_getElem.mp (List.pairwise_filterMap.mp ascending) j i j_lt i_lt (by omega)
  have less := apart moments[j].before.nextSeq (by rw [Moment.issued?, also])
    moments[i].before.nextSeq (by rw [Moment.issued?, registered])
  omega

end Numbered

theorem mem_eligible_iff (wellFormed : flow.pending.WellFormed) {candidate : Candidate} :
    candidate ∈ flow.eligible object now ↔ candidate ∈ (flow.expire now).waiting object := by
  have kept : (flow.expire now).pending.WellFormed := wellFormed.filter _
  have waits : Entry.interest candidate.interest candidate.pending ∈ (flow.expire now).pending.toList ↔
      Entry.interest candidate.interest candidate.pending ∈ flow.pending.toList ∧
        candidate.pending.isLive now = true := Table.mem_filter_iff wellFormed
  rw [mem_waiting_iff kept, waits, mayHave_iff, and_assoc]
  rfl

-- What the search finds comes first among all that may have the object.
theorem foremost_of_bestPending? (held : Numbered moments flow)
    (best : (flow.expire now).bestPending? object = some chosen) :
    Foremost moments (flow.eligible object now) chosen := by
  have member : chosen ∈ flow.eligible object now :=
    (mem_eligible_iff held.wellFormed).mpr (Candidate.mem_of_best? best)
  have yields : ∀ other ∈ flow.eligible object now, other.yieldsTo chosen = true := fun other found =>
    Candidate.yieldsTo_best? best other ((mem_eligible_iff held.wellFormed).mp found)
  refine ⟨member, ?_, ?_, ?_⟩
  · intro other found
    rcases Candidate.yieldsTo_iff.mp (yields other found) with shorter | ⟨same, -⟩
    · exact shorter.le
    · exact same.le
  · intro other found same reference continues
    rcases Candidate.ranked_of_yieldsTo (yields other found) same with ⟨further, ahead, above⟩ | ⟨level, -⟩
    · exact ⟨further, ahead, Std.le_of_lt (above reference continues)⟩
    · exact ⟨reference, (level reference).mp continues, Std.le_refl _⟩
  · intro other found same level
    obtain ⟨i, first⟩ := held.exists_registeredAt member.1
    obtain ⟨j, second⟩ := held.exists_registeredAt found.1
    refine ⟨i, j, first, second, held.place_le first second ?_⟩
    rcases Candidate.ranked_of_yieldsTo (yields other found) same with ⟨further, ahead, above⟩ | ⟨-, earlier⟩
    · exact absurd (above further ((level further).mpr ahead)) Std.lt_irrefl
    · exact earlier

namespace Foremost

theorem length_eq (first : Foremost moments among chosen) (second : Foremost moments among other) :
    other.interest.name.length = chosen.interest.name.length :=
  Nat.le_antisymm (first.longest _ second.member) (second.longest _ first.member)

theorem continuesAfter (first : Foremost moments among chosen) (second : Foremost moments among other)
    {reference : Component} (continues : other.ContinuesAfter reference) : chosen.ContinuesAfter reference := by
  obtain ⟨further, ahead, above⟩ := first.furthest _ second.member (first.length_eq second) reference continues
  obtain ⟨back, behind, below⟩ := second.furthest _ first.member (second.length_eq first) further ahead
  obtain rfl : back = reference := behind.eq continues
  exact Std.le_antisymm above below ▸ ahead

theorem eq (held : Numbered moments flow) (first : Foremost moments (flow.eligible object now) chosen)
    (second : Foremost moments (flow.eligible object now) other) : chosen = other := by
  have level : ∀ reference, other.ContinuesAfter reference ↔ chosen.ContinuesAfter reference := fun reference =>
    ⟨first.continuesAfter second, second.continuesAfter first⟩
  obtain ⟨i, j, chosenAt, otherAt, below⟩ := first.earliest _ second.member (first.length_eq second) level
  obtain ⟨k, l, otherToo, chosenToo, above⟩ :=
    second.earliest _ first.member (second.length_eq first) fun reference => (level reference).symm
  have chosenOnce : l ≤ i := held.place_le chosenToo chosenAt (Nat.le_refl _)
  have otherOnce : j ≤ k := held.place_le otherAt otherToo (Nat.le_refl _)
  obtain rfl : i = j := by omega
  obtain ⟨moment, here, -, number⟩ := chosenAt
  obtain ⟨also, there, -, otherNumber⟩ := otherAt
  obtain rfl := Option.some.inj (here.symm.trans there)
  exact Candidate.eq_of_entry_eq (List.inj_on_of_nodup_map held.seqs_nodup first.member.1 second.member.1
    (number.trans otherNumber.symm))

end Foremost

theorem eligible_eq_empty_iff (wellFormed : flow.pending.WellFormed) :
    flow.eligible object now = ∅ ↔ (flow.expire now).bestPending? object = none := by
  rw [Set.eq_empty_iff_forall_notMem]
  simp only [mem_eligible_iff wellFormed, ← List.eq_nil_iff_forall_not_mem]
  constructor
  · intro nobody
    rw [bestPending?, nobody]
    rfl
  · exact Candidate.best?_eq_none

-- The interest that is served leaves those that still wait at that time.
theorem toList_removeInterest_expire (held : Numbered moments flow) (member : chosen ∈ flow.eligible object now) :
    ((flow.expire now).pending.removeInterest chosen.interest chosen.pending).2.toList
      = (flow.pending.toList.filter (·.value.isLive now)).erase (.interest chosen.interest chosen.pending) := by
  have listed : (flow.expire now).pending.toList = flow.pending.toList.filter (·.value.isLive now) :=
    flow.pending.toList_filter _
  have waits : Entry.interest chosen.interest chosen.pending ∈ (flow.expire now).pending.toList :=
    (Table.mem_filter_iff held.wellFormed).mpr ⟨member.1, member.2.1⟩
  rw [← listed]
  exact Table.toList_removeInterest (held.wellFormed.filter _) (held.distinct_expire now) waits

variable [Transport τ]

/-- A put that looks at the pending interests serves the one that comes first
among those that may have its object, and that one alone; if there is none, the
object is buffered or there is no room for it. -/
theorem put_serves_foremost (config : FlowConfig) (transport : τ) (requests : List Request) (object : ContentObject)
    (now : Timestamp) (weighs : ((Flow.new config transport).run requests).2.weighs object = true) :
    let history := (Flow.new config transport).history requests
    let flow := ((Flow.new config transport).run requests).2
    (flow.eligible object now = ∅ →
      flow.put object now
        = if flow.isBuffered object.name = true ∨ flow.buffer.size < flow.config.highwater then
            (.ok .buffered, { flow.expire now with buffer := flow.buffer.insert object })
          else (.error (.capacity flow.config.highwater), flow.expire now)) ∧
    ((flow.eligible object now).Nonempty →
      ∃ chosen, Foremost history (flow.eligible object now) chosen ∧
        (∀ other, Foremost history (flow.eligible object now) other → other = chosen) ∧
        (∀ carrier, Transport.deliver flow.transport object = (.ok (), carrier) →
          ∃ after, flow.put object now = (.ok .delivered, after) ∧ after.transport = carrier ∧
            after.buffer = flow.buffer ∧
            after.pending.toList
              = (flow.pending.toList.filter (·.value.isLive now)).erase (.interest chosen.interest chosen.pending)) ∧
        ∀ fault carrier, Transport.deliver flow.transport object = (.error fault, carrier) →
          flow.put object now = (.error (.transport fault), { flow.expire now with transport := carrier })) := by
  intro history flow
  have held : Numbered history flow := ((Flow.new config transport).trail_history requests).numbered
  have weighed : flow.weighs object = true := weighs
  clear_value history flow
  have result := put_of_weighs weighed now
  constructor
  · intro nobody
    rw [(eligible_eq_empty_iff held.wellFormed).mp nobody] at result
    exact result
  · intro somebody
    have found := mt (eligible_eq_empty_iff held.wellFormed).mpr somebody.ne_empty
    obtain ⟨chosen, best⟩ := Option.ne_none_iff_exists'.mp found
    rw [best] at result
    have foremost := foremost_of_bestPending? held best
    refine ⟨chosen, foremost, fun other also => also.eq held foremost, ?_, ?_⟩
    · intro carrier handed
      have sent : Transport.deliver (flow.expire now).transport object = (.ok (), carrier) := handed
      refine ⟨_, result.trans (commit_deliver_ok sent chosen), transport_forward _ _ _, buffer_forward _ _ _, ?_⟩
      exact toList_removeInterest_expire held foremost.member
    · intro fault carrier handed
      have refused : Transport.deliver (flow.expire now).transport object = (.error fault, carrier) := handed
      exact result.trans (commit_deliver_error refused chosen)

namespace Sample

/-- An interest in segment 1 alone, and later one in anything on the stream and
two equal ones in what follows segment 0. -/
def rivalry : List Request :=
  [.addNamespace Sample.stream, .ask [exactly 1] ⟨1000⟩, .ask [.ofName Sample.stream, follower 0, follower 0] ⟨3000⟩]

def rival (interest : Interest) (seq : Nat) : Candidate := ⟨interest, ⟨seq, some ⟨7000⟩⟩⟩

end Sample

open Flow.Sample in
/-- By the time segment 1 is put the interest with the longest name has expired,
and the first of the two equal ones gets it. -/
theorem first_rival_is_served :
    let flow := (fresh.run rivalry).2
    flow.weighs (segment 1) = true ∧ rival (follower 0) 2 ∈ flow.eligible (segment 1) ⟨5000⟩ ∧
      Foremost (fresh.history rivalry) (flow.eligible (segment 1) ⟨5000⟩) (rival (follower 0) 2) ∧
      ∃ after, flow.put (segment 1) ⟨5000⟩ = (.ok .delivered, after) ∧ after.transport = [segment 1] ∧
        after.pending.toList.map (·.value.seq) = [1, 3] := by
  intro flow
  have weighs : flow.weighs (segment 1) = true := by decide +kernel
  have member : rival (follower 0) 2 ∈ flow.eligible (segment 1) ⟨5000⟩ := by
    refine ⟨?_, ?_, ?_, ?_⟩ <;> decide +kernel
  have live : flow.pending.toList.filter (·.value.isLive ⟨5000⟩)
      = [rival (.ofName Sample.stream) 1, rival (follower 0) 2, rival (follower 0) 3].map
          fun candidate => .interest candidate.interest candidate.pending := by decide +kernel
  have stay : (flow.put (segment 1) ⟨5000⟩).2.pending.toList.map (·.value.seq) = [1, 3] := by decide +kernel
  obtain ⟨-, serves⟩ := put_serves_foremost .standard ([] : List ContentObject) rivalry (segment 1) ⟨5000⟩ weighs
  obtain ⟨chosen, foremost, -, delivers, -⟩ := serves ⟨_, member⟩
  obtain ⟨after, result, sent, -, left⟩ := delivers [segment 1] (by decide +kernel)
  change flow.put (segment 1) ⟨5000⟩ = _ at result
  change _ = (flow.pending.toList.filter (·.value.isLive ⟨5000⟩)).erase _ at left
  rw [result] at stay
  -- Of the three that are left only one leaves the numbers 1 and 3 behind.
  have served : chosen = rival (follower 0) 2 := by
    have found : Entry.interest chosen.interest chosen.pending ∈ flow.pending.toList.filter (·.value.isLive ⟨5000⟩) :=
      List.mem_filter.mpr ⟨foremost.member.1, foremost.member.2.1⟩
    rw [left, live] at stay
    rw [live] at found
    obtain ⟨candidate, listed, same⟩ := List.mem_map.mp found
    obtain rfl : candidate = chosen := Candidate.eq_of_entry_eq same
    simp only [List.mem_cons, List.not_mem_nil, or_false] at listed
    rcases listed with rfl | rfl | rfl
    · exact absurd stay (by decide +kernel)
    · rfl
    · exact absurd stay (by decide +kernel)
  exact ⟨weighs, member, served ▸ foremost, after, result, sent, stay⟩

end Flow

end NamedContent
