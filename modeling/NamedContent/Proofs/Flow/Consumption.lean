import Mathlib.Algebra.Order.Group.Multiset
import Mathlib.Data.Multiset.Range
import NamedContent.Proofs.Flow.Meeting
import NamedContent.Proofs.Flow.Record
import NamedContent.Proofs.Table.Contents

/-! Every delivery uses up one interest, and no interest is used up twice.

Equal interests may wait side by side, so a pending interest is known by its
number alone. A number is given out once, by a registration, and comes back at
most once, by a delivery. A number that has come back no longer waits. -/

set_option autoImplicit false

namespace NamedContent.Flow

variable {τ : Type}

def Event.redeemed? : Event → Option Nat
  | .delivered _ candidate => some candidate.pending.seq
  | _ => none

def Moment.issued? (moment : Moment τ) : Option Nat :=
  match moment.event with
  | .registered _ => some moment.before.nextSeq
  | _ => none

def seqs (flow : Flow τ) : List Nat := flow.pending.toList.map (·.value.seq)

/-- The interest that is dealt with at one moment is used up by the delivery at
another: at once from the buffer, or by a later put while it waits under the
number it was given. -/
inductive Spends (moments : List (Moment τ)) (interest : Interest) : Nat → Nat → Prop where
  | at_once {i : Nat} {moment : Moment τ} {object : ContentObject} (here : moments[i]? = some moment)
      (answered : moment.event = .answered interest object) : Spends moments interest i i
  | later {i j : Nat} {first second : Moment τ} {object : ContentObject} {pending : Pending} (earlier : i < j)
      (asked : moments[i]? = some first) (registered : first.event = .registered interest)
      (number : pending.seq = first.before.nextSeq)
      (taken : moments[j]? = some second) (delivered : second.event = .delivered object ⟨interest, pending⟩) :
      Spends moments interest i j

theorem eq_of_filterMap_nodup {α β : Type} {pick : α → Option β} {values : List α}
    (once : (values.filterMap pick).Nodup) {i j : Nat} {first second : α} {value : β}
    (here : values[i]? = some first) (there : values[j]? = some second)
    (picked : pick first = some value) (again : pick second = some value) : i = j := by
  obtain ⟨i_lt, rfl⟩ := List.getElem?_eq_some_iff.mp here
  obtain ⟨j_lt, rfl⟩ := List.getElem?_eq_some_iff.mp there
  have apart := List.pairwise_iff_getElem.mp (List.pairwise_filterMap.mp once)
  rcases Nat.lt_trichotomy i j with less | same | greater
  · exact absurd rfl (apart i j i_lt j_lt less value picked value again)
  · exact same
  · exact absurd rfl (apart j i j_lt i_lt greater value again value picked)

theorem exists_append_of_getElem? {α : Type} {values : List α} {i : Nat} {value : α}
    (here : values[i]? = some value) : ∃ front back, values = front ++ value :: back ∧ front.length = i := by
  obtain ⟨below, rfl⟩ := List.getElem?_eq_some_iff.mp here
  refine ⟨values.take i, values.drop (i + 1), ?_, List.length_take_of_le below.le⟩
  rw [← List.drop_eq_getElem_cons, List.take_append_drop]

section Steps
variable [Transport τ] {before after : Flow τ} {event : Event}

theorem Step.range_nextSeq (step : before.Step event after) :
    List.range after.nextSeq
      = List.range before.nextSeq ++ (⟨before, event, after⟩ : Moment τ).issued?.toList := by
  cases step with
  | addNamespace => simp [Moment.issued?]
  | removeNamespace => simp [Moment.issued?]
  | deliver => simp [Moment.issued?]
  | answer => simp [Moment.issued?]
  | register => exact List.range_succ
  | _ => exact (List.append_nil _).symm

-- Only an entry that a delivery uses up, one whose time has come, and at the
-- close all of them leave.
theorem Step.left_cases (step : before.Step event after) (wellFormed : before.pending.WellFormed)
    (distinct : before.pending.toList.Nodup) {entry : Entry Pending} (waited : entry ∈ before.pending.toList)
    (gone : entry ∉ after.pending.toList) :
    (∃ object candidate, event = .delivered object candidate ∧
      entry = .interest candidate.interest candidate.pending) ∨
    (∃ now, event = .expired now ∧ entry.value.isLive now = false) ∨ event = .managed .close := by
  cases step with
  | addNamespace => exact absurd waited (by simpa using gone)
  | removeNamespace => exact absurd waited (by simpa using gone)
  | close => exact Or.inr (Or.inr rfl)
  | expire now =>
    refine Or.inr (Or.inl ⟨now, rfl, Bool.eq_false_iff.mpr fun live => gone ?_⟩)
    exact (Table.mem_filter_iff wellFormed).mpr ⟨waited, live⟩
  | @deliver object candidate transport judged =>
    refine Or.inl ⟨object, candidate, rfl, ?_⟩
    cases judged with
    | deliver weighed best =>
      have member := (waiting_of_bestPending? wellFormed best).1
      by_contra other
      have kept : entry ∈ (before.pending.removeInterest candidate.interest candidate.pending).2.toList := by
        rw [Table.toList_removeInterest wellFormed distinct member]
        exact (List.mem_erase_of_ne other).mpr waited
      exact gone kept
  | register => exact absurd ((Table.mem_addInterest_iff wellFormed).mpr (Or.inl waited)) gone
  | answer => exact absurd waited (by simpa using gone)
  | _ => exact absurd waited gone

omit [Transport τ] in
theorem seqs_le_of_same (same : after.pending = before.pending) (kept : event.redeemed? = none) :
    (event.redeemed?.toList : Multiset Nat) + after.seqs
      ≤ before.seqs + (⟨before, event, after⟩ : Moment τ).issued?.toList := by
  rw [seqs, same, kept]
  exact (Multiset.zero_add _).le.trans (Multiset.le_add_right _ _)

theorem Step.seqs_le (step : before.Step event after) (wellFormed : before.pending.WellFormed)
    (distinct : before.pending.toList.Nodup) :
    (event.redeemed?.toList : Multiset Nat) + after.seqs
      ≤ before.seqs + (⟨before, event, after⟩ : Moment τ).issued?.toList := by
  cases step with
  | addNamespace => exact seqs_le_of_same (by simp) rfl
  | removeNamespace => exact seqs_le_of_same (by simp) rfl
  | answer => exact seqs_le_of_same (by simp) rfl
  | close => exact Multiset.zero_le _
  | expire now =>
    have kept : ((before.expire now).seqs).Sublist before.seqs := by
      rw [seqs, show (before.expire now).pending.toList = _ from before.pending.toList_filter _]
      exact List.filter_sublist.map _
    simpa [Event.redeemed?, Moment.issued?] using kept.subperm
  | @deliver object candidate transport judged =>
    cases judged with
    | deliver weighed best =>
      have member := (waiting_of_bestPending? wellFormed best).1
      have parted := (List.perm_cons_erase member).map (·.value.seq)
      rw [← Table.toList_removeInterest wellFormed distinct member, List.map_cons] at parted
      simpa [Event.redeemed?, Moment.issued?, seqs, Entry.value] using parted.symm.subperm
  | @register interest now =>
    have grown := (before.pending.perm_add wellFormed.ordered (.interest interest
      ⟨before.nextSeq, before.config.interestLifetime.map fun lifetime => now.add lifetime.millis⟩)).map (·.value.seq)
    rw [List.map_cons] at grown
    exact (grown.trans (List.perm_append_singleton _ _).symm).subperm
  | _ => exact seqs_le_of_same rfl rfl

end Steps

/-- Every number out is accounted for: it was given out at a moment passed, and
it either waits or came back once. -/
structure Numbered (past : List (Moment τ)) (flow : Flow τ) : Prop where
  wellFormed : flow.pending.WellFormed
  issued : past.filterMap Moment.issued? = List.range flow.nextSeq
  once : (past.filterMap (·.event.redeemed?) : Multiset Nat) + flow.seqs ≤ Multiset.range flow.nextSeq
  registered : ∀ {entry : Entry Pending}, entry ∈ flow.pending.toList →
    ∃ moment ∈ past, ∃ interest, moment.event = .registered interest ∧
      ∃ deadline, entry = .interest interest ⟨moment.before.nextSeq, deadline⟩

namespace Numbered

variable {past : List (Moment τ)} {flow : Flow τ}

theorem seqs_nodup (held : Numbered past flow) : flow.seqs.Nodup :=
  Multiset.coe_nodup.mp
    (Multiset.nodup_of_le ((Multiset.le_add_left _ _).trans held.once) (Multiset.nodup_range _))

theorem redeemed_nodup (held : Numbered past flow) : (past.filterMap (·.event.redeemed?)).Nodup :=
  Multiset.coe_nodup.mp
    (Multiset.nodup_of_le ((Multiset.le_add_right _ _).trans held.once) (Multiset.nodup_range _))

theorem distinct (held : Numbered past flow) : flow.pending.toList.Nodup := .of_map _ held.seqs_nodup

theorem distinct_expire (held : Numbered past flow) (now : Timestamp) : (flow.expire now).pending.toList.Nodup := by
  rw [show (flow.expire now).pending.toList = _ from flow.pending.toList_filter _]
  exact held.distinct.filter _

theorem number_lt (held : Numbered past flow) {number : Nat} (waits : number ∈ flow.seqs) :
    number < flow.nextSeq :=
  Multiset.mem_range.mp (Multiset.mem_of_le held.once (Multiset.mem_add.mpr (Or.inr waits)))

theorem new (config : FlowConfig) (transport : τ) : Numbered [] (Flow.new config transport) where
  wellFormed := Table.wellFormed_empty
  issued := rfl
  once := Multiset.zero_le _
  registered := fun waits => absurd waits List.not_mem_nil

theorem step [Transport τ] {moment : Moment τ} (held : Numbered past moment.before)
    (step : moment.before.Step moment.event moment.after) : Numbered (past ++ [moment]) moment.after where
  wellFormed := step.wellFormed held.wellFormed
  issued := by
    rw [step.range_nextSeq, ← held.issued, List.filterMap_append]
    cases issued : moment.issued? <;> simp [issued]
  once := by
    have change := step.seqs_le held.wellFormed held.distinct
    have grown : Multiset.range moment.after.nextSeq
        = Multiset.range moment.before.nextSeq + moment.issued?.toList := by
      rw [← Multiset.coe_range, step.range_nextSeq, ← Multiset.coe_add, Multiset.coe_range]
    have redeemed : ((past ++ [moment]).filterMap (·.event.redeemed?) : Multiset Nat)
        = past.filterMap (·.event.redeemed?) + moment.event.redeemed?.toList := by
      rw [List.filterMap_append, ← Multiset.coe_add]
      cases back : moment.event.redeemed? <;> simp [back]
    calc
      _ = (past.filterMap (·.event.redeemed?) : Multiset Nat)
            + (moment.event.redeemed?.toList + moment.after.seqs) := by rw [redeemed, add_assoc]
      _ ≤ past.filterMap (·.event.redeemed?) + (moment.before.seqs + moment.issued?.toList) :=
        add_le_add le_rfl change
      _ ≤ Multiset.range moment.before.nextSeq + moment.issued?.toList := by
        rw [← add_assoc]
        exact add_le_add held.once le_rfl
      _ = Multiset.range moment.after.nextSeq := grown.symm
  registered := by
    intro entry waits
    rcases step.entered_cases held.wellFormed waits with earlier | ⟨interest, deadline, registered, same⟩
    · obtain ⟨other, found, rest⟩ := held.registered earlier
      exact ⟨other, List.mem_append_left _ found, rest⟩
    · exact ⟨moment, List.mem_append_right _ (List.mem_singleton.mpr rfl), interest, registered, deadline, same⟩

end Numbered

namespace Spends

variable {flow : Flow τ} {moments : List (Moment τ)} {interest other : Interest} {i j k : Nat}

theorem left_unique (held : Numbered moments flow) (first : Spends moments interest i k)
    (second : Spends moments other j k) : i = j := by
  cases first with
  | at_once here answered =>
    cases second with
    | at_once => rfl
    | later earlier asked registered number taken delivered =>
      obtain rfl := Option.some.inj (here.symm.trans taken)
      exact absurd (answered.symm.trans delivered) (by simp)
  | later earlier asked registered number taken delivered =>
    cases second with
    | at_once here answered =>
      obtain rfl := Option.some.inj (here.symm.trans taken)
      exact absurd (answered.symm.trans delivered) (by simp)
    | later _ otherAsked otherRegistered otherNumber otherTaken otherDelivered =>
      obtain rfl := Option.some.inj (taken.symm.trans otherTaken)
      obtain ⟨-, rfl, rfl⟩ : _ ∧ _ ∧ _ := by simpa using delivered.symm.trans otherDelivered
      have once : (moments.filterMap Moment.issued?).Nodup := held.issued ▸ List.nodup_range
      refine eq_of_filterMap_nodup once asked otherAsked (Eq.trans ?_ (congrArg some number.symm))
        (Eq.trans ?_ (congrArg some otherNumber.symm))
      · rw [Moment.issued?, registered]
      · rw [Moment.issued?, otherRegistered]

theorem right_unique (held : Numbered moments flow) (first : Spends moments interest i j)
    (second : Spends moments other i k) : j = k := by
  cases first with
  | at_once here answered =>
    cases second with
    | at_once => rfl
    | later earlier asked registered number taken delivered =>
      obtain rfl := Option.some.inj (here.symm.trans asked)
      exact absurd (answered.symm.trans registered) (by simp)
  | later earlier asked registered number taken delivered =>
    cases second with
    | at_once here answered =>
      obtain rfl := Option.some.inj (here.symm.trans asked)
      exact absurd (answered.symm.trans registered) (by simp)
    | later _ otherAsked otherRegistered otherNumber otherTaken otherDelivered =>
      obtain rfl := Option.some.inj (asked.symm.trans otherAsked)
      refine eq_of_filterMap_nodup held.redeemed_nodup taken otherTaken (Eq.trans ?_ (congrArg some number))
        (Eq.trans ?_ (congrArg some otherNumber))
      · rw [delivered, Event.redeemed?]
      · rw [otherDelivered, Event.redeemed?]

end Spends

variable [Transport τ] {config : FlowConfig} {transport : τ} {flow : Flow τ} {moments : List (Moment τ)}

theorem Trail.numbered (trail : Trail (Flow.new config transport) moments flow) : Numbered moments flow :=
  trail.carries (List.nil_append _).symm Numbered (.new config transport) fun _ step held => held.step step

-- A delivery finds an interest that may have the object, and the moment that
-- interest was dealt with.
theorem exists_spends {past later : List (Moment τ)} {moment : Moment τ} {object : ContentObject}
    (trail : Trail (Flow.new config transport) (past ++ moment :: later) flow)
    (accepts : moment.event.accepted? = some object) (checked : moment.event ≠ .bypassed object) :
    ∃ interest, moment.event.consumed? = some (interest, object) ∧
      moment.before.mayHave interest object = true ∧
      ∃ i, Spends (past ++ moment :: later) interest i past.length := by
  obtain ⟨earlier, step, -⟩ := trail.at_moment
  have held := earlier.numbered
  have here : (past ++ moment :: later)[past.length]? = some moment := by simp
  obtain ⟨interest, consumed⟩ := (Event.consumed?_of_accepted? accepts).resolve_left checked
  refine ⟨interest, consumed, ?_⟩
  rcases step.consumed_cases held.wellFormed consumed with ⟨pending, delivered, waits, allowed⟩ | ⟨answered, best⟩
  · obtain ⟨first, passed, asked, registered, deadline, same⟩ := held.registered waits
    obtain ⟨rfl, number⟩ := Entry.interest.inj same
    obtain ⟨i, below, found⟩ := List.mem_iff_getElem.mp passed
    have dealt : (past ++ moment :: later)[i]? = some first := by
      rw [List.getElem?_append_left below, List.getElem?_eq_getElem below, found]
    exact ⟨allowed, i, .later below dealt registered (congrArg Pending.seq number) here delivered⟩
  · exact ⟨mayHave_of_bestBuffered? best, past.length, .at_once here answered⟩

theorem pending_put_delivered {object : ContentObject} {now : Timestamp} {after : Flow τ}
    (put : flow.put object now = (.ok .delivered, after)) :
    ∃ candidate, (flow.expire now).bestPending? object = some candidate ∧
      after.pending = ((flow.expire now).pending.removeInterest candidate.interest candidate.pending).2 := by
  obtain ⟨answer, weighed, weighing, judged, result⟩ := flow.put_cases object now
  rw [result] at put
  cases judged with
  | closed | outside | full | buffer => exact absurd (Prod.mk.inj put).1 (by simp)
  | bypass =>
    simp only [commit] at put
    split at put <;> exact absurd (Prod.mk.inj put).1 (by simp)
  | @deliver candidate looks best =>
    obtain rfl : weighed = flow.expire now := by rwa [if_pos looks] at weighing
    refine ⟨candidate, best, ?_⟩
    rcases (flow.expire now).deliver_cases object with ⟨fault, transport, -, sent⟩ | ⟨transport, -, sent⟩
    · simp [commit, sent] at put
    · simp only [commit, sent] at put
      rw [← (Prod.mk.inj put).2]
      simp

/-- Every delivery but one that bypasses the checks uses up one interest, which
matches and is in order, and every interest is used up once at most. A put takes
one entry away, whatever equals it otherwise, and nothing else but age and the
close lets an interest go. -/
theorem deliveries_spend_interests (config : FlowConfig) (transport : τ) (requests : List Request) :
    let moments := (Flow.new config transport).history requests
    let flow := ((Flow.new config transport).run requests).2
    (flow.seqs.Nodup ∧ ∀ seq ∈ flow.seqs, seq < flow.nextSeq) ∧
    (∀ (j : Nat) (moment : Moment τ) (object : ContentObject), moments[j]? = some moment →
      moment.event.accepted? = some object → moment.event ≠ .bypassed object →
      ∃ interest, moment.event.consumed? = some (interest, object) ∧
        interest.matchesObject object = true ∧ moment.before.inOrder interest object.name = true ∧
        ∃! i, Spends moments interest i j) ∧
    (∀ first second i j k, Spends moments first i j → Spends moments second i k → j = k) ∧
    (∀ object now after, flow.put object now = (.ok .delivered, after) →
      ∃ candidate, (flow.expire now).bestPending? object = some candidate ∧
        Entry.interest candidate.interest candidate.pending ∈ (flow.expire now).pending.toList ∧
        after.pending.toList
          = (flow.expire now).pending.toList.erase (.interest candidate.interest candidate.pending)) ∧
    ∀ moment ∈ moments, ∀ entry ∈ moment.before.pending.toList, entry ∉ moment.after.pending.toList →
      (∃ object candidate, moment.event = .delivered object candidate ∧
        entry = .interest candidate.interest candidate.pending) ∨
      (∃ now, moment.event = .expired now ∧ entry.value.isLive now = false) ∨
      moment.event = .managed .close := by
  intro moments flow
  have trail : Trail _ moments flow := (Flow.new config transport).trail_history requests
  have held := trail.numbered
  refine ⟨⟨held.seqs_nodup, fun _ => held.number_lt⟩, ?_, ?_, ?_, ?_⟩
  · intro j moment object here accepts checked
    obtain ⟨past, later, divided, rfl⟩ := exists_append_of_getElem? here
    rw [divided] at trail held ⊢
    obtain ⟨interest, consumed, allowed, i, spends⟩ := exists_spends trail accepts checked
    obtain ⟨matched, ordered⟩ := mayHave_iff.mp allowed
    exact ⟨interest, consumed, matched, ordered, i, spends, fun _ other => other.left_unique held spends⟩
  · exact fun first second i j k => Spends.right_unique held
  · intro object now after put
    obtain ⟨candidate, best, removed⟩ := pending_put_delivered put
    have wellFormed := held.wellFormed.filter fun entry => entry.value.isLive now
    have distinct : (flow.expire now).pending.toList.Nodup := by
      rw [show (flow.expire now).pending.toList = _ from flow.pending.toList_filter _]
      exact held.distinct.filter _
    have waits := (waiting_of_bestPending? wellFormed best).1
    exact ⟨candidate, best, waits, removed ▸ Table.toList_removeInterest wellFormed distinct waits⟩
  · intro moment found entry waited gone
    obtain ⟨past, later, divided⟩ := List.append_of_mem found
    rw [divided] at trail
    obtain ⟨earlier, step, -⟩ := trail.at_moment
    exact step.left_cases earlier.numbered.wellFormed earlier.numbered.distinct waited gone

/-- Whenever the transport takes an object while puts are checked, it does so for
one interest that the object uses up. -/
theorem spends_of_taken {requests : List Request} {j : Nat} {moment : Moment τ} {object : ContentObject}
    (here : ((Flow.new config transport).history requests)[j]? = some moment)
    (handed : moment.event.handed? = some object)
    (taken : (Transport.deliver moment.before.transport object).1 = .ok ()) (enabled : moment.before.enabled = true) :
    ∃ interest i, interest.matchesObject object = true ∧
      Spends ((Flow.new config transport).history requests) interest i j := by
  have trail := (Flow.new config transport).trail_history requests
  obtain ⟨past, later, divided, rfl⟩ := exists_append_of_getElem? here
  rw [divided] at trail ⊢
  obtain ⟨-, step, -⟩ := trail.at_moment
  have accepts := step.accepted?_eq_some_iff.mpr ⟨handed, taken⟩
  have checked : moment.event ≠ .bypassed object := by
    intro bypassed
    rw [bypassed] at step
    exact absurd (enabled.symm.trans step.disabled_of_bypassed) (by simp)
  obtain ⟨interest, -, allowed, i, spends⟩ := exists_spends trail accepts checked
  exact ⟨interest, i, (mayHave_iff.mp allowed).1, spends⟩

namespace Sample

/-- Two equal interests wait, and segment 1 uses up the first of them. -/
def pair : List Request :=
  [.addNamespace Sample.stream, .ask [follower 0, follower 0] ⟨1000⟩, .put (segment 1) ⟨1000⟩]

def pairing : List (Moment (List ContentObject)) := (Flow.new .standard []).history pair

def meeting : Moment (List ContentObject) := pairing.get ⟨5, by decide +kernel⟩

def paired (seq : Nat) : Entry Pending := .interest (follower 0) ⟨seq, some ⟨5000⟩⟩

end Sample

open Flow.Sample in
/-- The delivery of the sample run uses up one of the equal interests, which
leaves for that reason, and another put uses up the other. -/
theorem pair_spends_interests :
    let flow := ((Flow.new .standard ([] : List ContentObject)).run pair).2
    (∃ interest i, meeting.event.consumed? = some (interest, segment 1) ∧ Spends pairing interest i 5 ∧
      ∀ other k, Spends pairing other i k → 5 = k) ∧
    (∃ after candidate, flow.put (segment 2) ⟨1000⟩ = (.ok .delivered, after) ∧
      (flow.expire ⟨1000⟩).bestPending? (segment 2) = some candidate ∧
      after.pending.toList
        = (flow.expire ⟨1000⟩).pending.toList.erase (.interest candidate.interest candidate.pending)) ∧
    paired 0 ∈ meeting.before.pending.toList ∧ paired 0 ∉ meeting.after.pending.toList ∧
      ∃ object candidate, meeting.event = .delivered object candidate ∧
        paired 0 = .interest candidate.interest candidate.pending := by
  intro flow
  obtain ⟨-, spends, once, puts, leaves⟩ := deliveries_spend_interests .standard ([] : List ContentObject) pair
  have here : pairing[5]? = some meeting := List.getElem?_eq_getElem _
  have found : meeting ∈ pairing := List.get_mem _ _
  have delivered : meeting.event = .delivered (segment 1) ⟨follower 0, ⟨0, some ⟨5000⟩⟩⟩ := by decide +kernel
  have waited : paired 0 ∈ meeting.before.pending.toList := by decide +kernel
  have gone : paired 0 ∉ meeting.after.pending.toList := by decide +kernel
  refine ⟨?_, ?_, waited, gone, ?_⟩
  · obtain ⟨interest, consumed, -, -, i, spent, -⟩ :=
      spends 5 meeting (segment 1) here (by rw [delivered]; rfl) (by rw [delivered]; simp)
    exact ⟨interest, i, consumed, spent, fun other k again => once _ _ _ _ _ spent again⟩
  · have put : flow.put (segment 2) ⟨1000⟩ = (.ok .delivered, (flow.put (segment 2) ⟨1000⟩).2) := by
      rw [← show (flow.put (segment 2) ⟨1000⟩).1 = .ok .delivered by decide +kernel]
    obtain ⟨candidate, best, -, erased⟩ := puts _ _ _ put
    exact ⟨_, candidate, put, best, erased⟩
  · rcases leaves meeting found _ waited gone with given | ⟨now, expired, -⟩ | closed
    · exact given
    · exact absurd (delivered.symm.trans expired) (by simp)
    · exact absurd (delivered.symm.trans closed) (by simp)

end NamedContent.Flow
