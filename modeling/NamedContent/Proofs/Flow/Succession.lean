import NamedContent.Proofs.Flow.Record
import NamedContent.Proofs.Flow.Skipping

/-! A stream read from one place on leaves in succession.

Suppose that all interests that touch a stream ask for what follows the start
or a segment that has left already. Then the segments leave one after the other
from the start on, whatever the order of puts and interests, and also if the
mark of the stream is forgotten: the references alone reach no further than one
past the last segment, and whatever left before is not buffered again. -/

set_option autoImplicit false

namespace NamedContent

namespace Flow

variable {τ : Type}

/-- The numbers of the segments of a stream among the objects that a history
has for an event, in order. -/
def numbers (stream : Name) (pick : Event → Option ContentObject) (moments : List (Moment τ)) : List UInt64 :=
  moments.filterMap fun moment => (pick moment.event).bind (·.name.numberIn? stream)

abbrev accepted (stream : Name) (moments : List (Moment τ)) : List UInt64 :=
  numbers stream Event.accepted? moments

abbrev supplied (stream : Name) (moments : List (Moment τ)) : List UInt64 :=
  numbers stream Event.put? moments

section Numbers
variable {stream : Name} {pick : Event → Option ContentObject} {past later : List (Moment τ)} {moment : Moment τ}
variable {object : ContentObject} {number : UInt64}

theorem numbers_append : numbers stream pick (past ++ later) = numbers stream pick past ++ numbers stream pick later :=
  List.filterMap_append

theorem numbers_eq (pick : Event → Option ContentObject) :
    numbers stream pick past = (past.filterMap (pick ·.event)).filterMap (·.name.numberIn? stream) :=
  List.filterMap_filterMap.symm

theorem numbers_singleton (pick : Event → Option ContentObject) :
    numbers stream pick [moment] = (pick moment.event).toList.filterMap (·.name.numberIn? stream) := by
  cases picked : pick moment.event <;> simp [numbers_eq, picked]

theorem numbers_single (picked : pick moment.event = some object) (named : object.name = stream.segment number) :
    numbers stream pick [moment] = [number] := by
  simp [numbers_singleton, picked, Name.numberIn?_eq_some_iff.mpr named]

theorem numbers_single_of_ne
    (other : ∀ object, pick moment.event = some object → ∀ number, object.name ≠ stream.segment number) :
    numbers stream pick [moment] = [] := by
  rw [numbers_singleton, List.filterMap_eq_nil_iff]
  intro object picked
  rw [Option.eq_none_iff_forall_ne_some]
  intro number found
  exact other object (Option.mem_toList.mp picked) number (Name.numberIn?_eq_some_iff.mp found)

-- What has been picked before is not picked again if nothing is picked twice.
theorem not_mem_of_count_le_one (once : (numbers stream pick (past ++ moment :: later)).count number ≤ 1)
    (picked : pick moment.event = some object) (named : object.name = stream.segment number) :
    number ∉ numbers stream pick past := by
  intro earlier
  rw [List.append_cons, numbers_append, numbers_append, numbers_single picked named] at once
  have positive := List.count_pos_iff.mpr earlier
  simp only [List.count_append, List.count_singleton_self] at once
  omega

theorem mem_numbers_snoc :
    number ∈ numbers stream pick (past ++ [moment]) ↔
      number ∈ numbers stream pick past ∨
        ∃ object, pick moment.event = some object ∧ object.name = stream.segment number := by
  rw [numbers_append, List.mem_append]
  refine or_congr_right ?_
  simp [numbers, Option.bind_eq_some_iff, Name.numberIn?_eq_some_iff]

theorem count_numbers (stream : Name) (pick : Event → Option ContentObject) (moments : List (Moment τ))
    (number : UInt64) :
    (numbers stream pick moments).count number
      = ((moments.filterMap (pick ·.event)).map (·.name)).count (stream.segment number) := by
  rw [numbers_eq, List.count_filterMap, List.count_eq_countP, List.countP_map]
  refine List.countP_congr fun object _ => ?_
  simp [Name.numberIn?_eq_some_iff]

end Numbers

/-- A next interest on the stream that refers to the start or to a segment that has left. -/
def Continues (interest : Interest) (stream : Name) (start : UInt64) (past : List (Moment τ)) : Prop :=
  ∃ reference ∈ start :: accepted stream past, interest = .next (stream.segment reference) stream.length

instance (interest : Interest) (stream : Name) (start : UInt64) (past : List (Moment τ)) :
    Decidable (Continues interest stream start past) :=
  inferInstanceAs (Decidable (∃ reference ∈ start :: accepted stream past, _))

/-- Flow control stays on, no segment is put twice with success, and an interest
that touches the stream continues it. -/
structure Orderly (stream : Name) (start : UInt64) (past : List (Moment τ)) (event : Event) : Prop where
  on : ∀ enabled, event = .managed (.setEnabled enabled) → enabled = true
  once : ∀ object number, event.put? = some object → object.name = stream.segment number →
    number ∉ supplied stream past
  asked : ∀ interest, event.asked? = some interest → interest.name.touches stream = true →
    Continues interest stream start past

structure Succeeding (stream : Name) (start : UInt64) (past : List (Moment τ)) (flow : Flow τ) : Prop where
  strict : flow.config.strictSegmentOrder = true
  enabled : flow.enabled = true
  wellFormed : flow.pending.WellFormed
  consecutive : (accepted stream past).map UInt64.toNat
    = List.range' (start.toNat + 1) (accepted stream past).length
  drawn : ∀ number ∈ accepted stream past, number ∈ supplied stream past
  stored : ∀ object ∈ flow.buffer.values, ∀ number, object.name = stream.segment number →
    number ∈ supplied stream past ∧ number ∉ accepted stream past
  marked : ∀ number, flow.lowWater? stream = some number → number ∈ accepted stream past
  waits : ∀ interest pending, Entry.interest interest pending ∈ flow.pending.toList →
    interest.name.touches stream = true → Continues interest stream start past

section States
variable {stream : Name} {start : UInt64} {past : List (Moment τ)} {moment : Moment τ} {flow : Flow τ}
variable {object : ContentObject} {interest : Interest} {number reference : UInt64}

def front (stream : Name) (start : UInt64) (past : List (Moment τ)) : Nat :=
  start.toNat + (accepted stream past).length

theorem Succeeding.mem_accepted_iff (held : Succeeding stream start past flow) :
    number ∈ accepted stream past ↔ start.toNat < number.toNat ∧ number.toNat ≤ front stream start past := by
  have listed : number ∈ accepted stream past ↔ number.toNat ∈ (accepted stream past).map UInt64.toNat := by
    rw [List.mem_map]
    constructor
    · intro found
      exact ⟨number, found, rfl⟩
    · intro ⟨other, found, same⟩
      exact UInt64.toNat_inj.mp same ▸ found
  rw [listed, held.consecutive, List.mem_range'_1, front]
  omega

-- A segment that may leave for an interest that continues the stream comes
-- after the start and at most one after the last that has left.
theorem Succeeding.bounds (held : Succeeding stream start past flow)
    (continues : Continues interest stream start past) (matched : interest.matchesObject object = true)
    (named : object.name = stream.segment number) (ordered : flow.inOrder interest object.name = true) :
    start.toNat < number.toNat ∧ number.toNat ≤ front stream start past + 1 := by
  obtain ⟨reference, origin, rfl⟩ := continues
  have follows := Interest.follows_next stream reference
  have after := UInt64.lt_iff_toNat_lt.mp (reference_lt matched named follows)
  have within := le_reach_of_inOrder held.strict named follows ordered
  have least : start.toNat ≤ reference.toNat ∧ reference.toNat ≤ front stream start past := by
    rcases List.mem_cons.mp origin with rfl | left
    · exact ⟨Nat.le_refl _, Nat.le_add_right _ _⟩
    · have := held.mem_accepted_iff.mp left
      omega
  refine ⟨by omega, ?_⟩
  cases marked : flow.lowWater? stream with
  | none =>
    rw [reach_eq_of_none marked] at within
    omega
  | some delivered =>
    have moved := held.mem_accepted_iff.mp (held.marked delivered marked)
    rw [reach_eq marked] at within
    omega

theorem Continues.extend {later : List (Moment τ)} (continues : Continues interest stream start past) :
    Continues interest stream start (past ++ later) := by
  obtain ⟨reference, origin, same⟩ := continues
  refine ⟨reference, ?_, same⟩
  rw [accepted, numbers_append]
  exact List.mem_append_left (accepted stream later) origin

theorem succeeding_new {config : FlowConfig} (strict : config.strictSegmentOrder = true) (transport : τ) :
    Succeeding stream start [] (Flow.new config transport) where
  strict := strict
  enabled := rfl
  wellFormed := Table.wellFormed_empty
  consecutive := rfl
  drawn := fun _ left => absurd left List.not_mem_nil
  stored := fun _ stored => absurd stored List.not_mem_nil
  marked := fun _ marked => absurd marked (by simp [lowWater?, Flow.new, NameIndex.find?_eq])
  waits := fun _ _ waits => absurd waits List.not_mem_nil

end States

variable [Transport τ]

section Steps
variable {stream : Name} {start number : UInt64} {past : List (Moment τ)} {moment : Moment τ} {object : ContentObject}

-- The heart of the argument. A put segment is new, as none is put twice, and so
-- is a buffered one. So the bounds leave no room but for the next number.
theorem Succeeding.due (held : Succeeding stream start past moment.before)
    (step : moment.before.Step moment.event moment.after) (orderly : Orderly stream start past moment.event)
    (accepts : moment.event.accepted? = some object) (named : object.name = stream.segment number) :
    number.toNat = front stream start past + 1 ∧
      (moment.event.put? = some object ∨
        number ∈ supplied stream past ∧ ∃ interest, moment.event = .answered interest object) := by
  have next : ∀ {interest : Interest}, Continues interest stream start past →
      interest.matchesObject object = true → moment.before.inOrder interest object.name = true →
      number ∉ accepted stream past → number.toNat = front stream start past + 1 := by
    intro interest continues matched ordered notLeft
    have bounds := held.bounds continues matched named ordered
    have outside := mt held.mem_accepted_iff.mpr notLeft
    omega
  rcases Event.consumed?_of_accepted? accepts with bypassed | ⟨interest, consumed⟩
  · rw [bypassed] at step
    exact absurd (held.enabled.symm.trans step.disabled_of_bypassed) (by simp)
  · rcases step.consumed_cases held.wellFormed consumed with ⟨pending, delivered, waits, allowed⟩ | ⟨answered, best⟩
    · obtain ⟨matched, ordered⟩ := mayHave_iff.mp allowed
      have touches := Interest.touches_of_matchesObject matched named
      have puts : moment.event.put? = some object := by rw [delivered]; rfl
      have notLeft := mt (held.drawn number) (orderly.once object number puts named)
      exact ⟨next (held.waits interest pending waits touches) matched ordered notLeft, Or.inl puts⟩
    · obtain ⟨stored, matched, whole⟩ := bestBuffered?_cases best
      have touches := Interest.touches_of_matchesObject matched named
      obtain ⟨put, notLeft⟩ := held.stored object stored number named
      have continues := orderly.asked interest (by rw [answered]; rfl) touches
      have ordered : moment.before.inOrder interest object.name = true := by
        obtain ⟨reference, -, rfl⟩ := continues
        rcases whole with spelled | ⟨ordered, -⟩
        · exact absurd spelled (ne_fullName named (Interest.follows_next stream reference))
        · exact ordered
      exact ⟨next continues matched ordered notLeft, Or.inr ⟨put, interest, answered⟩⟩

theorem Succeeding.consecutive_snoc (held : Succeeding stream start past moment.before)
    (step : moment.before.Step moment.event moment.after) (orderly : Orderly stream start past moment.event) :
    (accepted stream (past ++ [moment])).map UInt64.toNat
      = List.range' (start.toNat + 1) (accepted stream (past ++ [moment])).length := by
  by_cases leaves : ∃ object number, moment.event.accepted? = some object ∧ object.name = stream.segment number
  · obtain ⟨object, number, accepts, named⟩ := leaves
    have due := (held.due step orderly accepts named).1
    rw [accepted, numbers_append, numbers_single accepts named, List.map_append, List.length_append,
      held.consecutive, List.length_singleton, List.range'_concat]
    rw [List.map_singleton, due, front, Nat.one_mul, Nat.add_right_comm]
  · have silent : numbers stream Event.accepted? [moment] = [] :=
      numbers_single_of_ne fun object accepts number named => leaves ⟨object, number, accepts, named⟩
    rw [accepted, numbers_append, silent, List.append_nil]
    exact held.consecutive

theorem Succeeding.drawn_snoc (held : Succeeding stream start past moment.before)
    (step : moment.before.Step moment.event moment.after) (orderly : Orderly stream start past moment.event)
    (left : number ∈ accepted stream (past ++ [moment])) : number ∈ supplied stream (past ++ [moment]) := by
  rcases mem_numbers_snoc.mp left with earlier | ⟨object, accepts, named⟩
  · exact mem_numbers_snoc.mpr (Or.inl (held.drawn number earlier))
  · rcases (held.due step orderly accepts named).2 with puts | ⟨put, -⟩
    · exact mem_numbers_snoc.mpr (Or.inr ⟨object, puts, named⟩)
    · exact mem_numbers_snoc.mpr (Or.inl put)

theorem Succeeding.stored_snoc (held : Succeeding stream start past moment.before)
    (step : moment.before.Step moment.event moment.after) (orderly : Orderly stream start past moment.event)
    (stored : object ∈ moment.after.buffer.values) (named : object.name = stream.segment number) :
    number ∈ supplied stream (past ++ [moment]) ∧ number ∉ accepted stream (past ++ [moment]) := by
  rcases step.stored_cases stored with earlier | buffered
  · obtain ⟨put, notLeft⟩ := held.stored object earlier number named
    refine ⟨mem_numbers_snoc.mpr (Or.inl put), ?_⟩
    intro left
    rcases mem_numbers_snoc.mp left with before | ⟨other, accepts, otherNamed⟩
    · exact notLeft before
    -- A segment leaves by its only put, and then it was not buffered, or out of the buffer.
    · rcases (held.due step orderly accepts otherNamed).2 with puts | ⟨-, interest, answered⟩
      · exact orderly.once other number puts otherNamed put
      · rw [answered] at step
        exact step.name_ne_of_answered stored (named.trans otherNamed.symm)
  · have puts : moment.event.put? = some object := by rw [buffered]; rfl
    refine ⟨mem_numbers_snoc.mpr (Or.inr ⟨object, puts, named⟩), ?_⟩
    intro left
    rcases mem_numbers_snoc.mp left with before | ⟨other, accepts, -⟩
    · exact orderly.once object number puts named (held.drawn number before)
    · rw [buffered] at accepts
      exact absurd accepts (by simp [Event.accepted?])

theorem Succeeding.marked_snoc (held : Succeeding stream start past moment.before)
    (step : moment.before.Step moment.event moment.after) (marked : moment.after.lowWater? stream = some number) :
    number ∈ accepted stream (past ++ [moment]) := by
  rcases step.lowWater?_cases stream with same | forgotten | ⟨passed, advances⟩
  · exact mem_numbers_snoc.mpr (Or.inl (held.marked number (same ▸ marked)))
  · rw [forgotten] at marked
    exact absurd marked (by simp)
  · have moved := step.lowWater?_of_advances advances
    obtain rfl := Option.some.inj (moved.symm.trans marked)
    obtain ⟨interest, object, consumed, named⟩ := advances
    rcases moment.before.advance_cases stream passed with delivered | kept
    · rw [delivered]
      exact mem_numbers_snoc.mpr (Or.inr ⟨object, Event.accepted?_of_consumed? consumed, named⟩)
    · exact mem_numbers_snoc.mpr (Or.inl (held.marked _ kept))

theorem Succeeding.step (held : Succeeding stream start past moment.before)
    (step : moment.before.Step moment.event moment.after) (orderly : Orderly stream start past moment.event) :
    Succeeding stream start (past ++ [moment]) moment.after where
  strict := step.strict.trans held.strict
  enabled := by
    rcases step.enabled_cases with same | ⟨enabled, set, same⟩
    · exact same.trans held.enabled
    · exact same.trans (orderly.on enabled set)
  wellFormed := step.wellFormed held.wellFormed
  consecutive := held.consecutive_snoc step orderly
  drawn := fun _ => held.drawn_snoc step orderly
  stored := fun _ stored _ => held.stored_snoc step orderly stored
  marked := fun _ => held.marked_snoc step
  waits := by
    intro interest pending waits touches
    rcases step.waits_cases held.wellFormed waits with earlier | registered
    · exact (held.waits interest pending earlier touches).extend
    · exact (orderly.asked interest (by rw [registered]; rfl) touches).extend

end Steps

/-- Segments leave in succession: no order of puts and interests, no failure of
the transport, no expiry and no change of namespaces makes a gap or a repetition. -/
theorem segments_leave_in_succession (config : FlowConfig) (transport : τ) (requests : List Request)
    (stream : Name) (start : UInt64) (strict : config.strictSegmentOrder = true)
    (on : Request.setEnabled false ∉ requests)
    (once : ∀ number, (((requests.zip ((Flow.new config transport).run requests).1).filterMap
      succeeded?).map (·.name)).count (stream.segment number) ≤ 1)
    (asked : ∀ past moment later interest,
      (Flow.new config transport).history requests = past ++ moment :: later →
      moment.event.asked? = some interest → interest.name.touches stream = true →
      Continues interest stream start past) :
    (accepted stream ((Flow.new config transport).history requests)).map UInt64.toNat
      = List.range' (start.toNat + 1) (accepted stream ((Flow.new config transport).history requests)).length := by
  have trail := (Flow.new config transport).trail_history requests
  have single : ∀ number,
      (supplied stream ((Flow.new config transport).history requests)).count number ≤ 1 := by
    intro number
    rw [supplied, count_numbers, put?_history]
    exact once number
  have succeeding := trail.carries (List.nil_append _).symm (Succeeding stream start)
    (succeeding_new strict transport) ?_
  · exact succeeding.consecutive
  · intro past later moment divided step held
    apply held.step step
    constructor
    case on =>
      intro enabled managed
      have listed : moment ∈ (Flow.new config transport).history requests := by simp [divided]
      cases enabled with
      | true => rfl
      | false => exact absurd (managed_of_mem_history listed managed) on
    case once =>
      intro object number puts named
      exact not_mem_of_count_le_one (divided ▸ single number) puts named
    case asked =>
      intro interest asks touches
      exact asked past moment later interest divided asks touches

/-- The segments accepted are those that the transport takes of what it is handed. -/
theorem accepted_history (flow : Flow τ) (requests : List Request) (stream : Name) :
    accepted stream (flow.history requests)
      = (offer flow.transport ((flow.history requests).filterMap (·.event.handed?))).1.filterMap
          (·.name.numberIn? stream) := by
  rw [offer_history]
  exact numbers_eq Event.accepted?

def Sample.reading : List Request :=
  [.addNamespace Sample.stream, .put (segment 2) ⟨1000⟩, .ask [follower 0] ⟨1000⟩, .put (segment 1) ⟨1000⟩,
    .ask [follower 1] ⟨1000⟩, .put (segment 4) ⟨2000⟩, .ask [follower 2] ⟨2000⟩, .put (segment 3) ⟨9000⟩,
    .ask [follower 2, follower 3] ⟨9000⟩]

open Flow.Sample in
theorem reading_leaves_in_succession :
    let history := (Flow.new .standard ([] : List ContentObject)).history reading
    (accepted Sample.stream history).length = 4 ∧
      (accepted Sample.stream history).map UInt64.toNat
        = List.range' ((0 : UInt64).toNat + 1) (accepted Sample.stream history).length := by
  intro history
  refine ⟨by decide +kernel, ?_⟩
  apply segments_leave_in_succession .standard [] reading Sample.stream 0 rfl (by decide +kernel)
  · exact fun number => List.nodup_iff_count.mp (by decide +kernel) _
  · intro past moment later interest divided asks touches
    have turns : ∀ index : Fin history.length, (history.get index).event.asked?.all (fun interest =>
        !interest.name.touches Sample.stream
          || decide (Continues interest Sample.stream 0 (history.take index))) = true := by
      decide +kernel
    have within : past.length < history.length := by simp [history, divided]
    have turn := turns ⟨past.length, within⟩
    simpa [history, divided, asks, touches] using turn

end Flow

end NamedContent
