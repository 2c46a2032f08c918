import NamedContent.DeliveryQueue
import NamedContent.Proofs.Flow.Conservation
import NamedContent.Proofs.Flow.Failing
import NamedContent.Proofs.Flow.Succession

/-! A stream on its way to one reader through a queue.

While its segments leave in succession, each segment that was put is buffered or
has left, and the queue holds those that have left and have not been received,
in the order of their numbers. -/

set_option autoImplicit false

namespace NamedContent

theorem DeliveryQueue.deliver_of_attended {queue : DeliveryQueue} (attended : queue.receiverGone = false)
    (object : ContentObject) :
    Transport.deliver queue object = (.ok (), { queue with backlog := object :: queue.backlog }) := by
  change DeliveryQueue.deliver queue object = _
  simp [deliver, attended]

namespace Flow

section Membership
variable {τ : Type} {stream : Name} {past : List (Moment τ)} {moment : Moment τ} {object : ContentObject} {number : UInt64}

theorem mem_entered_snoc : object ∈ entered (past ++ [moment]) ↔ object ∈ entered past ∨ moment.event.put? = some object := by
  simp [entered]

theorem mem_sent_snoc : object ∈ sent (past ++ [moment]) ↔ object ∈ sent past ∨ moment.event.accepted? = some object := by
  simp [sent]

theorem entered_append_of_silent {more : List (Moment τ)} (silent : entered more = 0) :
    entered (past ++ more) = entered past := by
  rw [entered, total_append, ← entered, ← entered, silent, add_zero]

theorem mem_numbers_iff {pick : Event → Option ContentObject} :
    number ∈ numbers stream pick past ↔
      ∃ object ∈ total (fun moment => (pick moment.event).toList) past, object.name = stream.segment number := by
  simp [numbers_eq, total_toList, Name.numberIn?_eq_some_iff]

end Membership

theorem Step.queue_eq {before after : Flow DeliveryQueue} {event : Event} (step : before.Step event after)
    (attended : before.transport.receiverGone = false) :
    after.transport.objects = before.transport.objects ++ event.accepted?.toList ∧
      after.transport.senderGone = before.transport.senderGone ∧ after.transport.receiverGone = false := by
  have delivers := DeliveryQueue.deliver_of_attended attended
  rcases step.transport_cases with
    ⟨object, -, accepts, handed⟩ | ⟨object, fault, -, silent, handed⟩ | ⟨-, silent, same⟩
  · rw [delivers] at handed
    rw [← (Prod.mk.inj handed).2, accepts]
    exact ⟨List.reverse_cons, rfl, attended⟩
  · rw [delivers] at handed
    exact absurd (Prod.mk.inj handed).1 (by simp)
  · rw [same, silent]
    exact ⟨(List.append_nil _).symm, rfl, attended⟩

/-- Neither the flow is managed nor the stream is disturbed: nothing is put on
it but new segments, and who asks for it continues it. -/
structure Undisturbed {τ : Type} (stream : Name) (start : UInt64) (past : List (Moment τ)) (event : Event) : Prop where
  unmanaged : ∀ request, event ≠ .managed request
  fresh : ∀ object number, event.put? = some object → object.name = stream.segment number →
    number ∉ supplied stream past
  placed : ∀ object, event.put? = some object → object.name.touches stream = true →
    ∃ number, object.name = stream.segment number
  asked : ∀ interest, event.asked? = some interest → interest.name.touches stream = true →
    Continues interest stream start past

theorem Undisturbed.orderly {τ : Type} {stream : Name} {start : UInt64} {past : List (Moment τ)} {event : Event}
    (calm : Undisturbed stream start past event) : Orderly stream start past event where
  on := fun _ managed => absurd managed (calm.unmanaged _)
  once := calm.fresh
  asked := calm.asked

/-- What holds of a stream in succession and of a queue from which as many of
its segments have been received. -/
structure Served (stream : Name) (start : UInt64) (past : List (Moment DeliveryQueue)) (flow : Flow DeliveryQueue)
    (received : Nat) : Prop extends Succeeding stream start past flow where
  opened : flow.closed = false
  covered : flow.covers stream = true
  sending : flow.transport.senderGone = false
  attended : flow.transport.receiverGone = false
  placed : ∀ object ∈ entered past, object.name.touches stream = true → ∃ number, object.name = stream.segment number
  single : ∀ object ∈ entered past, ∀ other ∈ entered past, ∀ number,
    object.name = stream.segment number → other.name = stream.segment number → object = other
  origin : ∀ object, object ∈ flow.buffer.values ∨ object ∈ sent past → object ∈ entered past
  kept : ∀ object ∈ entered past, ∀ number, object.name = stream.segment number →
    object ∈ flow.buffer.values ∨ object ∈ sent past
  queued : ∀ object ∈ flow.transport.objects, object ∈ sent past
  /-- The queue holds what has left from the first segment not received on. -/
  outstanding : flow.transport.objects.filterMap (·.name.numberIn? stream) = (accepted stream past).drop received
  within : received ≤ (accepted stream past).length

namespace Served

variable {stream : Name} {start : UInt64} {past : List (Moment DeliveryQueue)} {flow : Flow DeliveryQueue}
variable {received : Nat}

-- A segment leaves the buffer for the transport alone: no other is put in its place.
theorem not_lost {moment : Moment DeliveryQueue} (held : Served stream start past moment.before received)
    (calm : Undisturbed stream start past moment.event) {object : ContentObject} {number : UInt64}
    (named : object.name = stream.segment number) : object ∉ moment.lost := by
  obtain ⟨before, event, after⟩ := moment
  intro lost
  rcases List.mem_append.mp lost with replaced | discarded
  · cases event with
    | buffered other =>
      obtain ⟨stored, same⟩ := NameIndex.find?_eq_some_iff.mp (Option.mem_toList.mp replaced)
      exact calm.fresh other number rfl (same.symm.trans named) (held.stored object stored number named).1
    | _ => exact List.not_mem_nil replaced
  · cases event with
    | managed request => exact calm.unmanaged request rfl
    | _ => exact List.not_mem_nil discarded

theorem single_snoc {moment : Moment DeliveryQueue} (held : Served stream start past moment.before received)
    (calm : Undisturbed stream start past moment.event) {object other : ContentObject} {number : UInt64}
    (found : object ∈ entered (past ++ [moment])) (otherFound : other ∈ entered (past ++ [moment]))
    (named : object.name = stream.segment number) (otherNamed : other.name = stream.segment number) :
    object = other := by
  -- What is put is new, so it shares its number with nothing put before.
  have new {first second : ContentObject} (puts : moment.event.put? = some first) (earlier : second ∈ entered past)
      (firstNamed : first.name = stream.segment number) : second.name ≠ stream.segment number :=
    fun secondNamed => calm.fresh first number puts firstNamed (mem_numbers_iff.mpr ⟨second, earlier, secondNamed⟩)
  rcases mem_entered_snoc.mp found with earlier | puts
  · rcases mem_entered_snoc.mp otherFound with otherEarlier | otherPuts
    · exact held.single object earlier other otherEarlier number named otherNamed
    · exact absurd named (new otherPuts earlier otherNamed)
  · rcases mem_entered_snoc.mp otherFound with otherEarlier | otherPuts
    · exact absurd otherNamed (new puts otherEarlier named)
    · exact Option.some.inj (puts.symm.trans otherPuts)

theorem origin_snoc {moment : Moment DeliveryQueue} (held : Served stream start past moment.before received)
    (step : moment.before.Step moment.event moment.after) {object : ContentObject}
    (there : object ∈ moment.after.buffer.values ∨ object ∈ sent (past ++ [moment])) :
    object ∈ entered (past ++ [moment]) := by
  have brought (present : object ∈ moment.before.buffer.values ∨ moment.event.put? = some object) :
      object ∈ entered (past ++ [moment]) :=
    mem_entered_snoc.mpr (present.imp_left fun stored => held.origin object (Or.inl stored))
  rcases there with stored | left
  · exact brought (step.mem_balance.mp (Or.inl stored))
  · rcases mem_sent_snoc.mp left with earlier | accepts
    · exact mem_entered_snoc.mpr (Or.inl (held.origin object (Or.inr earlier)))
    · exact brought (step.mem_balance.mp (Or.inr (Or.inl accepts)))

theorem kept_snoc {moment : Moment DeliveryQueue} (held : Served stream start past moment.before received)
    (step : moment.before.Step moment.event moment.after) (calm : Undisturbed stream start past moment.event)
    {object : ContentObject} {number : UInt64} (found : object ∈ entered (past ++ [moment]))
    (named : object.name = stream.segment number) :
    object ∈ moment.after.buffer.values ∨ object ∈ sent (past ++ [moment]) := by
  have stays (present : object ∈ moment.before.buffer.values ∨ moment.event.put? = some object) :
      object ∈ moment.after.buffer.values ∨ object ∈ sent (past ++ [moment]) := by
    rcases step.mem_balance.mpr present with stored | accepts | lost
    · exact Or.inl stored
    · exact Or.inr (mem_sent_snoc.mpr (Or.inr accepts))
    · exact absurd lost (held.not_lost calm named)
  rcases mem_entered_snoc.mp found with earlier | puts
  · rcases held.kept object earlier number named with stored | left
    · exact stays (Or.inl stored)
    · exact Or.inr (mem_sent_snoc.mpr (Or.inl left))
  · exact stays (Or.inr puts)

theorem step {moment : Moment DeliveryQueue} (held : Served stream start past moment.before received)
    (step : moment.before.Step moment.event moment.after) (calm : Undisturbed stream start past moment.event) :
    Served stream start (past ++ [moment]) moment.after received where
  toSucceeding := held.toSucceeding.step step calm.orderly
  opened := (step.unmanaged_eq calm.unmanaged).1.trans held.opened
  covered := by
    rw [covers, (step.unmanaged_eq calm.unmanaged).2]
    exact held.covered
  sending := (step.queue_eq held.attended).2.1.trans held.sending
  attended := (step.queue_eq held.attended).2.2
  placed := by
    intro object found
    rcases mem_entered_snoc.mp found with earlier | puts
    · exact held.placed object earlier
    · exact calm.placed object puts
  single := fun _ found _ otherFound _ => held.single_snoc calm found otherFound
  origin := fun _ => held.origin_snoc step
  kept := fun _ found _ => held.kept_snoc step calm found
  queued := by
    intro object found
    rw [(step.queue_eq held.attended).1, List.mem_append, Option.mem_toList] at found
    exact mem_sent_snoc.mpr (found.imp_left (held.queued object))
  outstanding := by
    rw [(step.queue_eq held.attended).1, List.filterMap_append, held.outstanding,
      ← List.drop_append_of_le_length held.within, accepted, accepted, numbers_append, numbers_singleton]
  within := by
    rw [accepted, numbers_append, List.length_append]
    exact Nat.le_add_right_of_le held.within

theorem follow (held : Served stream start past flow received) {moments : List (Moment DeliveryQueue)}
    {after : Flow DeliveryQueue} (trail : Trail flow moments after)
    (calm : ∀ {earlier later : List (Moment DeliveryQueue)} {moment : Moment DeliveryQueue},
      moments = earlier ++ moment :: later → Undisturbed stream start (past ++ earlier) moment.event) :
    Served stream start (past ++ moments) after received := by
  refine trail.carries (List.nil_append _).symm
    (fun earlier reached => Served stream start (past ++ earlier) reached received) (by simpa using held) ?_
  intro earlier later moment divided step reached
  rw [← List.append_assoc]
  exact reached.step step (calm divided)

theorem put (held : Served stream start past flow received) {object : ContentObject} {now : Timestamp}
    (placed : object.name.touches stream = true → ∃ number, object.name = stream.segment number)
    (fresh : ∀ outcome number, (flow.put object now).1 = .ok outcome → object.name = stream.segment number →
      number ∉ supplied stream past) :
    Served stream start (past ++ flow.putMoments object now) (flow.put object now).2 received := by
  refine held.follow (flow.trail_putMoments object now) fun {earlier later moment} divided => ?_
  have found : moment ∈ flow.putMoments object now := by simp [divided]
  obtain ⟨quiet, unmanaged⟩ := quiet_of_mem_putMoments found
  constructor
  case unmanaged => exact unmanaged
  case fresh =>
    intro other number puts named
    obtain ⟨silent, rfl, outcome, succeeds⟩ := put?_of_putMoments divided puts
    have same : supplied stream (past ++ earlier) = supplied stream past := by
      have nothing : numbers stream Event.put? earlier = [] := by rw [numbers_eq, silent, List.filterMap_nil]
      rw [supplied, numbers_append, nothing, List.append_nil]
    exact same ▸ fresh outcome number succeeds named
  case placed =>
    intro other puts
    obtain ⟨-, rfl, -⟩ := put?_of_putMoments divided puts
    exact placed
  case asked =>
    intro interest asks
    exact absurd (quiet.symm.trans asks) (by simp)

theorem ask (held : Served stream start past flow received) {interests : List Interest} {now : Timestamp}
    (asked : ∀ interest ∈ interests, interest.name.touches stream = true → Continues interest stream start past) :
    Served stream start (past ++ flow.moments (.ask interests now)) (flow.ask interests now).2 received := by
  refine held.follow (flow.trail_moments (.ask interests now)) fun {earlier later moment} divided => ?_
  have found : moment ∈ flow.moments (.ask interests now) := by simp [divided]
  rcases List.mem_cons.mp found with rfl | listed
  · exact ⟨by simp, by simp [Event.put?], by simp [Event.put?], by simp [Event.asked?]⟩
  · obtain ⟨interest, member, asks⟩ := asked_of_mem_askMoments listed
    have silent := Event.put?_of_asked? asks
    constructor
    case unmanaged =>
      rintro request managed
      rw [managed] at asks
      exact absurd asks (by simp [Event.asked?])
    case fresh => exact fun other number puts => absurd (silent.symm.trans puts) (by simp)
    case placed => exact fun other puts => absurd (silent.symm.trans puts) (by simp)
    case asked =>
      intro other otherAsks touches
      obtain rfl := Option.some.inj (asks.symm.trans otherAsks)
      exact (asked interest member touches).extend

theorem receive (held : Served stream start past flow received) {queue : DeliveryQueue} {more : Nat}
    (sending : queue.senderGone = false) (attended : queue.receiverGone = false)
    (left : ∀ object ∈ queue.objects, object ∈ flow.transport.objects)
    (outstanding : queue.objects.filterMap (·.name.numberIn? stream) = (accepted stream past).drop more)
    (within : more ≤ (accepted stream past).length) :
    Served stream start past { flow with transport := queue } more := {
  held with
  sending := sending
  attended := attended
  queued := fun object found => held.queued object (left object found)
  outstanding := outstanding
  within := within }

/-! A reader that asks for what follows the last segment it has received. -/

variable {last : UInt64}

abbrev following (stream : Name) (last : UInt64) : Interest := .next (stream.segment last) stream.length

@[simp] theorem name_following (stream : Name) (last : UInt64) : (following stream last).name = stream := by
  rw [following, Interest.next_segment, Interest.ofName]

theorem outstanding_eq (held : Served stream start past flow received) :
    ((accepted stream past).drop received).map UInt64.toNat
      = List.range' (start.toNat + received + 1) ((accepted stream past).length - received) := by
  rw [List.map_drop, held.consecutive, List.drop_range', Nat.mul_one, Nat.add_right_comm]

theorem outstanding_cons (held : Served stream start past flow received) {number : UInt64} {rest : List UInt64}
    (first : (accepted stream past).drop received = number :: rest) :
    received < (accepted stream past).length ∧ number.toNat = start.toNat + received + 1 ∧
      rest = (accepted stream past).drop (received + 1) := by
  have within : received < (accepted stream past).length := by
    by_contra none
    rw [List.drop_eq_nil_of_le (Nat.not_lt.mp none)] at first
    exact absurd first (by simp)
  refine ⟨within, ?_, by rw [← List.drop_drop, first, List.drop_one, List.tail_cons]⟩
  have numbered := held.outstanding_eq
  obtain ⟨beyond, some⟩ := Nat.exists_eq_succ_of_ne_zero (Nat.sub_ne_zero_of_lt within)
  rw [first, List.map_cons, some, List.range'_succ] at numbered
  exact (List.cons.inj numbered).1

theorem continues (held : Served stream start past flow received) (position : last.toNat = start.toNat + received) :
    Continues (following stream last) stream start past := by
  refine ⟨last, ?_, rfl⟩
  have within := held.within
  by_cases first : last = start
  · exact List.mem_cons.mpr (Or.inl first)
  · have moved : last.toNat ≠ start.toNat := mt UInt64.toNat_inj.mp first
    refine List.mem_cons_of_mem _ (held.mem_accepted_iff.mpr ?_)
    rw [front]
    omega

theorem named_of_matched (held : Served stream start past flow received) {object : ContentObject}
    (brought : object ∈ entered past) (matched : (following stream last).matchesObject object = true) :
    ∃ number, object.name = stream.segment number := by
  have touches := Interest.touches_name_of_matchesObject matched
  rw [name_following, Name.touches_comm] at touches
  exact held.placed object brought touches

theorem matches_iff (held : Served stream start past flow received) (position : last.toNat = start.toNat + received)
    {object : ContentObject} (found : object ∈ flow.transport.objects) :
    (following stream last).matchesObject object = true ↔ (object.name.numberIn? stream).isSome = true := by
  constructor
  · intro matched
    have brought := held.origin object (Or.inr (held.queued object found))
    obtain ⟨number, named⟩ := held.named_of_matched brought matched
    rw [Name.numberIn?_eq_some_iff.mpr named, Option.isSome_some]
  · intro onStream
    obtain ⟨number, known⟩ := Option.isSome_iff_exists.mp onStream
    have listed : number ∈ (accepted stream past).drop received := by
      rw [← held.outstanding]
      exact List.mem_filterMap.mpr ⟨object, found, known⟩
    have later : number.toNat ∈ ((accepted stream past).drop received).map UInt64.toNat := List.mem_map_of_mem listed
    rw [held.outstanding_eq, List.mem_range'_1] at later
    refine Interest.matchesObject_next (Name.numberIn?_eq_some_iff.mp known) (UInt64.lt_iff_toNat_lt.mpr ?_)
    omega

theorem ask_ok (held : Served stream start past flow received) (interest : Interest) (now : Timestamp) :
    ∃ count, (flow.ask [interest] now).1 = .ok count := by
  rcases asked : (flow.expire now).askOne interest now with ⟨failure | hit, after⟩
  · obtain ⟨object, fault, transport, -, refused, -⟩ := askOne_failed asked
    have takes := DeliveryQueue.deliver_of_attended held.attended object
    exact absurd (Prod.mk.inj (takes.symm.trans refused)).1 (by simp)
  · exact ⟨_, by rw [Flow.ask, askEach, asked]; rfl⟩

theorem heeded (held : Served stream start past flow received) : flow.ignores (following stream last) = false := by
  refine ignores_eq_false held.opened ?_ (by rw [following, Interest.next_segment]; rfl)
  rw [name_following]
  exact held.covered

-- If the segment asked for is in the buffer, the interest draws one.
theorem lt_of_stored (held : Served stream start past flow received) (position : last.toNat = start.toNat + received)
    {object : ContentObject} {number : UInt64} (stored : object ∈ flow.buffer.values)
    (named : object.name = stream.segment number) (due : number.toNat = last.toNat + 1) (now : Timestamp) :
    received < (accepted stream (past ++ flow.moments (.ask [following stream last] now))).length := by
  have matched : (following stream last).matchesObject object = true :=
    Interest.matchesObject_next named (UInt64.lt_iff_toNat_lt.mpr (by omega))
  cases best : (flow.expire now).bestBuffered? (following stream last) with
  | none =>
    have late := inOrder_eq_false_of_bestBuffered? best (show object ∈ (flow.expire now).buffer.values from stored) matched
    have beyond := reach_lt_of_inOrder named (Interest.follows_next stream last) late
    have reaches := (flow.expire now).lt_reach stream last
    omega
  | some other =>
    obtain ⟨drawn, drawnMatched, -⟩ := bestBuffered?_cases best
    obtain ⟨next, nextNamed⟩ := held.named_of_matched (held.origin other (Or.inl drawn)) drawnMatched
    have taken := DeliveryQueue.deliver_of_attended held.attended other
    obtain ⟨after, -, -, -, moments⟩ := ask_single held.heeded best taken
    have one : numbers stream Event.accepted? (flow.moments (.ask [following stream last] now)) = [next] := by
      simp [moments, numbers, Event.accepted?, Name.numberIn?_eq_some_iff.mpr nextNamed]
    rw [accepted, numbers_append, one, List.length_append, List.length_singleton]
    exact Nat.lt_succ_of_le held.within

-- If it was put at all, it is drawn or has left before.
theorem lt_of_entered (held : Served stream start past flow received) (position : last.toNat = start.toNat + received)
    {object : ContentObject} {number : UInt64} (brought : object ∈ entered past)
    (named : object.name = stream.segment number) (due : number.toNat = last.toNat + 1) (now : Timestamp) :
    received < (accepted stream (past ++ flow.moments (.ask [following stream last] now))).length := by
  rcases held.kept object brought number named with stored | left
  · exact held.lt_of_stored position stored named due now
  · have bound := (held.mem_accepted_iff.mp (mem_numbers_iff.mpr ⟨object, left, named⟩)).2
    rw [front] at bound
    have grown : accepted stream (past ++ flow.moments (.ask [following stream last] now))
        = accepted stream past ++ accepted stream (flow.moments (.ask [following stream last] now)) := numbers_append
    rw [grown, List.length_append]
    omega

end Served

end Flow

end NamedContent
