import NamedContent.Controller.Pull
import NamedContent.Proofs.Flow.Serving

/-! A stream read through pulls, one segment after the other.

The reader asks for what follows the last segment it has received. Whatever is
put in between, and in whatever order, the first segment in the queue is the one
it waits for, and if there is none that segment has not been put. -/

set_option autoImplicit false

namespace NamedContent

section Values
variable {α β : Type} {pick : α → Option β} {test : α → Bool} {values : List α}

-- The first value that passes is the first that is picked, if the two agree.
theorem filterMap_of_find? (agree : ∀ value ∈ values, test value = true ↔ (pick value).isSome = true) {first : α}
    (found : values.find? test = some first) :
    ∃ picked, pick first = some picked ∧ values.filterMap pick = picked :: (values.eraseP test).filterMap pick := by
  induction values with
  | nil => exact absurd found (by simp)
  | cons head rest ih =>
    have headAgrees := agree head List.mem_cons_self
    by_cases passes : test head = true
    · rw [List.find?_cons_of_pos passes] at found
      obtain rfl := Option.some.inj found
      obtain ⟨picked, known⟩ := Option.isSome_iff_exists.mp (headAgrees.mp passes)
      exact ⟨picked, known, by simp [List.eraseP_cons_of_pos passes, known]⟩
    · rw [List.find?_cons_of_neg passes] at found
      have skipped : pick head = none := by simpa using mt headAgrees.mpr passes
      obtain ⟨picked, known, later⟩ := ih (fun value member => agree value (List.mem_cons_of_mem _ member)) found
      exact ⟨picked, known, by simp [List.eraseP_cons_of_neg passes, skipped, later]⟩

theorem filterMap_eraseP_of_skipped (skipped : ∀ value ∈ values, test value = true → pick value = none) :
    (values.eraseP test).filterMap pick = values.filterMap pick := by
  induction values with
  | nil => rfl
  | cons head rest ih =>
    by_cases passes : test head = true
    · simp [List.eraseP_cons_of_pos passes, skipped head List.mem_cons_self passes]
    · have later := ih fun value member => skipped value (List.mem_cons_of_mem _ member)
      simp [List.eraseP_cons_of_neg passes, List.filterMap_cons, later]

end Values

namespace Controller

variable {controller : Controller DeliveryQueue} {interest : Interest} {count : Nat} {after : Flow DeliveryQueue}

theorem pull_error {failure : Failure} (asked : controller.flow.ask [interest] controller.now = (.error failure, after))
    (timeout : Duration) : controller.pull interest timeout = (.error failure, { controller with flow := after }) := by
  simp [pull, Controller.ask, step, asked]

theorem pull_some (asked : controller.flow.ask [interest] controller.now = (.ok count, after)) {object : ContentObject}
    (found : after.transport.objects.find? interest.matchesObject = some object) (timeout : Duration) :
    controller.pull interest timeout
      = (.ok object,
        { controller with flow := { after with transport := after.transport.without interest.matchesObject } }) := by
  simp [pull, Controller.ask, step, asked, receive, withTransport, DeliveryQueue.receive, DeliveryQueue.receiveWhere,
    found]

theorem pull_none (asked : controller.flow.ask [interest] controller.now = (.ok count, after))
    (nothing : after.transport.objects.find? interest.matchesObject = none)
    (sending : after.transport.senderGone = false) (timeout : Duration) :
    controller.pull interest timeout
      = (.error (.timeout interest.name timeout), { controller with flow := after }.wait timeout) := by
  simp [pull, Controller.ask, step, asked, receive, withTransport, DeliveryQueue.receive, DeliveryQueue.receiveWhere,
    nothing, sending]

end Controller

namespace Flow.Served

variable {stream : Name} {start last : UInt64} {past : List (Moment DeliveryQueue)} {received : Nat}
variable {flow : Flow DeliveryQueue} {controller : Controller DeliveryQueue}

-- The interest tells the segments of the stream from all else that is queued.
theorem following_iff (held : Served stream start past flow received) (position : last.toNat = start.toNat + received) :
    ∀ object ∈ flow.transport.objects,
      (following stream last).matchesObject object = true ↔ (object.name.numberIn? stream).isSome = true :=
  fun _ => held.matches_iff position

-- The first segment in the queue is the one that is due.
theorem receive_first (held : Served stream start past flow received) (position : last.toNat = start.toNat + received)
    {object : ContentObject} (found : flow.transport.objects.find? (following stream last).matchesObject = some object) :
    object ∈ entered past ∧ ∃ number, object.name = stream.segment number ∧ number.toNat = last.toNat + 1 ∧
      Served stream start past
        { flow with transport := flow.transport.without (following stream last).matchesObject } (received + 1) := by
  obtain ⟨number, known, rest⟩ := filterMap_of_find? (held.following_iff position) found
  rw [held.outstanding] at rest
  obtain ⟨within, due, left⟩ := held.outstanding_cons rest
  refine ⟨held.origin object (Or.inr (held.queued object (List.mem_of_find?_eq_some found))), number,
    Name.numberIn?_eq_some_iff.mp known, by rw [due, position], ?_⟩
  refine held.receive held.sending held.attended ?_ ?_ within
  · intro other kept
    rw [DeliveryQueue.objects_without] at kept
    exact List.mem_of_mem_eraseP kept
  · rw [DeliveryQueue.objects_without, left]

-- Without one in the queue all that has left has been received.
theorem length_accepted_le (held : Served stream start past flow received)
    (position : last.toNat = start.toNat + received)
    (nothing : flow.transport.objects.find? (following stream last).matchesObject = none) :
    (accepted stream past).length ≤ received := by
  rw [← List.drop_eq_nil_iff, ← held.outstanding, List.filterMap_eq_nil_iff]
  intro object member
  simpa using mt (held.following_iff position object member).mpr (List.find?_eq_none.mp nothing object member)

-- Asking for what follows brings nothing in and leaves the reader where it was.
theorem ask_following (held : Served stream start past controller.flow received)
    (position : last.toNat = start.toNat + received) :
    ∃ count next more, controller.flow.ask [following stream last] controller.now = (.ok count, next) ∧
      entered more = 0 ∧ Served stream start (past ++ more) next received ∧
      ∀ object ∈ entered past, ∀ number, object.name = stream.segment number → number.toNat = last.toNat + 1 →
        received < (accepted stream (past ++ more)).length := by
  obtain ⟨count, answered⟩ := held.ask_ok (following stream last) controller.now
  refine ⟨count, _, controller.flow.moments (.ask [following stream last] controller.now), Prod.ext answered rfl, ?_, ?_,
    ?_⟩
  · rw [entered_moments]
    rfl
  · exact held.ask fun interest member _ => List.mem_singleton.mp member ▸ held.continues position
  · exact fun object brought number named due => held.lt_of_entered position brought named due controller.now

-- The heart of the argument: a pull brings the next segment if it was put, and
-- else nothing at all.
theorem pull_cases (held : Served stream start past controller.flow received)
    (position : last.toNat = start.toNat + received) :
    ∃ after more, entered more = 0 ∧
      ((∃ object number, controller.pullNext (stream.segment last) stream.length .zero = (.ok object, after) ∧
          object ∈ entered past ∧ object.name = stream.segment number ∧ number.toNat = last.toNat + 1 ∧
          Served stream start (past ++ more) after.flow (received + 1)) ∨
        controller.pullNext (stream.segment last) stream.length .zero = (.error (.timeout stream .zero), after) ∧
          (∀ object ∈ entered past, ∀ number, object.name = stream.segment number → number.toNat ≠ last.toNat + 1) ∧
          Served stream start (past ++ more) after.flow received) := by
  obtain ⟨count, next, more, asked, silent, reached, drawn⟩ := held.ask_following position
  cases found : next.transport.objects.find? (following stream last).matchesObject with
  | some object =>
    obtain ⟨brought, number, named, due, onward⟩ := reached.receive_first position found
    rw [entered_append_of_silent silent] at brought
    exact ⟨_, more, silent, Or.inl ⟨object, number, Controller.pull_some asked found .zero, brought, named, due, onward⟩⟩
  | none =>
    have pulled := Controller.pull_none asked found reached.sending .zero
    rw [name_following] at pulled
    refine ⟨_, more, silent, Or.inr ⟨pulled, ?_, reached⟩⟩
    intro object brought number named due
    exact absurd (reached.length_accepted_le position found) (Nat.not_le.mpr (drawn object brought number named due))

end Flow.Served

/-- A session with one reader of a stream: the controller, the number of the
segment received last, and the objects whose puts succeeded.

Anything may be put and asked for beside the stream, and the clock may show any
time. On the stream there are segments alone, none of them taken in twice, and
one interest after the other, for what follows the segment received last. -/
inductive Reading (stream : Name) (start : UInt64) : Controller DeliveryQueue → UInt64 → List ContentObject → Prop where
  | opened (config : FlowConfig) (namespaces : List Name) (clock : Clock)
      (strict : config.strictSegmentOrder = true) (covered : namespaces.any (·.isPrefixOf stream) = true) :
      Reading stream start ⟨{ Flow.new config DeliveryQueue.new with namespaces := namespaces }, clock⟩ start []
  | timed {controller : Controller DeliveryQueue} {last : UInt64} {given : List ContentObject}
      (earlier : Reading stream start controller last given) (clock : Clock) :
      Reading stream start ⟨controller.flow, clock⟩ last given
  | put {controller after : Controller DeliveryQueue} {last : UInt64} {given : List ContentObject}
      {object : ContentObject} {outcome : PutOutcome} (earlier : Reading stream start controller last given)
      (placed : object.name.touches stream = true → ∃ number, object.name = stream.segment number)
      (fresh : object.name.touches stream = true → ∀ other ∈ given, other.name ≠ object.name)
      (taken : controller.put object = (.ok outcome, after)) : Reading stream start after last (object :: given)
  | refused {controller after : Controller DeliveryQueue} {last : UInt64} {given : List ContentObject}
      {object : ContentObject} {failure : Failure} (earlier : Reading stream start controller last given)
      (placed : object.name.touches stream = true → ∃ number, object.name = stream.segment number)
      (failed : controller.put object = (.error failure, after)) : Reading stream start after last given
  | received {controller after : Controller DeliveryQueue} {last number : UInt64} {given : List ContentObject}
      {object : ContentObject} (earlier : Reading stream start controller last given)
      (pulled : controller.pullNext (stream.segment last) stream.length .zero = (.ok object, after))
      (named : object.name = stream.segment number) : Reading stream start after number given
  | waited {controller after : Controller DeliveryQueue} {last : UInt64} {given : List ContentObject}
      {failure : Failure} (earlier : Reading stream start controller last given)
      (pulled : controller.pullNext (stream.segment last) stream.length .zero = (.error failure, after)) :
      Reading stream start after last given
  | asked {controller : Controller DeliveryQueue} {last : UInt64} {given : List ContentObject}
      (earlier : Reading stream start controller last given) {interests : List Interest}
      (elsewhere : ∀ interest ∈ interests, interest.name.touches stream = false) :
      Reading stream start (controller.ask interests).2 last given
  | pulled {controller : Controller DeliveryQueue} {last : UInt64} {given : List ContentObject}
      (earlier : Reading stream start controller last given) {interest : Interest} (timeout : Duration)
      (elsewhere : interest.name.touches stream = false) :
      Reading stream start (controller.pull interest timeout).2 last given

namespace Flow

variable {stream : Name} {start last : UInt64} {given : List ContentObject} {flow after : Flow DeliveryQueue}

def Attained (stream : Name) (start last : UInt64) (given : List ContentObject) (flow : Flow DeliveryQueue) : Prop :=
  ∃ past received, Served stream start past flow received ∧ last.toNat = start.toNat + received ∧
    ∀ object, object ∈ entered past ↔ object ∈ given

theorem Served.attained {past more : List (Moment DeliveryQueue)} {received : Nat}
    (led : Served stream start (past ++ more) flow received) (position : last.toNat = start.toNat + received)
    (listed : ∀ object, object ∈ entered past ↔ object ∈ given) (silent : entered more = 0) :
    Attained stream start last given flow := by
  refine ⟨_, received, led, position, fun object => ?_⟩
  rw [entered_append_of_silent silent, listed]

namespace Attained

theorem opened {config : FlowConfig} {namespaces : List Name} (strict : config.strictSegmentOrder = true)
    (covered : namespaces.any (·.isPrefixOf stream) = true) :
    Attained stream start start [] { Flow.new config DeliveryQueue.new with namespaces := namespaces } := by
  have fresh : Succeeding stream start [] (Flow.new config DeliveryQueue.new) := succeeding_new strict _
  refine ⟨[], 0, ?_, rfl, by simp [entered]⟩
  exact {
    fresh with
    opened := rfl
    covered := covered
    sending := rfl
    attended := rfl
    placed := by simp [entered]
    single := by simp [entered]
    origin := by
      intro object there
      rcases there with stored | left
      · exact absurd stored List.not_mem_nil
      · exact left
    kept := by simp [entered]
    queued := by simp [Flow.new]
    outstanding := rfl
    within := Nat.le_refl _ }

theorem put (attained : Attained stream start last given flow) {object : ContentObject} {now : Timestamp}
    (placed : object.name.touches stream = true → ∃ number, object.name = stream.segment number)
    (fresh : ∀ outcome, (flow.put object now).1 = .ok outcome → object.name.touches stream = true →
      ∀ other ∈ given, other.name ≠ object.name) :
    Attained stream start last
      ((succeeded? (.put object now, .put (flow.put object now).1)).toList ++ given) (flow.put object now).2 := by
  obtain ⟨past, received, held, position, listed⟩ := attained
  have new : ∀ outcome number, (flow.put object now).1 = .ok outcome → object.name = stream.segment number →
      number ∉ supplied stream past := by
    intro outcome number taken named before
    obtain ⟨other, brought, otherNamed⟩ := mem_numbers_iff.mp before
    have touches : object.name.touches stream = true := by
      rw [named, Name.touches, Name.isPrefixOf_segment, Bool.or_true]
    exact fresh outcome taken touches other ((listed other).mp brought) (otherNamed.trans named.symm)
  refine ⟨_, received, held.put placed new, position, ?_⟩
  intro other
  have brings : entered (flow.putMoments object now)
      = ↑(succeeded? (.put object now, .put (flow.put object now).1)).toList :=
    flow.entered_moments (.put object now)
  rw [entered, total_append, Multiset.mem_add, ← entered, ← entered, listed, brings, Multiset.mem_coe,
    List.mem_append, or_comm]

theorem put_ok (attained : Attained stream start last given flow) {object : ContentObject} {now : Timestamp}
    {outcome : PutOutcome} (placed : object.name.touches stream = true → ∃ number, object.name = stream.segment number)
    (fresh : object.name.touches stream = true → ∀ other ∈ given, other.name ≠ object.name)
    (taken : flow.put object now = (.ok outcome, after)) : Attained stream start last (object :: given) after := by
  have next : Attained stream start last _ (flow.put object now).2 := attained.put placed fun _ _ => fresh
  rwa [taken] at next

theorem put_error (attained : Attained stream start last given flow) {object : ContentObject} {now : Timestamp}
    {failure : Failure} (placed : object.name.touches stream = true → ∃ number, object.name = stream.segment number)
    (failed : flow.put object now = (.error failure, after)) : Attained stream start last given after := by
  have next : Attained stream start last _ (flow.put object now).2 :=
    attained.put placed fun outcome taken => by simp [failed] at taken
  rwa [failed] at next

theorem ask (attained : Attained stream start last given flow) {interests : List Interest} (now : Timestamp)
    (elsewhere : ∀ interest ∈ interests, interest.name.touches stream = false) :
    Attained stream start last given (flow.ask interests now).2 := by
  obtain ⟨past, received, held, position, listed⟩ := attained
  have led : Served stream start (past ++ flow.moments (.ask interests now)) (flow.ask interests now).2 received :=
    held.ask fun interest member touches => absurd touches (by simp [elsewhere interest member])
  exact led.attained position listed (flow.entered_moments (.ask interests now))

-- An interest in something else takes nothing of the stream out of the queue.
theorem receive (attained : Attained stream start last given flow) {interest : Interest}
    (elsewhere : interest.name.touches stream = false) :
    Attained stream start last given
      { flow with transport := flow.transport.without interest.matchesObject } := by
  obtain ⟨past, received, held, position, listed⟩ := attained
  refine ⟨past, received, held.receive held.sending held.attended ?_ ?_ held.within, position, listed⟩
  · intro object left
    rw [DeliveryQueue.objects_without] at left
    exact List.mem_of_mem_eraseP left
  · rw [DeliveryQueue.objects_without, ← held.outstanding]
    refine filterMap_eraseP_of_skipped fun object _ matched => ?_
    rw [Option.eq_none_iff_forall_ne_some]
    intro number known
    have touches := Interest.touches_of_matchesObject matched (Name.numberIn?_eq_some_iff.mp known)
    exact absurd touches (by simp [elsewhere])

end Attained

end Flow

namespace Controller

theorem put_cases {τ : Type} [Transport τ] {controller after : Controller τ} {object : ContentObject}
    {answer : Except Failure PutOutcome} (put : controller.put object = (answer, after)) :
    controller.flow.put object controller.now = (answer, after.flow) ∨
      ∃ failure middle later, controller.flow.put object controller.now = (.error failure, middle) ∧
        middle.put object later = (answer, after.flow) := by
  rcases first : controller.flow.put object controller.now with ⟨failure | outcome, middle⟩
  · cases failure with
    | capacity highwater =>
      simp only [Controller.put, step, first] at put
      obtain ⟨rfl, rfl⟩ := Prod.mk.inj put
      exact Or.inr ⟨_, middle, _, rfl, rfl⟩
    | _ =>
      simp only [Controller.put, step, first] at put
      obtain ⟨rfl, rfl⟩ := Prod.mk.inj put
      exact Or.inl rfl
  · simp only [Controller.put, step, first] at put
    obtain ⟨rfl, rfl⟩ := Prod.mk.inj put
    exact Or.inl rfl

end Controller

variable {stream : Name} {start last : UInt64} {given : List ContentObject} {controller : Controller DeliveryQueue}

theorem Reading.attained (reading : Reading stream start controller last given) :
    Flow.Attained stream start last given controller.flow := by
  induction reading with
  | opened config namespaces clock strict covered => exact .opened strict covered
  | timed earlier clock ih => exact ih
  | put earlier placed fresh taken ih =>
    rcases Controller.put_cases taken with first | ⟨failure, middle, later, first, second⟩
    · exact ih.put_ok placed fresh first
    · exact (ih.put_error placed first).put_ok placed fresh second
  | refused earlier placed failed ih =>
    rcases Controller.put_cases failed with first | ⟨failure, middle, later, first, second⟩
    · exact ih.put_error placed first
    · exact (ih.put_error placed first).put_error placed second
  | received earlier pulled named ih =>
    obtain ⟨past, received, held, position, listed⟩ := ih
    obtain ⟨next, more, silent, ⟨object, number, brings, -, objectNamed, due, led⟩ | ⟨waits, -⟩⟩ :=
      held.pull_cases position
    · obtain ⟨same, rfl⟩ := Prod.mk.inj (pulled.symm.trans brings)
      obtain rfl := Except.ok.inj same
      obtain ⟨-, rfl⟩ := Name.segment_inj.mp (named.symm.trans objectNamed)
      exact led.attained (by omega) listed silent
    · exact absurd (pulled.symm.trans waits) (by simp)
  | waited earlier pulled ih =>
    obtain ⟨past, received, held, position, listed⟩ := ih
    obtain ⟨next, more, silent, ⟨object, number, brings, -⟩ | ⟨waits, -, led⟩⟩ := held.pull_cases position
    · exact absurd (pulled.symm.trans brings) (by simp)
    · obtain ⟨-, rfl⟩ := Prod.mk.inj (pulled.symm.trans waits)
      exact led.attained position listed silent
  | asked earlier elsewhere ih => exact ih.ask _ elsewhere
  | @pulled controller last given earlier interest timeout elsewhere ih =>
    have led : Flow.Attained stream start last given (controller.flow.ask [interest] controller.now).2 :=
      ih.ask _ fun other member => List.mem_singleton.mp member ▸ elsewhere
    rcases asked : controller.flow.ask [interest] controller.now with ⟨failure | count, next⟩
    · rw [Controller.pull_error asked]
      rwa [asked] at led
    · rw [asked] at led
      cases found : next.transport.objects.find? interest.matchesObject with
      | some object =>
        rw [Controller.pull_some asked found]
        exact led.receive elsewhere
      | none =>
        obtain ⟨past, received, held, -⟩ := id led
        rw [Controller.pull_none asked found held.sending]
        exact led

-- The next segment comes if it was put. There is one object of its number.
theorem Reading.pull_ok (reading : Reading stream start controller last given) {object : ContentObject}
    {number : UInt64} (member : object ∈ given) (named : object.name = stream.segment number)
    (due : number.toNat = last.toNat + 1) :
    (controller.pullNext (stream.segment last) stream.length .zero).1 = .ok object := by
  obtain ⟨past, received, held, position, listed⟩ := reading.attained
  have brought := (listed object).mpr member
  obtain ⟨after, more, -, ⟨other, otherNumber, brings, otherBrought, otherNamed, otherDue, -⟩ | ⟨-, missing, -⟩⟩ :=
    held.pull_cases position
  · obtain rfl : number = otherNumber := UInt64.toNat_inj.mp (due.trans otherDue.symm)
    rw [brings, held.single object brought other otherBrought number named otherNamed]
  · exact absurd due (missing object brought number named)

theorem Reading.pull_timeout (reading : Reading stream start controller last given)
    (missing : ∀ object ∈ given, ∀ number, object.name = stream.segment number → number.toNat ≠ last.toNat + 1) :
    (controller.pullNext (stream.segment last) stream.length .zero).1 = .error (.timeout stream .zero) := by
  obtain ⟨past, received, held, position, listed⟩ := reading.attained
  obtain ⟨after, more, -, ⟨object, number, -, brought, named, due, -⟩ | ⟨waits, -⟩⟩ := held.pull_cases position
  · exact absurd due (missing object ((listed object).mp brought) number named)
  · rw [waits]

def Controller.readOn (stream : Name) : Nat → UInt64 → Controller DeliveryQueue → List (Except Failure ContentObject)
  | 0, _, _ => []
  | count + 1, last, controller =>
    let (answer, next) := controller.pullNext (stream.segment last) stream.length .zero
    let reached := match answer with
      | .ok object => (object.name.numberIn? stream).getD last
      | .error _ => last
    answer :: next.readOn stream count reached

theorem Reading.readOn_eq (reading : Reading stream start controller last given) {objects : List ContentObject}
    (members : ∀ object ∈ objects, object ∈ given)
    (consecutive : objects.map (fun object => (object.name.numberIn? stream).map UInt64.toNat)
      = (List.range' (last.toNat + 1) objects.length).map some) :
    controller.readOn stream objects.length last = objects.map .ok := by
  induction objects generalizing controller last with
  | nil => rfl
  | cons object rest ih =>
    rw [List.length_cons, List.range'_succ, List.map_cons, List.map_cons] at consecutive
    obtain ⟨first, later⟩ := List.cons.inj consecutive
    obtain ⟨number, known, due⟩ := Option.map_eq_some_iff.mp first
    have named := Name.numberIn?_eq_some_iff.mp known
    have brings := reading.pull_ok (members object List.mem_cons_self) named due
    rcases pulled : controller.pullNext (stream.segment last) stream.length .zero with ⟨answer, next⟩
    obtain rfl : answer = .ok object := by rw [← brings, pulled]
    rw [← due] at later
    have onward := ih (reading.received pulled named) (fun other member => members other (List.mem_cons_of_mem _ member)) later
    simp only [List.length_cons, Controller.readOn, pulled, known, Option.getD_some, List.map_cons, onward]

/-- A stream is read back in order. Whatever has been put and pulled so far, the
next pull brings the segment after the last one received if a put of it has
succeeded, and times out otherwise. So segments that were put in any order are
read one after the other. -/
theorem pulls_read_in_order (reading : Reading stream start controller last given) :
    (∀ object ∈ given, ∀ number, object.name = stream.segment number → number.toNat = last.toNat + 1 →
      (controller.pullNext (stream.segment last) stream.length .zero).1 = .ok object) ∧
    ((∀ object ∈ given, ∀ number, object.name = stream.segment number → number.toNat ≠ last.toNat + 1) →
      (controller.pullNext (stream.segment last) stream.length .zero).1 = .error (.timeout stream .zero)) ∧
    ∀ objects : List ContentObject, (∀ object ∈ objects, object ∈ given) →
      objects.map (fun object => (object.name.numberIn? stream).map UInt64.toNat)
        = (List.range' (last.toNat + 1) objects.length).map some →
      controller.readOn stream objects.length last = objects.map .ok :=
  ⟨fun _ member _ => reading.pull_ok member, reading.pull_timeout, fun _ => reading.readOn_eq⟩

namespace Sample

open Flow.Sample

def opening : Controller DeliveryQueue :=
  ⟨{ Flow.new .standard DeliveryQueue.new with namespaces := [Flow.Sample.stream] }, .manual ⟨1000⟩⟩

def waiting : Controller DeliveryQueue :=
  (opening.pullNext (Flow.Sample.stream.segment 0) Flow.Sample.stream.length .zero).2

def stocked : Controller DeliveryQueue := ((waiting.put (segment 2)).2.put (segment 1)).2

theorem opening_reading : Reading Flow.Sample.stream 0 opening 0 [] := .opened _ _ _ rfl (by decide)

theorem stocked_reading : Reading Flow.Sample.stream 0 stocked 0 [segment 1, segment 2] := by
  have early : opening.pullNext (Flow.Sample.stream.segment 0) Flow.Sample.stream.length .zero
      = (.error (.timeout Flow.Sample.stream .zero), waiting) := Prod.ext (by decide +kernel) rfl
  have second : waiting.put (segment 2) = (.ok .buffered, (waiting.put (segment 2)).2) :=
    Prod.ext (by decide +kernel) rfl
  have first : (waiting.put (segment 2)).2.put (segment 1) = (.ok .delivered, stocked) :=
    Prod.ext (by decide +kernel) rfl
  refine .put (.put (.waited opening_reading early) ?_ ?_ second) ?_ ?_ first
  · exact fun _ => ⟨2, rfl⟩
  · simp
  · exact fun _ => ⟨1, rfl⟩
  · simpa using fun _ => by decide +kernel

end Sample

open Sample Flow.Sample in
/-- The first pull of the sample session times out, and the next ones bring both segments. -/
theorem stocked_reads_in_order :
    Reading Flow.Sample.stream 0 opening 0 [] ∧
      (opening.pullNext (Flow.Sample.stream.segment 0) Flow.Sample.stream.length .zero).1
        = .error (.timeout Flow.Sample.stream .zero) ∧
      Reading Flow.Sample.stream 0 stocked 0 [segment 1, segment 2] ∧
      (stocked.pullNext (Flow.Sample.stream.segment 0) Flow.Sample.stream.length .zero).1 = .ok (segment 1) ∧
      stocked.readOn Flow.Sample.stream 2 0 = [.ok (segment 1), .ok (segment 2)] := by
  obtain ⟨brings, -, reads⟩ := pulls_read_in_order stocked_reading
  refine ⟨opening_reading, (pulls_read_in_order opening_reading).2.1 (by simp), stocked_reading, ?_, ?_⟩
  · exact brings _ (by simp) 1 rfl (by decide)
  · exact reads [segment 1, segment 2] (by simp) (by decide +kernel)

end NamedContent
