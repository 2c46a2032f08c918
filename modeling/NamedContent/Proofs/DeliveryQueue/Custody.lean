import Mathlib.Data.List.Basic
import NamedContent.DeliveryQueue.Run

/-! What a delivery queue does with the objects it is given.

Every delivered object is received once or still queued, and those queued stand in
the order of delivery. One request keeps this account, and so does a run. A receive
with time to wait is a receive at one of the moments at which it looks. -/

set_option autoImplicit false

namespace NamedContent

namespace DeliveryQueue

def accepts (asked : Option Interest) (object : ContentObject) : Bool := asked.all (·.matchesObject object)

def delivered? : Request × Reply → Option ContentObject
  | (.deliver object, .delivered (.ok ())) => some object
  | _ => none

def received? : Reply → Option ContentObject
  | .received (.ok taken) => taken
  | _ => none

/-- Objects that were delivered, each told by its place in the order of delivery, are
divided into those received and those still queued, and the latter keep that order. -/
def Divided (delivered received queued : List ContentObject) : Prop :=
  ∃ taken kept : List (ContentObject × Nat), taken.map Prod.fst = received ∧ kept.map Prod.fst = queued ∧
    kept.Sublist delivered.zipIdx ∧ (taken ++ kept).Perm delivered.zipIdx

namespace Divided

variable {delivered received queued : List ContentObject}

theorem nothing : Divided [] [] [] := ⟨[], [], rfl, rfl, .refl _, .refl _⟩

theorem deliver (divided : Divided delivered received queued) (object : ContentObject) :
    Divided (delivered ++ [object]) received (queued ++ [object]) := by
  obtain ⟨taken, kept, gone, here, ordered, all⟩ := divided
  refine ⟨taken, kept ++ [(object, delivered.length)], gone, by rw [List.map_append, here]; rfl, ?_, ?_⟩
  · rw [List.zipIdx_append, Nat.zero_add]
    exact ordered.append_right _
  · rw [List.zipIdx_append, Nat.zero_add, ← List.append_assoc]
    exact all.append_right _

-- The one taken out is told from others like it by its place.
theorem receive {before after : List ContentObject} {object : ContentObject}
    (divided : Divided delivered received (before ++ object :: after)) :
    Divided delivered (received ++ [object]) (before ++ after) := by
  obtain ⟨taken, kept, gone, here, ordered, all⟩ := divided
  obtain ⟨earlier, onward, rfl, first, rest⟩ := List.map_eq_append_iff.mp here
  obtain ⟨marked, later, rfl, rfl, last⟩ := List.map_eq_cons_iff.mp rest
  refine ⟨taken ++ [marked], earlier ++ later, by rw [List.map_append, gone]; rfl,
    by rw [List.map_append, first, last], ?_, ?_⟩
  · exact (List.Sublist.append_left (List.sublist_cons_self marked later) earlier).trans ordered
  · have moved : (marked :: (earlier ++ later)).Perm (earlier ++ marked :: later) := List.perm_middle.symm
    rw [List.append_assoc]
    exact (moved.append_left taken).trans all

end Divided

variable {queue : DeliveryQueue} {asked : Option Interest} {object : ContentObject}

theorem deliver_cases (queue : DeliveryQueue) (object : ContentObject) :
    queue.receiverGone = true ∧ queue.deliver object = (.error .disconnected, queue) ∨
      queue.receiverGone = false ∧ ∃ after : DeliveryQueue,
        queue.deliver object = (.ok (), after) ∧ after.objects = queue.objects ++ [object] := by
  cases gone : queue.receiverGone with
  | true => exact Or.inl ⟨rfl, by rw [deliver, if_pos gone]⟩
  | false =>
    refine Or.inr ⟨rfl, { queue with backlog := object :: queue.backlog }, ?_, by simp [objects]⟩
    rw [deliver, if_neg (by simp [gone])]

-- What a receive answers and leaves: the queue is looked at first, the sender only then.
theorem receive_cases (queue : DeliveryQueue) (asked : Option Interest) :
    (∃ before object after, queue.objects = before ++ object :: after ∧
      (∀ earlier ∈ before, accepts asked earlier = false) ∧ accepts asked object = true ∧
      queue.receive asked = (.ok (some object), queue.without (accepts asked)) ∧
      (queue.without (accepts asked)).objects = before ++ after) ∨
    ((∀ object ∈ queue.objects, accepts asked object = false) ∧
      queue.receive asked = (if queue.senderGone then .error .disconnected else .ok none, queue)) := by
  change (∃ before object after, _ ∧ _ ∧ _ ∧ queue.receiveWhere (accepts asked) = _ ∧ _) ∨
    (_ ∧ queue.receiveWhere (accepts asked) = _)
  cases found : queue.objects.find? (accepts asked) with
  | some object =>
    obtain ⟨accepted, before, after, divided, passed⟩ := List.find?_eq_some_iff_append.mp found
    have refused : ∀ earlier ∈ before, accepts asked earlier = false := by simpa using passed
    refine Or.inl ⟨before, object, after, divided, refused, accepted, by rw [receiveWhere, found], ?_⟩
    rw [objects_without, divided, List.eraseP_append_right _ (by simpa using refused),
      List.eraseP_cons_of_pos accepted]
  | none =>
    refine Or.inr ⟨by simpa using found, ?_⟩
    rw [receiveWhere, found]
    cases queue.senderGone <;> rfl

theorem receive_none {after : DeliveryQueue} (nothing : queue.receive asked = (.ok none, after)) : after = queue := by
  rcases queue.receive_cases asked with ⟨before, object, later, -, -, -, answered, -⟩ | ⟨-, answered⟩
  · exact absurd (Prod.mk.inj (nothing.symm.trans answered)).1 (by simp)
  · exact (Prod.mk.inj (nothing.symm.trans answered)).2

theorem gone_handle (queue : DeliveryQueue) (request : Request) :
    ((queue.handle request).2.senderGone = true ↔ queue.senderGone = true ∨ request = .dropSender) ∧
      ((queue.handle request).2.receiverGone = true ↔ queue.receiverGone = true ∨ request = .dropReceiver) := by
  cases request with
  | deliver object =>
    simp only [handle, deliver]
    split <;> simp
  | receive asked =>
    simp only [handle]
    rcases queue.receive_cases asked with ⟨before, object, after, -, -, -, answered, -⟩ | ⟨-, answered⟩ <;>
      simp [answered, without]
  | dropSender => simp [handle, dropSender]
  | dropReceiver => simp [handle, dropReceiver]

theorem gone_run (queue : DeliveryQueue) (requests : List Request) :
    ((queue.run requests).2.senderGone = true ↔ queue.senderGone = true ∨ .dropSender ∈ requests) ∧
      ((queue.run requests).2.receiverGone = true ↔ queue.receiverGone = true ∨ .dropReceiver ∈ requests) := by
  induction requests generalizing queue with
  | nil => simp [run]
  | cons request rest ih =>
    obtain ⟨sender, receiver⟩ := queue.gone_handle request
    have later := ih (queue.handle request).2
    rw [sender, receiver, or_assoc, or_assoc] at later
    simpa only [run, List.mem_cons, @eq_comm _ request] using later

theorem divided_handle {delivered received : List ContentObject} (divided : Divided delivered received queue.objects)
    (request : Request) :
    Divided (delivered ++ (delivered? (request, (queue.handle request).1)).toList)
      (received ++ (received? (queue.handle request).1).toList) (queue.handle request).2.objects := by
  cases request with
  | deliver object =>
    rcases queue.deliver_cases object with ⟨-, refused⟩ | ⟨-, after, taken, grown⟩
    · simpa [handle, refused, delivered?, received?] using divided
    · simpa [handle, taken, delivered?, received?, grown] using divided.deliver object
  | receive asked =>
    rcases queue.receive_cases asked with ⟨before, object, after, here, -, -, answered, left⟩ | ⟨-, answered⟩
    · rw [here] at divided
      simpa [handle, answered, delivered?, received?, left] using divided.receive
    · cases gone : queue.senderGone <;>
        simpa [handle, answered, gone, delivered?, received?] using divided
  | dropSender => simpa [handle, delivered?, received?] using divided
  | dropReceiver => simpa [handle, delivered?, received?] using divided

theorem divided_run {delivered received : List ContentObject} (divided : Divided delivered received queue.objects)
    (requests : List Request) :
    Divided (delivered ++ (requests.zip (queue.run requests).1).filterMap delivered?)
      (received ++ (queue.run requests).1.filterMap received?) (queue.run requests).2.objects := by
  induction requests generalizing queue delivered received with
  | nil => simpa [run] using divided
  | cons request rest ih =>
    have later := ih (divided_handle divided request)
    simpa only [run, List.zip_cons_cons, List.filterMap_eq_flatMap_toList, List.flatMap_cons, List.append_assoc] using later

-- The receive takes place at the last of the moments at which it looks.
theorem receiveWithin_eq (queue : DeliveryQueue) (asked : Option Interest) (pauses : List (List Request)) :
    ∃ seen rest, pauses = seen ++ rest ∧
      queue.receiveWithin asked pauses
        = (((queue.run seen.flatten).2.receive asked).1,
          (queue.run (seen.flatten ++ .receive asked :: rest.flatten)).2) ∧
      (∀ earlier, earlier <+: seen → earlier ≠ seen → ((queue.run earlier.flatten).2.receive asked).1 = .ok none) ∧
      (((queue.run seen.flatten).2.receive asked).1 = .ok none → rest = []) := by
  induction pauses generalizing queue with
  | nil =>
    refine ⟨[], [], rfl, ?_, ?_, fun _ => rfl⟩
    · simp [receiveWithin, run, handle]
    · exact fun earlier begins other => absurd (List.prefix_nil.mp begins) other
  | cons pause later ih =>
    rcases looked : queue.receive asked with ⟨answer, after⟩
    by_cases waits : answer = .ok none
    · subst waits
      obtain rfl := receive_none looked
      obtain ⟨seen, rest, rfl, same, before, last⟩ := ih (after.run pause).2
      refine ⟨pause :: seen, rest, rfl, ?_, ?_, ?_⟩
      · simp only [receiveWithin, looked, same, List.flatten_cons, List.append_assoc, run_append]
      · intro earlier begins other
        cases earlier with
        | nil => simp [run, looked]
        | cons first others =>
          obtain ⟨rfl, onward⟩ := List.cons_prefix_cons.mp begins
          rw [List.flatten_cons, run_append]
          exact before others onward fun same => other (same ▸ rfl)
      · intro nothing
        rw [List.flatten_cons, run_append] at nothing
        exact last nothing
    · refine ⟨[], pause :: later, rfl, ?_, ?_, ?_⟩
      · have ends : queue.receiveWithin asked (pause :: later) = (answer, (after.run (pause ++ later.flatten)).2) := by
          unfold receiveWithin
          rw [looked]
          rcases answer with fault | (_ | object)
          · rfl
          · exact absurd rfl waits
          · rfl
        simp [ends, run, handle, looked]
      · exact fun earlier begins other => absurd (List.prefix_nil.mp begins) other
      · intro nothing
        simp only [List.flatten_nil, run, looked] at nothing
        exact absurd nothing waits

/-- The delivery queue is a selective first-in, first-out queue. After any requests
the objects delivered are divided into those received and those queued, in the order
of delivery. A receive then brings the first queued object it accepts and leaves the
others as they are. If it accepts none it answers nothing, or that the sender is gone
if it is, and the queue stays as it is. A delivery is refused exactly if the receiver
is gone, and adds its object behind the others otherwise. Given time to wait, a
receive takes place at the first moment at which it finds an object it accepts or
the sender gone, or else when the time is up. -/
theorem queue_is_selective_and_in_order (requests : List Request) :
    let replies := (new.run requests).1
    let queue := (new.run requests).2
    Divided ((requests.zip replies).filterMap delivered?) (replies.filterMap received?) queue.objects ∧
    (∀ asked,
      (∃ before object after, queue.objects = before ++ object :: after ∧
        (∀ earlier ∈ before, accepts asked earlier = false) ∧ accepts asked object = true ∧
        ∃ left, queue.receive asked = (.ok (some object), left) ∧ left.objects = before ++ after) ∨
      ((∀ object ∈ queue.objects, accepts asked object = false) ∧
        queue.receive asked = (if .dropSender ∈ requests then .error .disconnected else .ok none, queue))) ∧
    (∀ object,
      (.dropReceiver ∈ requests ∧ queue.deliver object = (.error .disconnected, queue)) ∨
      (.dropReceiver ∉ requests ∧
        ∃ grown, queue.deliver object = (.ok (), grown) ∧ grown.objects = queue.objects ++ [object])) ∧
    ∀ asked pauses, ∃ seen rest, pauses = seen ++ rest ∧
      queue.receiveWithin asked pauses
        = (((new.run (requests ++ seen.flatten)).2.receive asked).1,
          (new.run (requests ++ seen.flatten ++ .receive asked :: rest.flatten)).2) ∧
      (∀ earlier, earlier <+: seen → earlier ≠ seen →
        ((new.run (requests ++ earlier.flatten)).2.receive asked).1 = .ok none) ∧
      (((new.run (requests ++ seen.flatten)).2.receive asked).1 = .ok none → rest = []) := by
  intro replies queue
  have gone : (queue.senderGone = true ↔ .dropSender ∈ requests) ∧
      (queue.receiverGone = true ↔ .dropReceiver ∈ requests) :=
    (new.gone_run requests).imp (·.trans (or_iff_right (by decide))) (·.trans (or_iff_right (by decide)))
  have fresh : Divided [] [] new.objects := .nothing
  refine ⟨divided_run fresh requests, fun asked => ?_, fun object => ?_, fun asked pauses => ?_⟩
  · rcases queue.receive_cases asked with ⟨before, object, after, here, passed, accepted, brings, left⟩ | ⟨refused, waits⟩
    · exact Or.inl ⟨before, object, after, here, passed, accepted, _, brings, left⟩
    · refine Or.inr ⟨refused, ?_⟩
      simp only [waits, gone.1]
  · rcases queue.deliver_cases object with ⟨absent, refused⟩ | ⟨present, taken⟩
    · exact Or.inl ⟨gone.2.mp absent, refused⟩
    · exact Or.inr ⟨fun dropped => absurd (gone.2.mpr dropped) (by simp [present]), taken⟩
  · obtain ⟨seen, rest, divided, same, before, last⟩ := queue.receiveWithin_eq asked pauses
    refine ⟨seen, rest, divided, ?_, fun earlier => ?_, ?_⟩
    · rw [same, List.append_assoc, run_append new requests, run_append new requests]
    · rw [run_append]
      exact before earlier
    · rw [run_append]
      exact last

namespace Sample

def letter (byte : UInt8) : ContentObject := .new (.ofBytes [[byte]]) [byte]

def exchange : List Request :=
  [.deliver (letter 0x61), .deliver (letter 0x62), .receive (some (.ofName (.ofBytes [[0x62]]))), .dropSender]

end Sample

open DeliveryQueue.Sample in
theorem passed_over_object_outlasts_sender :
    (new.run exchange).2.objects = [letter 0x61] ∧
      Divided [letter 0x61, letter 0x62] [letter 0x62] [letter 0x61] ∧
      ((new.run exchange).2.receive none).1 = .ok (some (letter 0x61)) ∧
      ((new.run (exchange ++ [.receive none])).2.receive none).1 = .error .disconnected := by
  have left : (new.run exchange).2.objects = [letter 0x61] := by decide +kernel
  have drained : (new.run (exchange ++ [.receive none])).2.objects = [] := by decide +kernel
  obtain ⟨divided, receives, -, -⟩ := queue_is_selective_and_in_order exchange
  obtain ⟨-, receivesLater, -, -⟩ := queue_is_selective_and_in_order (exchange ++ [.receive none])
  refine ⟨left, left ▸ divided, ?_, ?_⟩
  · rcases receives none with ⟨before, object, after, here, -, -, _, brings, -⟩ | ⟨refused, -⟩
    · have sole := here.symm.trans left
      cases before with
      | nil => rw [brings, (List.cons.inj sole).1]
      | cons earlier others => simp at sole
    · exact absurd (refused (letter 0x61) (by rw [left]; simp)) (by decide)
  · rcases receivesLater none with ⟨before, object, after, here, -⟩ | ⟨-, waits⟩
    · exact absurd (here.symm.trans drained) (by simp)
    · rw [waits]
      rfl

end DeliveryQueue

end NamedContent
