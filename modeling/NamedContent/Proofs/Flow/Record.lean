import NamedContent.Proofs.Flow.Trail

/-! The history of a run beside what can be seen of the run.

The puts that a history records are those that were answered with success, its
other events belong to the requests too, and what it accepts is what the
transport takes of the objects it is handed. -/

set_option autoImplicit false

namespace NamedContent.Flow

def succeeded? : Request × Reply → Option ContentObject
  | (.put object _, .put (.ok _)) => some object
  | _ => none

variable {τ : Type} [Transport τ] {moment : Moment τ} {request : Request} {interest : Interest}

theorem asked?_askEvent (interest : Interest) (best : Option ContentObject) (reply : Except Failure Bool) :
    (askEvent interest best reply).asked? = some interest := by
  cases best with
  | none => rfl
  | some object => cases reply <;> rfl

theorem asked_of_mem_askMoments {flow : Flow τ} {now : Timestamp} {interests : List Interest}
    (found : moment ∈ flow.askMoments now interests) : ∃ interest ∈ interests, moment.event.asked? = some interest := by
  induction interests generalizing flow with
  | nil => exact absurd found List.not_mem_nil
  | cons interest rest ih =>
    cases answered : flow.askOne interest now with
    | mk reply after =>
      simp only [askMoments, answered, List.mem_cons] at found
      rcases found with rfl | later
      · refine ⟨interest, List.mem_cons_self, ?_⟩
        simp only
        split
        · rfl
        · exact asked?_askEvent _ _ _
      · cases reply with
        | error failure => exact absurd later List.not_mem_nil
        | ok hit =>
          obtain ⟨other, listed, same⟩ := ih later
          exact ⟨other, List.mem_cons_of_mem _ listed, same⟩

theorem put?_putEvent (flow : Flow τ) (object : ContentObject) (now : Timestamp) :
    (putEvent object (flow.admission object now).1 (flow.put object now).1).put?
      = succeeded? (.put object now, .put (flow.put object now).1) := by
  unfold put
  rcases flow.admission object now with ⟨admitted, weighed⟩
  cases admitted with
  | error failure => rfl
  | ok admission =>
    simp only
    cases (weighed.commit object admission).1 with
    | error failure => rfl
    | ok outcome => cases admission <;> rfl

theorem putEvent_ne_managed (object : ContentObject) (admitted : Except Failure Admission)
    (outcome : Except Failure PutOutcome) (request : Request) :
    putEvent object admitted outcome ≠ .managed request := by
  unfold putEvent
  split <;> simp

theorem asked?_putEvent (object : ContentObject) (admitted : Except Failure Admission)
    (outcome : Except Failure PutOutcome) : (putEvent object admitted outcome).asked? = none := by
  unfold putEvent
  split <;> rfl

theorem quiet_of_mem_putMoments {flow : Flow τ} {object : ContentObject} {now : Timestamp}
    (found : moment ∈ flow.putMoments object now) :
    moment.event.asked? = none ∧ ∀ request, moment.event ≠ .managed request := by
  rcases List.mem_append.mp found with expired | put
  · split at expired
    · rw [List.mem_singleton.mp expired]
      exact ⟨rfl, by simp⟩
    · exact absurd expired List.not_mem_nil
  · rw [List.mem_singleton.mp put]
    exact ⟨asked?_putEvent _ _ _, putEvent_ne_managed _ _ _⟩

theorem put?_moments (flow : Flow τ) (request : Request) :
    (flow.moments request).filterMap (·.event.put?) = (succeeded? (request, (flow.handle request).1)).toList := by
  cases request with
  | put object now =>
    have silent : (if flow.weighs object then [(⟨flow, .expired now, (flow.admission object now).2⟩ : Moment τ)]
        else []).filterMap (·.event.put?) = [] := by
      split <;> rfl
    simp only [moments, putMoments, handle, List.filterMap_append, silent, List.nil_append,
      List.filterMap_cons, List.filterMap_nil, put?_putEvent]
    cases succeeded? (.put object now, .put (flow.put object now).1) <;> rfl
  | ask interests now =>
    have nothing : ((flow.expire now).askMoments now interests).filterMap (·.event.put?) = [] := by
      refine List.filterMap_eq_nil_iff.mpr fun moment found => ?_
      obtain ⟨interest, -, asked⟩ := asked_of_mem_askMoments found
      exact Event.put?_of_asked? asked
    simpa [moments, Event.put?, handle, succeeded?] using nothing
  | _ => rfl

theorem put?_of_putMoments {flow : Flow τ} {object other : ContentObject} {now : Timestamp}
    {earlier later : List (Moment τ)} (divided : flow.putMoments object now = earlier ++ moment :: later)
    (puts : moment.event.put? = some other) :
    earlier.filterMap (·.event.put?) = [] ∧ other = object ∧ ∃ outcome, (flow.put object now).1 = .ok outcome := by
  have listed := flow.put?_moments (.put object now)
  rw [show flow.moments (.put object now) = _ from divided, List.filterMap_append, List.filterMap_cons, puts] at listed
  change _ = (succeeded? (.put object now, .put (flow.put object now).1)).toList at listed
  cases outcome : (flow.put object now).1 with
  | error failure =>
    rw [outcome] at listed
    exact absurd listed (by simp [succeeded?])
  | ok answer =>
    rw [outcome] at listed
    have single : earlier.filterMap (·.event.put?) ++ other :: later.filterMap (·.event.put?) = [object] := listed
    rcases List.append_eq_singleton_iff.mp single with ⟨silent, same⟩ | ⟨-, none⟩
    · exact ⟨silent, (List.cons.inj same).1, answer, rfl⟩
    · exact absurd none (List.cons_ne_nil _ _)

/-- The puts of a history are the ones answered with success. -/
theorem put?_history (flow : Flow τ) (requests : List Request) :
    (flow.history requests).filterMap (·.event.put?)
      = (requests.zip (flow.run requests).1).filterMap succeeded? := by
  induction requests generalizing flow with
  | nil => rfl
  | cons request rest ih =>
    rw [history, List.filterMap_append, put?_moments, ih]
    simp only [run, List.zip_cons_cons, List.filterMap_cons]
    cases succeeded? (request, (flow.handle request).1) <;> rfl

theorem managed_of_mem_moments {flow : Flow τ} {other : Request} (found : moment ∈ flow.moments other)
    (managed : moment.event = .managed request) : request = other := by
  cases other with
  | put object now => exact absurd managed ((quiet_of_mem_putMoments found).2 request)
  | ask interests now =>
    rcases List.mem_cons.mp found with rfl | asked
    · exact absurd managed (by simp)
    · obtain ⟨interest, -, asked⟩ := asked_of_mem_askMoments asked
      rw [managed] at asked
      exact absurd asked (by simp [Event.asked?])
  | _ =>
    rw [List.mem_singleton.mp found] at managed
    exact (Event.managed.inj managed).symm

theorem managed_of_mem_history {flow : Flow τ} {requests : List Request}
    (found : moment ∈ flow.history requests) (managed : moment.event = .managed request) : request ∈ requests := by
  induction requests generalizing flow with
  | nil => exact absurd found List.not_mem_nil
  | cons first rest ih =>
    rcases List.mem_append.mp found with now | later
    · exact managed_of_mem_moments now managed ▸ List.mem_cons_self
    · exact List.mem_cons_of_mem _ (ih later)

/-! What the transport makes of the objects it is handed. -/

/-- What a carrier takes of some objects that it is offered in turn, and the
carrier afterwards. -/
def offer (carrier : τ) : List ContentObject → List ContentObject × τ
  | [] => ([], carrier)
  | object :: rest =>
    match Transport.deliver carrier object with
    | (.ok (), next) => (object :: (offer next rest).1, (offer next rest).2)
    | (.error _, next) => offer next rest

section Steps
variable {before after : Flow τ} {event : Event} {object : ContentObject}

-- The transport takes what it is handed, or refuses it, or is not asked.
theorem Step.transport_cases (step : before.Step event after) :
    (∃ object, event.handed? = some object ∧ event.accepted? = some object ∧
      Transport.deliver before.transport object = (.ok (), after.transport)) ∨
    (∃ object fault, event.handed? = some object ∧ event.accepted? = none ∧
      Transport.deliver before.transport object = (.error fault, after.transport)) ∨
    event.handed? = none ∧ event.accepted? = none ∧ after.transport = before.transport := by
  cases step with
  | addNamespace name => exact Or.inr (Or.inr ⟨rfl, rfl, by unfold Flow.addNamespace; split <;> rfl⟩)
  | removeNamespace name =>
    exact Or.inr (Or.inr ⟨rfl, rfl, by unfold Flow.removeNamespace; simp only; split <;> rfl⟩)
  | refuse judged handed => exact Or.inr (Or.inl ⟨_, _, rfl, rfl, handed⟩)
  | withhold heeded best handed => exact Or.inr (Or.inl ⟨_, _, rfl, rfl, handed⟩)
  | bypass judged handed => exact Or.inl ⟨_, rfl, rfl, handed⟩
  | deliver judged handed => exact Or.inl ⟨_, rfl, rfl, by simpa using handed⟩
  | answer heeded best handed => exact Or.inl ⟨_, rfl, rfl, by simpa using handed⟩
  | _ => exact Or.inr (Or.inr ⟨rfl, rfl, rfl⟩)

theorem Step.accepted?_eq_some_iff (step : before.Step event after) :
    event.accepted? = some object ↔
      event.handed? = some object ∧ (Transport.deliver before.transport object).1 = .ok () := by
  rcases step.transport_cases with ⟨other, hands, takes, done⟩ | ⟨other, fault, hands, takes, failed⟩ | ⟨hands, takes, -⟩
  · rw [hands, takes]
    refine (and_iff_left_of_imp fun same => ?_).symm
    rw [← Option.some.inj same, done]
  · rw [hands, takes]
    refine iff_of_false (by simp) fun ⟨same, taken⟩ => ?_
    rw [← Option.some.inj same, failed] at taken
    exact absurd taken (by simp)
  · simp [hands, takes]

end Steps

theorem Trail.offer_eq {start final : Flow τ} {moments : List (Moment τ)} (trail : Trail start moments final) :
    offer start.transport (moments.filterMap (·.event.handed?))
      = (moments.filterMap (·.event.accepted?), final.transport) := by
  induction trail with
  | still flow => rfl
  | move step _ ih =>
    rcases step.transport_cases with
      ⟨object, hands, takes, done⟩ | ⟨object, fault, hands, takes, failed⟩ | ⟨hands, takes, same⟩
    · simp [hands, takes, offer, done, ih]
    · simp [hands, takes, offer, failed, ih]
    · simp [hands, takes, ← same, ih]

/-- What a history accepts is what the transport takes of all that it is handed,
and the run leaves the transport as it is then. -/
theorem offer_history (flow : Flow τ) (requests : List Request) :
    offer flow.transport ((flow.history requests).filterMap (·.event.handed?))
      = ((flow.history requests).filterMap (·.event.accepted?), (flow.run requests).2.transport) :=
  (flow.trail_history requests).offer_eq

end NamedContent.Flow
