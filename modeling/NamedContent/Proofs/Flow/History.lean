import NamedContent.Flow.Run

/-! What happens during a run, moment by moment.

A request is carried out in one moment or in several: whatever forgets by age
comes before the put or the interests it is forgotten for, and a batch has one
moment for each interest up to the first failure. The history of a run lists
its moments in order, each with the flow before and after it. -/

set_option autoImplicit false

namespace NamedContent.Flow

inductive Event where
  /-- A request that brings neither content nor interests. -/
  | managed (request : Request)
  | expired (now : Timestamp)
  /-- A put failed before the transport was asked. -/
  | turnedAway (object : ContentObject) (failure : Failure)
  | refused (object : ContentObject)
  | bypassed (object : ContentObject)
  | delivered (object : ContentObject) (candidate : Candidate)
  | buffered (object : ContentObject)
  | passedOver (interest : Interest)
  | registered (interest : Interest)
  | withheld (interest : Interest) (object : ContentObject)
  | answered (interest : Interest) (object : ContentObject)
  deriving DecidableEq

namespace Event

def consumed? : Event → Option (Interest × ContentObject)
  | .delivered object candidate => some (candidate.interest, object)
  | .answered interest object => some (interest, object)
  | _ => none

/-- A segment of a stream goes out for an interest, which moves the stream's mark. -/
def Advances (event : Event) (stream : Name) (number : UInt64) : Prop :=
  ∃ interest object, event.consumed? = some (interest, object) ∧ object.name = stream.segment number

/-- The object that the transport is asked to take, whether it does or not. -/
def handed? : Event → Option ContentObject
  | .refused object | .bypassed object | .delivered object _ | .withheld _ object | .answered _ object => some object
  | _ => none

/-- The object that the transport takes. -/
def accepted? : Event → Option ContentObject
  | .bypassed object | .delivered object _ | .answered _ object => some object
  | _ => none

def put? : Event → Option ContentObject
  | .bypassed object | .delivered object _ | .buffered object => some object
  | _ => none

def asked? : Event → Option Interest
  | .passedOver interest | .registered interest | .withheld interest _ | .answered interest _ => some interest
  | _ => none

variable {event : Event} {interest : Interest} {object : ContentObject}

theorem accepted?_of_consumed? (consumed : event.consumed? = some (interest, object)) :
    event.accepted? = some object := by
  cases event with
  | delivered other candidate => exact congrArg some (Prod.mk.inj (Option.some.inj consumed)).2
  | answered other held => exact congrArg some (Prod.mk.inj (Option.some.inj consumed)).2
  | _ => exact absurd consumed (by simp [consumed?])

theorem consumed?_of_accepted? (accepts : event.accepted? = some object) :
    event = .bypassed object ∨ ∃ interest, event.consumed? = some (interest, object) := by
  cases event with
  | bypassed other => exact Or.inl (congrArg _ (Option.some.inj accepts))
  | delivered other candidate => exact Or.inr ⟨candidate.interest, congrArg _ (congrArg _ (Option.some.inj accepts))⟩
  | answered interest other => exact Or.inr ⟨interest, congrArg _ (congrArg _ (Option.some.inj accepts))⟩
  | _ => exact absurd accepts (by simp [accepted?])

theorem put?_of_asked? (asked : event.asked? = some interest) : event.put? = none := by
  cases event <;> first | rfl | exact absurd asked (by simp [asked?])

end Event

structure Moment (τ : Type) where
  before : Flow τ
  event : Event
  after : Flow τ

variable {τ : Type}

def weighs (flow : Flow τ) (object : ContentObject) : Bool :=
  !flow.closed && flow.enabled && flow.covers object.name

def putEvent (object : ContentObject) : Except Failure Admission → Except Failure PutOutcome → Event
  | .error failure, _ => .turnedAway object failure
  | .ok _, .error _ => .refused object
  | .ok .bypass, .ok _ => .bypassed object
  | .ok (.deliver candidate), .ok _ => .delivered object candidate
  | .ok .buffer, .ok _ => .buffered object

def askEvent (interest : Interest) : Option ContentObject → Except Failure Bool → Event
  | none, _ => .registered interest
  | some object, .error _ => .withheld interest object
  | some object, .ok _ => .answered interest object

variable [Transport τ]

def putMoments (flow : Flow τ) (object : ContentObject) (now : Timestamp) : List (Moment τ) :=
  let (admitted, weighed) := flow.admission object now
  let (outcome, after) := flow.put object now
  (if flow.weighs object then [⟨flow, .expired now, weighed⟩] else [])
    ++ [⟨weighed, putEvent object admitted outcome, after⟩]

def askMoments (flow : Flow τ) (now : Timestamp) : List Interest → List (Moment τ)
  | [] => []
  | interest :: rest =>
    let (reply, after) := flow.askOne interest now
    let event :=
      if flow.ignores interest then .passedOver interest
      else askEvent interest (flow.bestBuffered? interest) reply
    ⟨flow, event, after⟩ ::
      match reply with
      | .ok _ => after.askMoments now rest
      | .error _ => []

def moments (flow : Flow τ) : Request → List (Moment τ)
  | .put object now => flow.putMoments object now
  | .ask interests now => ⟨flow, .expired now, flow.expire now⟩ :: (flow.expire now).askMoments now interests
  | request => [⟨flow, .managed request, (flow.handle request).2⟩]

def history (flow : Flow τ) : List Request → List (Moment τ)
  | [] => []
  | request :: rest => flow.moments request ++ (flow.handle request).2.history rest

theorem history_append (flow : Flow τ) (first second : List Request) :
    flow.history (first ++ second) = flow.history first ++ (flow.run first).2.history second := by
  induction first generalizing flow with
  | nil => rfl
  | cons request rest ih => simp [run, history, ih]

theorem exists_moments_of_history {flow : Flow τ} {requests : List Request} {past later : List (Moment τ)}
    {moment : Moment τ} (divided : flow.history requests = past ++ moment :: later) :
    ∃ (earlier inside rest : List (Moment τ)) (reached : Flow τ) (request : Request),
      past = earlier ++ inside ∧ reached.moments request = inside ++ moment :: rest := by
  induction requests generalizing flow past with
  | nil => exact absurd divided (by simp [history])
  | cons request requests ih =>
    rw [history] at divided
    rcases List.append_eq_append_iff.mp divided with ⟨between, rfl, beyond⟩ | ⟨between, within, beyond⟩
    · obtain ⟨earlier, inside, rest, reached, other, rfl, found⟩ := ih beyond
      exact ⟨_, inside, rest, reached, other, (List.append_assoc _ _ _).symm, found⟩
    · cases between with
      | nil =>
        obtain ⟨earlier, inside, rest, reached, other, none, found⟩ :=
          ih (show _ = [] ++ moment :: later from beyond.symm)
        obtain ⟨rfl, rfl⟩ := List.nil_eq_append_iff.mp none
        exact ⟨past, [], rest, reached, other, (List.append_nil _).symm, found⟩
      | cons first between =>
        obtain ⟨rfl, -⟩ := List.cons.inj beyond
        exact ⟨[], past, between, flow, request, rfl, within⟩

end NamedContent.Flow
