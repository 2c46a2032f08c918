import NamedContent.Proofs.Flow.Failing
import NamedContent.Proofs.Flow.Separation

/-! Requests that come to nothing.

A put without room and a batch of interests that are all passed over change
nothing but what they forget by age. Whatever looks at the interests or the
marks later on forgets all of it before it looks. So what follows is the same
as if they had not been made. -/

set_option autoImplicit false

namespace NamedContent.Flow

variable {τ : Type} {flow : Flow τ} {time now : Timestamp} {name : Name}

section Management
variable (flow time name)

theorem expire_addNamespace : (flow.expire time).addNamespace name = (flow.addNamespace name).expire time := by
  simp only [addNamespace]
  change (if flow.namespaces.contains name then flow.expire time else _) = _
  split <;> rfl

-- What is forgotten by age and what is forgotten with a namespace do not depend on each other.
theorem expire_removeNamespace :
    (flow.expire time).removeNamespace name
      = ((flow.removeNamespace name).1, (flow.removeNamespace name).2.expire time) := by
  simp only [removeNamespace]
  change (if (flow.namespaces.filter (· != name)).length = flow.namespaces.length then (false, flow.expire time)
    else _) = _
  split
  · rfl
  · refine Prod.ext rfl ?_
    unfold expire
    simp only [covers]
    congr 1
    split
    · exact NameIndex.ext (by simp only [NameIndex.values_filter, List.filter_comm])
    · rfl

theorem expire_close : (flow.expire time).close = (flow.close.1, flow.close.2.expire time) := by
  have nothing : (Table.empty : Table Pending).filter (·.value.isLive time) = .empty := rfl
  refine Prod.ext rfl ?_
  simp only [close, expire, Table.clear, nothing]
  congr 1
  split
  · exact NameIndex.ext (by simp)
  · rfl

end Management

-- Forgetting leaves alone what decides whether a put looks at the interests, and
-- a put that looks at them forgets first.
theorem admission_expire (canonical : flow.pending.Canonical) (order : time ≤ now) (object : ContentObject) :
    (flow.expire time).admission object now
      = if flow.weighs object then flow.admission object now
        else ((flow.admission object now).1, flow.expire time) := by
  have again := expire_expire canonical order
  have sameClosed : (flow.expire time).closed = flow.closed := rfl
  have sameEnabled : (flow.expire time).enabled = flow.enabled := rfl
  have sameCovers : (flow.expire time).covers object.name = flow.covers object.name := rfl
  simp only [admission, weighs, again, sameClosed, sameEnabled, sameCovers]
  cases flow.closed <;> cases flow.enabled <;> cases flow.covers object.name <;> rfl

def events (moments : List (Moment τ)) : List Event := moments.map Moment.event

theorem outgoing_eq (moments : List (Moment τ)) : outgoing moments = (events moments).filterMap Event.accepted? := by
  rw [outgoing, events, List.filterMap_map]
  rfl

variable [Transport τ]

theorem bypass_expire (object : ContentObject) :
    (flow.expire time).commit object .bypass
      = ((flow.commit object .bypass).1, (flow.commit object .bypass).2.expire time) := by
  rcases handed : Transport.deliver flow.transport object with ⟨fault | done, transport⟩
  · have sent : Transport.deliver (flow.expire time).transport object = (.error fault, transport) := handed
    simp only [commit, send_error handed, send_error sent]
    rfl
  · have sent : Transport.deliver (flow.expire time).transport object = (.ok (), transport) := handed
    simp only [commit, send_ok handed, send_ok sent]
    rfl

theorem put_expire (canonical : flow.pending.Canonical) (order : time ≤ now) (object : ContentObject) :
    (flow.expire time).put object now
      = if flow.weighs object then flow.put object now
        else ((flow.put object now).1, (flow.put object now).2.expire time) := by
  obtain ⟨weighing, judged⟩ := flow.admission_cases object now
  rw [put, admission_expire canonical order]
  cases weighs : flow.weighs object with
  | true => rfl
  | false =>
    rcases admitted : flow.admission object now with ⟨answer, weighed⟩
    simp only [admitted, weighs] at weighing judged
    obtain rfl : weighed = flow := weighing
    cases judged with
    | closed => simp [put, admitted]
    | outside => simp [put, admitted]
    | bypass => simpa [put, admitted] using weighed.bypass_expire object
    | deliver looks => exact absurd (weighs.symm.trans looks) (by simp)
    | full looks => exact absurd (weighs.symm.trans looks) (by simp)
    | buffer looks => exact absurd (weighs.symm.trans looks) (by simp)

theorem events_putMoments_expire (canonical : flow.pending.Canonical) (order : time ≤ now) (object : ContentObject) :
    events ((flow.expire time).putMoments object now) = events (flow.putMoments object now) := by
  have admits := congrArg Prod.fst (admission_expire canonical order object)
  have answers := congrArg Prod.fst (put_expire canonical order object)
  have weighs : (flow.expire time).weighs object = flow.weighs object := rfl
  rw [apply_ite Prod.fst, ite_self] at admits answers
  simp only [events, putMoments, List.map_append, List.map_cons, List.map_nil, admits, answers, weighs]
  congr 1
  split <;> rfl

theorem handle_expire (canonical : flow.pending.Canonical) {request : Request}
    (order : ∀ now, request.time? = some now → time ≤ now) :
    ((flow.expire time).handle request).1 = (flow.handle request).1 ∧
      events ((flow.expire time).moments request) = events (flow.moments request) ∧
      (((flow.expire time).handle request).2 = (flow.handle request).2 ∨
        ((flow.expire time).handle request).2 = (flow.handle request).2.expire time) := by
  cases request with
  | addNamespace name => exact ⟨rfl, rfl, Or.inr (flow.expire_addNamespace time name)⟩
  | removeNamespace name =>
    have result := flow.expire_removeNamespace time name
    refine ⟨?_, rfl, Or.inr (congrArg Prod.snd result)⟩
    change Reply.removed ((flow.expire time).removeNamespace name).1 = Reply.removed (flow.removeNamespace name).1
    rw [result]
  | put object now =>
    have after := order now rfl
    have result := put_expire canonical after object
    refine ⟨?_, events_putMoments_expire canonical after object, ?_⟩
    · change Reply.put ((flow.expire time).put object now).1 = Reply.put (flow.put object now).1
      rw [result]
      split <;> rfl
    · change ((flow.expire time).put object now).2 = (flow.put object now).2 ∨
        ((flow.expire time).put object now).2 = (flow.put object now).2.expire time
      rw [result]
      split
      · exact Or.inl rfl
      · exact Or.inr rfl
  | ask interests now =>
    have again := expire_expire canonical (order now rfl)
    simp [handle, ask, moments, events, again]
  | setHighwater highwater => exact ⟨rfl, rfl, Or.inr rfl⟩
  | setDrainTimeout timeout => exact ⟨rfl, rfl, Or.inr rfl⟩
  | setEnabled enabled => exact ⟨rfl, rfl, Or.inr rfl⟩
  | close =>
    have result := flow.expire_close time
    exact ⟨congrArg Reply.discarded (congrArg Prod.fst result), rfl, Or.inr (congrArg Prod.snd result)⟩

theorem run_expire (canonical : flow.pending.Canonical) {requests : List Request}
    (order : ∀ now ∈ requests.filterMap Request.time?, time ≤ now) :
    ((flow.expire time).run requests).1 = (flow.run requests).1 ∧
      events ((flow.expire time).history requests) = events (flow.history requests) ∧
      (((flow.expire time).run requests).2 = (flow.run requests).2 ∨
        ((flow.expire time).run requests).2 = (flow.run requests).2.expire time) := by
  induction requests generalizing flow with
  | nil => exact ⟨rfl, rfl, Or.inr rfl⟩
  | cons request rest ih =>
    have first : ∀ now, request.time? = some now → time ≤ now := fun now timed =>
      order now (List.mem_filterMap.mpr ⟨request, List.mem_cons_self, timed⟩)
    have others : ∀ now ∈ rest.filterMap Request.time?, time ≤ now := by
      intro now listed
      obtain ⟨other, member, timed⟩ := List.mem_filterMap.mp listed
      exact order now (List.mem_filterMap.mpr ⟨other, List.mem_cons_of_mem _ member, timed⟩)
    obtain ⟨reply, happens, same | forgotten⟩ := handle_expire canonical first
    · simpa [run, history, events, reply, same] using happens
    · obtain ⟨replies, later, final⟩ := ih (canonical_handle canonical request) others
      simp only [run, history, events, List.map_append, reply, forgotten]
      exact ⟨congrArg _ replies, congrArg₂ _ happens later, final⟩

-- Two flows that are the same once they have forgotten what they have to by some
-- time are the same to all requests that come after that time.
theorem run_eq_of_expire_eq {first second : Flow τ} (first_canonical : first.pending.Canonical)
    (second_canonical : second.pending.Canonical) (same : first.expire time = second.expire time)
    {later : List Request} (order : ∀ now ∈ later.filterMap Request.time?, time ≤ now) :
    (first.run later).1 = (second.run later).1 ∧
      outgoing (first.history later) = outgoing (second.history later) ∧
      (first.run later).2.buffer = (second.run later).2.buffer ∧
      (first.run later).2.transport = (second.run later).2.transport := by
  have forgotten : ∀ {flow : Flow τ}, flow.pending.Canonical →
      ((flow.expire time).run later).1 = (flow.run later).1 ∧
        outgoing ((flow.expire time).history later) = outgoing (flow.history later) ∧
        ((flow.expire time).run later).2.buffer = (flow.run later).2.buffer ∧
        ((flow.expire time).run later).2.transport = (flow.run later).2.transport := by
    intro flow canonical
    obtain ⟨replies, happens, final | final⟩ := run_expire canonical order
    · exact ⟨replies, by rw [outgoing_eq, happens, outgoing_eq], by rw [final], by rw [final]⟩
    · exact ⟨replies, by rw [outgoing_eq, happens, outgoing_eq], by rw [final]; rfl, by rw [final]; rfl⟩
  obtain ⟨replies, sent, buffer, carrier⟩ := forgotten first_canonical
  obtain ⟨otherReplies, otherSent, otherBuffer, otherCarrier⟩ := forgotten second_canonical
  rw [same] at replies sent buffer carrier
  exact ⟨replies.symm.trans otherReplies, sent.symm.trans otherSent, buffer.symm.trans otherBuffer,
    carrier.symm.trans otherCarrier⟩

/-- A request at some time that comes to nothing: a put that finds no room, or
interests that are all passed over. -/
inductive Dismisses (flow : Flow τ) (time : Timestamp) : Request → Prop where
  | full {object : ContentObject} {highwater : Nat}
      (full : (flow.put object time).1 = .error (.capacity highwater)) : Dismisses flow time (.put object time)
  | ignored {interests : List Interest} (ignored : ∀ interest ∈ interests, flow.ignores interest = true) :
      Dismisses flow time (.ask interests time)

theorem askEach_ignored {interests : List Interest} (ignored : ∀ interest ∈ interests, flow.ignores interest = true)
    (answered : Nat) :
    flow.askEach now answered interests = (.ok answered, flow) ∧ outgoing (flow.askMoments now interests) = [] := by
  induction interests with
  | nil => exact ⟨rfl, rfl⟩
  | cons interest rest ih =>
    obtain ⟨here, others⟩ := List.forall_mem_cons.mp ignored
    have passed : flow.askOne interest now = (.ok false, flow) := by simp [askOne, here]
    obtain ⟨result, silent⟩ := ih others
    simp only [askEach, askMoments, passed, here, outgoing_cons, silent]
    exact ⟨result, rfl⟩

-- All that is left of such a request is what it forgets.
theorem Dismisses.handle_eq {request : Request} (dismisses : flow.Dismisses time request) :
    (flow.handle request).2 = flow.expire time ∧ outgoing (flow.moments request) = [] := by
  cases dismisses with
  | @full object highwater full =>
    have failed : flow.put object time = (.error (.capacity highwater), (flow.put object time).2) :=
      Prod.ext full rfl
    refine ⟨?_, ?_⟩
    · rcases put_failed failed with ⟨closed | outside, -⟩ | ⟨-, forgotten⟩ | ⟨fault, -, refused, -⟩
      · exact absurd closed (by simp)
      · exact absurd outside (by simp)
      · exact forgotten
      · exact absurd refused (by simp)
    · rw [moments, outgoing_putMoments, full]
      rfl
  | @ignored interests ignored =>
    have passed : ∀ interest ∈ interests, (flow.expire time).ignores interest = true := ignored
    obtain ⟨result, silent⟩ : (flow.expire time).askEach time 0 interests = (.ok 0, flow.expire time) ∧
        outgoing ((flow.expire time).askMoments time interests) = [] := askEach_ignored passed 0
    exact ⟨congrArg Prod.snd result, by rw [moments, outgoing_cons, silent]; rfl⟩

theorem Dismisses.run_eq (canonical : flow.pending.Canonical) {request : Request}
    (dismisses : flow.Dismisses time request) {later : List Request}
    (order : ∀ now ∈ later.filterMap Request.time?, time ≤ now) :
    ((flow.handle request).2.run later).1 = (flow.run later).1 ∧
      outgoing ((flow.handle request).2.history later) = outgoing (flow.history later) ∧
      ((flow.handle request).2.run later).2.buffer = (flow.run later).2.buffer ∧
      ((flow.handle request).2.run later).2.transport = (flow.run later).2.transport := by
  rw [dismisses.handle_eq.1]
  exact run_eq_of_expire_eq (canonical.retain _ _) canonical (expire_expire canonical (Timestamp.le_refl time)) order

/-- A request that comes to nothing leaves no trace. Whatever happened before and
whatever comes later, at times no earlier than its own, all other requests are
answered as if it had not been made, the same objects go to the transport, and
the same ones are buffered. -/
theorem dismissed_requests_leave_no_trace (config : FlowConfig) (transport : τ) {earlier later : List Request}
    {request : Request} {time : Timestamp}
    (dismissed : ((Flow.new config transport).run earlier).2.Dismisses time request)
    (order : ∀ now ∈ later.filterMap Request.time?, time ≤ now) :
    let start := Flow.new config transport
    let disturbed := earlier ++ request :: later
    let plain := earlier ++ later
    (start.run disturbed).1.eraseIdx earlier.length = (start.run plain).1 ∧
      outgoing (start.history disturbed) = outgoing (start.history plain) ∧
      (start.run disturbed).2.buffer = (start.run plain).2.buffer ∧
      (start.run disturbed).2.transport = (start.run plain).2.transport := by
  intro start disturbed plain
  have canonical : (start.run earlier).2.pending.Canonical :=
    (start.trail_history earlier).keeps (fun flow => flow.pending.Canonical) .empty Step.canonical
  have silent : outgoing ((start.run earlier).2.moments request) = [] := dismissed.handle_eq.2
  obtain ⟨replies, sent, stores⟩ := Dismisses.run_eq canonical dismissed order
  simp only [disturbed, plain, run_append, history_append, run, history, outgoing_append, silent, sent,
    List.nil_append]
  refine ⟨?_, trivial, stores⟩
  rw [List.eraseIdx_append_of_length_le (Nat.le_of_eq (length_run _ _)), length_run, Nat.sub_self]
  exact congrArg _ replies

namespace Sample

def packed : List Request :=
  [.addNamespace Sample.stream, .addNamespace aside, .setHighwater 1, .ask [exactly 1] ⟨1000⟩,
    .put (segment 1) ⟨1000⟩, .ask [exactly 4] ⟨1000⟩, .put asideItem ⟨1000⟩]

def crowding : Request := .put (segment 2) ⟨6000⟩

def astray : Request :=
  .ask [.ofName (.ofBytes [[0x75]]), (Interest.ofName Sample.stream).withOrigin .contentStore] ⟨6000⟩

def sequel : List Request :=
  [.ask [.ofName aside] ⟨6000⟩, .ask [follower 0] ⟨6000⟩, .put (segment 4) ⟨7000⟩, .put (segment 1) ⟨7000⟩]

end Sample

open Flow.Sample in
/-- Both requests make the flow forget the mark and the reader of the stream, and
neither makes a difference to what follows. -/
theorem packed_requests_leave_no_trace :
    (∀ now ∈ sequel.filterMap Request.time?, (⟨6000⟩ : Timestamp) ≤ now) ∧
    ∀ request ∈ [crowding, astray], (fresh.run packed).2.Dismisses ⟨6000⟩ request ∧
      ((fresh.run packed).2.handle request).2.lowWater? Sample.stream ≠ (fresh.run packed).2.lowWater? Sample.stream ∧
      outgoing (fresh.history (packed ++ request :: sequel)) = [segment 1, asideItem, segment 1] ∧
      (fresh.run (packed ++ request :: sequel)).2.buffer.values = [segment 4] := by
  have order : ∀ now ∈ sequel.filterMap Request.time?, (⟨6000⟩ : Timestamp) ≤ now := by decide +kernel
  have sent : outgoing (fresh.history (packed ++ sequel)) = [segment 1, asideItem, segment 1] := by decide +kernel
  have left : (fresh.run (packed ++ sequel)).2.buffer.values = [segment 4] := by decide +kernel
  have full : ((fresh.run packed).2.put (segment 2) ⟨6000⟩).1 = .error (.capacity 1) := by decide +kernel
  have ignored : ∀ interest ∈ [.ofName (.ofBytes [[0x75]]), (Interest.ofName Sample.stream).withOrigin .contentStore],
      (fresh.run packed).2.ignores interest = true := by decide +kernel
  have changed : ∀ request ∈ [crowding, astray],
      ((fresh.run packed).2.handle request).2.lowWater? Sample.stream
        ≠ (fresh.run packed).2.lowWater? Sample.stream := by decide +kernel
  have dismissed : ∀ request ∈ [crowding, astray], (fresh.run packed).2.Dismisses ⟨6000⟩ request :=
    List.forall_mem_cons.mpr ⟨.full full, List.forall_mem_singleton.mpr (.ignored ignored)⟩
  refine ⟨order, fun request member => ⟨dismissed request member, changed request member, ?_⟩⟩
  unfold fresh at *
  obtain ⟨-, same, stored, -⟩ :=
    dismissed_requests_leave_no_trace .standard ([] : List ContentObject) (dismissed request member) order
  exact ⟨same.trans sent, stored ▸ left⟩

end NamedContent.Flow
