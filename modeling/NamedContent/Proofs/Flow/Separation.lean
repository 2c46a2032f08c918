import NamedContent.Proofs.Flow.Mirroring

/-! Namespaces that do not interfere.

Two namespaces of which none begins the other share a flow: its clock, its
buffer, its table of interests and their numbers. Still, what is put and asked
for under one of them comes to the same as if the other were not used at all, as
long as there is room and the transport takes everything. The requests under the
other one may make the flow forget earlier, but nothing that would not have been
forgotten by the time it is looked for. -/

set_option autoImplicit false

namespace NamedContent.Flow

def Request.time? : Request → Option Timestamp
  | .put _ now | .ask _ now => some now
  | _ => none

def Request.isUnder (side : Name) : Request → Bool
  | .put object _ => side.isPrefixOf object.name
  | .ask interests _ => interests.all (side.isPrefixOf ·.name)
  | _ => false

def Reply.isFull : Reply → Bool
  | .put (.error (.capacity _)) => true
  | _ => false

/-- A request and the namespace it is about. -/
structure Turn where
  owner : Name
  request : Request
  deriving DecidableEq

def requestsAbout (side : Name) (turns : List Turn) : List Request :=
  (turns.filter (·.owner = side)).map Turn.request

def repliesAbout (side : Name) (turns : List Turn) (replies : List Reply) : List Reply :=
  ((turns.zip replies).filter (·.1.owner = side)).map Prod.snd

section About
variable {side : Name} {turn : Turn} {turns : List Turn} {reply : Reply} {replies : List Reply}

theorem requestsAbout_cons (own : turn.owner = side) :
    requestsAbout side (turn :: turns) = turn.request :: requestsAbout side turns := by
  simp [requestsAbout, own]

theorem requestsAbout_cons_of_ne (foreign : turn.owner ≠ side) :
    requestsAbout side (turn :: turns) = requestsAbout side turns := by
  simp [requestsAbout, foreign]

theorem repliesAbout_cons (own : turn.owner = side) :
    repliesAbout side (turn :: turns) (reply :: replies) = reply :: repliesAbout side turns replies := by
  simp [repliesAbout, own]

theorem repliesAbout_cons_of_ne (foreign : turn.owner ≠ side) :
    repliesAbout side (turn :: turns) (reply :: replies) = repliesAbout side turns replies := by
  simp [repliesAbout, foreign]

theorem Request.exists_time? {request : Request} (under : request.isUnder side = true) :
    ∃ now, request.time? = some now := by
  cases request with
  | put object now => exact ⟨now, rfl⟩
  | ask interests now => exact ⟨now, rfl⟩
  | _ => exact absurd under (by simp [isUnder])

end About

variable {τ : Type}

def outgoing (moments : List (Moment τ)) : List ContentObject := moments.filterMap (·.event.accepted?)

@[simp] theorem outgoing_cons (moment : Moment τ) (rest : List (Moment τ)) :
    outgoing (moment :: rest) = moment.event.accepted?.toList ++ outgoing rest := by
  cases accepted : moment.event.accepted? <;> simp [outgoing, accepted]

@[simp] theorem outgoing_append (past later : List (Moment τ)) :
    outgoing (past ++ later) = outgoing past ++ outgoing later :=
  List.filterMap_append

def dispatched (object : ContentObject) : Except Failure PutOutcome → List ContentObject
  | .ok .delivered | .ok .bypassed => [object]
  | .ok .buffered | .error _ => []

theorem eq_of_mem_dispatched {object sent : ContentObject} {outcome : Except Failure PutOutcome}
    (member : sent ∈ dispatched object outcome) : sent = object := by
  rcases outcome with failure | (_ | _ | _)
  · exact absurd member List.not_mem_nil
  · exact List.mem_singleton.mp member
  · exact absurd member List.not_mem_nil
  · exact List.mem_singleton.mp member

theorem bestBuffered?_of_accepted? {flow : Flow τ} {interest : Interest} {reply : Except Failure Bool}
    {object : ContentObject}
    (accepts : (if flow.ignores interest then Event.passedOver interest
      else askEvent interest (flow.bestBuffered? interest) reply).accepted? = some object) :
    flow.bestBuffered? interest = some object := by
  split at accepts
  · exact absurd accepts (by simp [Event.accepted?])
  · cases best : flow.bestBuffered? interest with
    | none => simp [best, askEvent, Event.accepted?] at accepts
    | some held =>
      rw [best] at accepts
      rcases reply with failure | hit
      · exact absurd accepts (by simp [askEvent, Event.accepted?])
      · exact accepts

variable [Transport τ]

theorem outgoing_putMoments (flow : Flow τ) (object : ContentObject) (now : Timestamp) :
    outgoing (flow.putMoments object now) = dispatched object (flow.put object now).1 := by
  have level :
      (outgoing (flow.putMoments object now) : Multiset ContentObject) = handed object (flow.put object now).1 :=
    (total_toList Event.accepted? _).symm.trans (flow.sent_putMoments object now)
  generalize (flow.put object now).1 = outcome at level ⊢
  rcases outcome with failure | (_ | _ | _)
  · exact (Multiset.coe_eq_zero _).mp level
  · exact Multiset.coe_eq_singleton.mp level
  · exact (Multiset.coe_eq_zero _).mp level
  · exact Multiset.coe_eq_singleton.mp level

namespace Mirrors

variable {side other : Name} {rank : Nat → Nat} {whole part : Flow τ}

theorem askEach (mirrors : Mirrors side other rank whole part) (apart : side.touches other = false)
    {interests : List Interest} (asks : ∀ interest ∈ interests, side.isPrefixOf interest.name = true)
    (now : Timestamp) (answered : Nat) :
    (part.askEach now answered interests).1 = (whole.askEach now answered interests).1 ∧
      outgoing (part.askMoments now interests) = outgoing (whole.askMoments now interests) ∧
      (∀ object ∈ outgoing (whole.askMoments now interests), side.isPrefixOf object.name = true) ∧
      ∃ changed, Mirrors side other changed (whole.askEach now answered interests).2
        (part.askEach now answered interests).2 := by
  induction interests generalizing whole part rank answered with
  | nil => exact ⟨rfl, rfl, by simp [askMoments, outgoing], rank, mirrors⟩
  | cons interest rest ih =>
    obtain ⟨here, later⟩ := List.forall_mem_cons.mp asks
    obtain ⟨hit, after, partAfter, changed, asked, partAsked, next⟩ := mirrors.askOne apart here now
    obtain ⟨counts, leaves, lies, others⟩ := ih next later (answered + if hit then 1 else 0)
    simp only [Flow.askEach, askMoments, asked, partAsked, outgoing_cons, mirrors.ignores_eq interest,
      mirrors.bestBuffered?_eq apart here]
    refine ⟨counts, by rw [leaves], ?_, others⟩
    intro object member
    rcases List.mem_append.mp member with taken | taken
    · have best := bestBuffered?_of_accepted? (Option.mem_toList.mp taken)
      exact lies_of_bestBuffered? apart mirrors.lies here best
    · exact lies object taken

theorem askEach_other (mirrors : Mirrors side other rank whole part) (apart : side.touches other = false)
    {interests : List Interest} (asks : ∀ interest ∈ interests, other.isPrefixOf interest.name = true)
    (now : Timestamp) (answered : Nat) :
    (∀ object ∈ outgoing (whole.askMoments now interests), side.isPrefixOf object.name = false) ∧
      Mirrors side other rank (whole.askEach now answered interests).2 part := by
  induction interests generalizing whole answered with
  | nil => exact ⟨by simp [askMoments, outgoing], mirrors⟩
  | cons interest rest ih =>
    obtain ⟨here, later⟩ := List.forall_mem_cons.mp asks
    obtain ⟨hit, after, asked, next⟩ := mirrors.askOne_other apart here now
    obtain ⟨lies, others⟩ := ih next later (answered + if hit then 1 else 0)
    simp only [Flow.askEach, askMoments, asked, outgoing_cons]
    refine ⟨fun object member => ?_, others⟩
    rcases List.mem_append.mp member with taken | taken
    · have across := Name.touches_eq_false_comm apart
      have best := bestBuffered?_of_accepted? (Option.mem_toList.mp taken)
      exact Name.isPrefixOf_eq_false across
        (lies_of_bestBuffered? across (fun object stored => (mirrors.lies object stored).symm) here best)
    · exact lies object taken

theorem handle {now : Timestamp} (mirrors : Mirrors side other rank (whole.expire now) (part.expire now))
    (apart : side.touches other = false) {request : Request} (timed : request.time? = some now)
    (under : request.isUnder side = true) (roomy : (whole.handle request).1.isFull = false) :
    (part.handle request).1 = (whole.handle request).1 ∧
      outgoing (part.moments request) = outgoing (whole.moments request) ∧
      (∀ object ∈ outgoing (whole.moments request), side.isPrefixOf object.name = true) ∧
      ∃ changed, Mirrors side other changed (whole.handle request).2 (part.handle request).2 := by
  cases request with
  | put object time =>
    obtain rfl : time = now := Option.some.inj timed
    have room : ∀ highwater, (whole.put object time).1 ≠ .error (.capacity highwater) := by
      intro highwater full
      simp [Flow.handle, full, Reply.isFull] at roomy
    obtain ⟨same, after⟩ := mirrors.put apart under room
    refine ⟨congrArg Reply.put same, ?_, ?_, rank, after⟩
    · rw [moments, moments, outgoing_putMoments, outgoing_putMoments, same]
    · intro sent member
      rw [moments, outgoing_putMoments] at member
      rw [eq_of_mem_dispatched member]
      exact under
  | ask interests time =>
    obtain rfl : time = now := Option.some.inj timed
    obtain ⟨counts, leaves, lies, after⟩ := mirrors.askEach apart (List.all_eq_true.mp under) time 0
    exact ⟨congrArg Reply.answered counts, leaves, lies, after⟩
  | _ => exact absurd timed (by simp [Request.time?])

theorem handle_other {now : Timestamp} (mirrors : Mirrors side other rank (whole.expire now) part)
    (apart : side.touches other = false) {request : Request} (timed : request.time? = some now)
    (under : request.isUnder other = true) :
    (∀ object ∈ outgoing (whole.moments request), side.isPrefixOf object.name = false) ∧
      Mirrors side other rank (whole.handle request).2 part := by
  cases request with
  | put object time =>
    obtain rfl : time = now := Option.some.inj timed
    refine ⟨fun sent member => ?_, mirrors.put_other apart under⟩
    rw [moments, outgoing_putMoments] at member
    rw [eq_of_mem_dispatched member]
    exact Name.isPrefixOf_eq_false (Name.touches_eq_false_comm apart) under
  | ask interests time =>
    obtain rfl : time = now := Option.some.inj timed
    exact mirrors.askEach_other apart (List.all_eq_true.mp under) time 0
  | _ => exact absurd timed (by simp [Request.time?])

theorem run (apart : side.touches other = false) {turns : List Turn} {time : Timestamp}
    (mirrors : Mirrors side other rank (whole.expire time) (part.expire time))
    (canonical : whole.pending.Canonical) (partCanonical : part.pending.Canonical)
    (owned : ∀ turn ∈ turns, (turn.owner = side ∨ turn.owner = other) ∧ turn.request.isUnder turn.owner = true)
    (ordered : (time :: turns.filterMap (·.request.time?)).Pairwise (· ≤ ·))
    (roomy : ∀ reply ∈ (whole.run (turns.map Turn.request)).1, reply.isFull = false) :
    repliesAbout side turns (whole.run (turns.map Turn.request)).1 = (part.run (requestsAbout side turns)).1 ∧
      (outgoing (whole.history (turns.map Turn.request))).filter (side.isPrefixOf ·.name)
        = outgoing (part.history (requestsAbout side turns)) ∧
      (part.run (requestsAbout side turns)).2.buffer
        = (whole.run (turns.map Turn.request)).2.buffer.filter (side.isPrefixOf ·.name) := by
  induction turns generalizing whole part rank time with
  | nil => exact ⟨rfl, rfl, mirrors.buffer⟩
  | cons turn rest ih =>
    obtain ⟨⟨owner, under⟩, others⟩ := List.forall_mem_cons.mp owned
    obtain ⟨now, timed⟩ := Request.exists_time? under
    have times : (turn :: rest).filterMap (·.request.time?) = now :: rest.filterMap (·.request.time?) :=
      List.filterMap_cons_some timed
    rw [times] at ordered
    obtain ⟨after, later⟩ := List.pairwise_cons.mp ordered
    have order : time ≤ now := after now List.mem_cons_self
    obtain ⟨room, moreRoom⟩ := List.forall_mem_cons.mp roomy
    have here := mirrors.expire now
    rw [expire_expire canonical order, expire_expire partCanonical order] at here
    have onward := canonical_handle canonical turn.request
    by_cases own : turn.owner = side
    · rw [own] at under
      obtain ⟨same, leaves, lies, changed, next⟩ := here.handle apart timed under room
      obtain ⟨replies, sent, stored⟩ :=
        ih (next.expire now) onward (canonical_handle partCanonical turn.request) others later moreRoom
      rw [requestsAbout_cons own]
      refine ⟨?_, ?_, stored⟩
      · exact (repliesAbout_cons own).trans (congrArg₂ List.cons same.symm replies)
      · simp only [List.map_cons, history, outgoing_append, List.filter_append, sent, leaves,
          List.filter_eq_self.mpr lies]
    · have across := owner.resolve_left own
      rw [across] at under
      obtain ⟨lies, next⟩ := here.handle_other apart timed under
      have again := next.expire now
      rw [expire_expire partCanonical (Nat.le_refl _ : now.ms.toNat ≤ now.ms.toNat)] at again
      obtain ⟨replies, sent, stored⟩ := ih again onward partCanonical others later moreRoom
      rw [requestsAbout_cons_of_ne own]
      refine ⟨(repliesAbout_cons_of_ne own).trans replies, ?_, stored⟩
      have nothing : (outgoing (whole.moments turn.request)).filter (side.isPrefixOf ·.name) = [] :=
        List.filter_eq_nil_iff.mpr fun object member => Bool.eq_false_iff.mp (lies object member)
      simp only [List.map_cons, history, outgoing_append, List.filter_append, sent, nothing, List.nil_append]

end Mirrors

theorem run_addNamespace (flow : Flow τ) (names : List Name) :
    ∃ namespaces, (flow.run (names.map .addNamespace)).2 = { flow with namespaces } ∧
      (∀ name ∈ flow.namespaces, name ∈ namespaces) ∧ ∀ name ∈ names, name ∈ namespaces := by
  induction names generalizing flow with
  | nil => exact ⟨flow.namespaces, rfl, fun _ => id, by simp⟩
  | cons name rest ih =>
    obtain ⟨namespaces, result, kept, added⟩ := ih (flow.addNamespace name)
    have first : ∃ grown, flow.addNamespace name = { flow with namespaces := grown } ∧
        (∀ held ∈ flow.namespaces, held ∈ grown) ∧ name ∈ grown := by
      by_cases known : flow.namespaces.contains name = true
      · exact ⟨flow.namespaces, by rw [addNamespace, if_pos known], fun _ => id, List.contains_iff_mem.mp known⟩
      · exact ⟨flow.namespaces ++ [name], by rw [addNamespace, if_neg known],
          fun _ held => List.mem_append_left _ held, by simp⟩
    obtain ⟨grown, step, held, here⟩ := first
    rw [step] at result kept
    refine ⟨namespaces, ?_, fun other member => kept other (held other member), ?_⟩
    · exact (congrArg (fun flow : Flow τ => (flow.run (rest.map .addNamespace)).2) step).trans result
    · exact List.forall_mem_cons.mpr ⟨kept name here, added⟩

def newWith (config : FlowConfig) (transport : τ) (namespaces : List Name) : Flow τ :=
  ((Flow.new config transport).run (namespaces.map .addNamespace)).2

theorem mirrors_newWith (config : FlowConfig) {transport : τ} (steady : Transport.Steady transport) {side other : Name}
    {namespaces : List Name} (here : side ∈ namespaces) (there : other ∈ namespaces) :
    Mirrors side other id (newWith config transport namespaces) (newWith config transport namespaces) := by
  obtain ⟨registered, result, -, added⟩ := (Flow.new config transport).run_addNamespace namespaces
  rw [newWith, result]
  have nowhere : ∀ path, (Table.empty : Table Pending).entriesAt path = [] := by
    intro path
    cases path <;> rfl
  exact
    { serves := by
        intro object lies
        have covered : registered.any (·.isPrefixOf object.name) = true := by
          rcases lies with within | within
          · exact List.any_eq_true.mpr ⟨side, added side here, within⟩
          · exact List.any_eq_true.mpr ⟨other, added other there, within⟩
        simpa [weighs, covers, Flow.new] using covered
      config := rfl
      namespaces := rfl
      now := rfl
      enabled := rfl
      closed := rfl
      steady := steady
      partSteady := steady
      lies := by simp [Flow.new]
      buffer := NameIndex.ext (by simp [Flow.new])
      marks := fun _ _ => rfl
      pending :=
        { canonical := .empty
          partCanonical := .empty
          lies := by simp [Flow.new, Table.empty, Table.toList, Forest.toList]
          entries := fun path _ => by rw [Flow.new, nowhere path, List.map_nil] }
      ranks :=
        { below := by simp [Flow.new, Table.numbersUnder, Table.empty, Table.toList, Forest.toList]
          order := fun _ _ _ _ => Iff.rfl } }

/-- Disjoint namespaces do not interfere. Neither of two registered namespaces
begins the other, every put and every batch of interests is about one of them,
times do not decrease, the transport takes everything and every put finds room.
Then the replies to the requests about one namespace, the objects under it that
go to the transport and those that stay in the buffer are the same as if the
requests about the other were left out. -/
theorem disjoint_namespaces_do_not_interfere (config : FlowConfig) {transport : τ}
    (steady : Transport.Steady transport) {side other : Name} (apart : side.touches other = false)
    {namespaces : List Name} (here : side ∈ namespaces) (there : other ∈ namespaces) {turns : List Turn}
    (owned : ∀ turn ∈ turns, (turn.owner = side ∨ turn.owner = other) ∧ turn.request.isUnder turn.owner = true)
    (ordered : (turns.filterMap (·.request.time?)).Pairwise (· ≤ ·))
    (roomy : ∀ reply ∈ ((newWith config transport namespaces).run (turns.map Turn.request)).1,
      reply.isFull = false) :
    let start := newWith config transport namespaces
    let requests := turns.map Turn.request
    let own := requestsAbout side turns
    repliesAbout side turns (start.run requests).1 = (start.run own).1 ∧
      (outgoing (start.history requests)).filter (side.isPrefixOf ·.name) = outgoing (start.history own) ∧
      (start.run requests).2.buffer.values.filter (side.isPrefixOf ·.name) = (start.run own).2.buffer.values := by
  intro start requests own
  have mirrors : Mirrors side other id start start := mirrors_newWith config steady here there
  have canonical : start.pending.Canonical := mirrors.pending.canonical
  have since : (Timestamp.zero :: turns.filterMap (·.request.time?)).Pairwise (· ≤ ·) :=
    List.pairwise_cons.mpr ⟨fun time _ => UInt64.zero_le, ordered⟩
  obtain ⟨replies, sent, stored⟩ := (mirrors.expire .zero).run apart canonical canonical owned since roomy
  exact ⟨replies, sent, by rw [stored, NameIndex.values_filter]⟩

namespace Sample

def aside : Name := .ofBytes [[0x74]]

def asideItem : ContentObject := .new (aside.child ⟨[0x61]⟩) []

/-- A reader of the stream waits for segment 1 while an object beside it is put
and taken, and the interest beside it comes late enough to forget the mark of
the stream. -/
def visits : List Turn :=
  [⟨stream, .ask [follower 0] ⟨1000⟩⟩, ⟨aside, .put asideItem ⟨1000⟩⟩, ⟨aside, .ask [.ofName aside] ⟨2000⟩⟩,
    ⟨stream, .put (segment 1) ⟨3000⟩⟩, ⟨aside, .ask [.ofName aside] ⟨8000⟩⟩, ⟨stream, .put (segment 3) ⟨9000⟩⟩]

def shared : Flow (List ContentObject) := newWith .standard [] [stream, aside]

theorem steady_list (taken : List ContentObject) : Transport.Steady taken :=
  ⟨fun _ => True, trivial, fun _ _ _ => ⟨_, rfl, trivial⟩⟩

end Sample

open Flow.Sample in
theorem visits_do_not_interfere :
    Transport.Steady ([] : List ContentObject) ∧ stream.touches aside = false ∧
      (∀ turn ∈ visits, (turn.owner = stream ∨ turn.owner = aside) ∧ turn.request.isUnder turn.owner = true) ∧
      (visits.filterMap (·.request.time?)).Pairwise (· ≤ ·) ∧
      (∀ reply ∈ (shared.run (visits.map Turn.request)).1, reply.isFull = false) ∧
      repliesAbout stream visits (shared.run (visits.map Turn.request)).1
        = (shared.run (requestsAbout stream visits)).1 ∧
      (outgoing (shared.history (visits.map Turn.request))).filter (stream.isPrefixOf ·.name) = [segment 1] ∧
      (shared.run (visits.map Turn.request)).2.buffer.values.filter (stream.isPrefixOf ·.name) = [segment 3] := by
  have apart : stream.touches aside = false := by decide
  have owned : ∀ turn ∈ visits,
      (turn.owner = stream ∨ turn.owner = aside) ∧ turn.request.isUnder turn.owner = true := by
    decide +kernel
  have ordered : (visits.filterMap (·.request.time?)).Pairwise (· ≤ ·) := by decide +kernel
  have roomy : ∀ reply ∈ (shared.run (visits.map Turn.request)).1, reply.isFull = false := by decide +kernel
  have alone : outgoing (shared.history (requestsAbout stream visits)) = [segment 1] := by decide +kernel
  have left : (shared.run (requestsAbout stream visits)).2.buffer.values = [segment 3] := by decide +kernel
  unfold shared at *
  obtain ⟨replies, sent, stored⟩ := disjoint_namespaces_do_not_interfere .standard (steady_list []) apart
    (List.mem_cons_self : stream ∈ [stream, aside]) (by decide) owned ordered roomy
  exact ⟨steady_list [], apart, owned, ordered, roomy, replies, sent.trans alone, stored.trans left⟩

end NamedContent.Flow
