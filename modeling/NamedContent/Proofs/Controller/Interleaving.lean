import Mathlib.Data.List.Pairwise
import NamedContent.Controller.Basic
import NamedContent.Proofs.Flow.Conservation
import NamedContent.Proofs.Table.Changes

/-! Producers and consumers in any order.

As long as there is room and nothing is refused or forgotten, what the calls to
a controller come to is a matter of what was put and what was asked for, and not
of the order: an object that was asked for has gone to the transport, any other
is buffered, and every interest that no object has used up waits. -/

set_option autoImplicit false

namespace NamedContent

variable {τ : Type}

def Name.Apart (names : List Name) : Prop := names.Pairwise fun name other => name.touches other = false

instance (names : List Name) : Decidable (Name.Apart names) :=
  inferInstanceAs (Decidable (names.Pairwise fun name other => name.touches other = false))

-- Among such names a plain interest matches objects of its own name only.
theorem Name.Apart.eq_of_matchesObject {names : List Name} (apart : Apart names) {name : Name}
    {object : ContentObject} (member : name ∈ names) (stored : object.name ∈ names)
    (matched : (Interest.ofName name).matchesObject object = true) : name = object.name := by
  by_contra different
  have symmetric : Std.Symm fun name other : Name => name.touches other = false :=
    ⟨fun name other clear => (touches_comm other name).trans clear⟩
  have clear : name.touches object.name = false := apart.forall member stored different
  exact absurd (clear.symm.trans (Interest.touches_name_of_matchesObject matched)) (by simp)

def wanted (objects : Multiset ContentObject) (asked : Multiset Name) : Multiset ContentObject :=
  objects.filter (·.name ∈ asked)

def unwanted (objects : Multiset ContentObject) (asked : Multiset Name) : Multiset ContentObject :=
  objects.filter (·.name ∉ asked)

section Wanted
variable {objects : Multiset ContentObject} {asked : Multiset Name} {object : ContentObject}

theorem cons_of_asked (objects : Multiset ContentObject) (known : object.name ∈ asked) :
    wanted (object ::ₘ objects) asked = object ::ₘ wanted objects asked ∧
      unwanted (object ::ₘ objects) asked = unwanted objects asked :=
  ⟨Multiset.filter_cons_of_pos _ known, Multiset.filter_cons_of_neg _ (not_not_intro known)⟩

theorem cons_of_unasked (objects : Multiset ContentObject) (unknown : object.name ∉ asked) :
    wanted (object ::ₘ objects) asked = wanted objects asked ∧
      unwanted (object ::ₘ objects) asked = object ::ₘ unwanted objects asked :=
  ⟨Multiset.filter_cons_of_neg _ unknown, Multiset.filter_cons_of_pos _ unknown⟩

-- Another name asked for makes no difference to objects of other names.
theorem cons_asked_of_ne {name : Name} (settled : ∀ object ∈ objects, object.name = name → name ∈ asked) :
    wanted objects (name ::ₘ asked) = wanted objects asked ∧
      unwanted objects (name ::ₘ asked) = unwanted objects asked := by
  have same : ∀ object ∈ objects, (object.name ∈ name ::ₘ asked ↔ object.name ∈ asked) := by
    intro object member
    rw [Multiset.mem_cons]
    exact ⟨fun known => known.elim (fun named => named ▸ settled object member named) id, Or.inr⟩
  exact ⟨Multiset.filter_congr same, Multiset.filter_congr fun object member => not_congr (same object member)⟩

theorem cons_asked (single : (objects.map (·.name)).Nodup) (member : object ∈ objects) (unknown : object.name ∉ asked) :
    wanted objects (object.name ::ₘ asked) = object ::ₘ wanted objects asked ∧
      unwanted objects asked = object ::ₘ unwanted objects (object.name ::ₘ asked) := by
  obtain ⟨others, rfl⟩ := Multiset.exists_cons_of_mem member
  rw [Multiset.map_cons, Multiset.nodup_cons] at single
  have elsewhere : ∀ other ∈ others, other.name = object.name → object.name ∈ asked :=
    fun other stored same => absurd (same ▸ Multiset.mem_map_of_mem _ stored) single.1
  have known : object.name ∈ object.name ::ₘ asked := Multiset.mem_cons_self _ _
  obtain ⟨takes, leaves⟩ := cons_of_asked others known
  obtain ⟨passes, keeps⟩ := cons_of_unasked others unknown
  obtain ⟨same, alike⟩ := cons_asked_of_ne elsewhere
  exact ⟨by rw [takes, passes, same], by rw [keeps, leaves, alike]⟩

end Wanted

namespace Flow

variable [Transport τ] {flow : Flow τ} {names : List Name}

/-- An open and enabled flow that covers some names and has room for an object
of each. Interests last, and the transport takes everything. -/
structure Serves (flow : Flow τ) (names : List Name) : Prop where
  opened : flow.closed = false
  enabled : flow.enabled = true
  lasting : flow.config.interestLifetime = none
  room : names.length ≤ flow.config.highwater
  covered : ∀ name ∈ names, flow.covers name = true
  steady : Transport.Steady flow.transport

namespace Serves

theorem keep (serves : flow.Serves names) {after : Flow τ} (steady : Transport.Steady after.transport)
    (same : (after.config, after.namespaces, after.enabled, after.closed)
      = (flow.config, flow.namespaces, flow.enabled, flow.closed)) : after.Serves names := by
  simp only [Prod.mk.injEq] at same
  obtain ⟨config, namespaces, enabled, closed⟩ := same
  refine ⟨closed.trans serves.opened, enabled.trans serves.enabled, ?_, ?_, ?_, steady⟩
  · rw [config]
    exact serves.lasting
  · rw [config]
    exact serves.room
  · simp only [covers, namespaces]
    exact serves.covered

theorem weighs (serves : flow.Serves names) {object : ContentObject} (member : object.name ∈ names) :
    flow.weighs object = true := by
  simp [Flow.weighs, serves.opened, serves.enabled, serves.covered _ member]

theorem heeds (serves : flow.Serves names) {name : Name} (member : name ∈ names) :
    flow.ignores (.ofName name) = false :=
  ignores_eq_false serves.opened (serves.covered name member) rfl

end Serves

def awaited (flow : Flow τ) : Multiset Name := flow.pending.toList.map Entry.name

/-- What a flow has come to after some objects were put and some names asked
for: objects of those names are gone, all others are buffered, and each one
gone has used up an interest. -/
structure Traded (ledger : Ledger τ) (names : List Name) (before objects : Multiset ContentObject)
    (asked : Multiset Name) (flow : Flow τ) : Prop where
  serves : flow.Serves names
  named : ∀ object ∈ objects, object.name ∈ names
  single : (objects.map (·.name)).Nodup
  wellFormed : flow.pending.WellFormed
  plain : ∀ entry ∈ flow.pending.toList, ∃ name ∈ names, ∃ seq, entry = .interest (.ofName name) ⟨seq, none⟩
  stored : (flow.buffer.values : Multiset ContentObject) = unwanted objects asked
  taken : ledger.taken flow.transport = before + wanted objects asked
  waiting : flow.awaited + (wanted objects asked).map (·.name) = asked

namespace Traded

theorem new (ledger : Ledger τ) (serves : flow.Serves names) (unstocked : flow.buffer = .empty)
    (unasked : flow.pending = .empty) : flow.Traded ledger names (ledger.taken flow.transport) 0 0 where
  serves := serves
  named := by simp
  single := Multiset.nodup_zero
  wellFormed := unasked ▸ Table.wellFormed_empty
  plain := by simp [unasked, Table.empty, Table.toList, Forest.toList]
  stored := by simp [unstocked, unwanted]
  taken := by simp [wanted]
  waiting := by simp [awaited, wanted, unasked, Table.empty, Table.toList, Forest.toList]

variable {ledger : Ledger τ} {before objects : Multiset ContentObject} {asked : Multiset Name}

theorem expire (traded : flow.Traded ledger names before objects asked) (now : Timestamp) :
    (flow.expire now).Traded ledger names before objects asked := by
  have live : (flow.expire now).pending.toList = flow.pending.toList := by
    refine (flow.pending.toList_filter _).trans (List.filter_eq_self.mpr fun entry waits => ?_)
    obtain ⟨name, -, seq, rfl⟩ := traded.plain entry waits
    rfl
  exact
    { serves := traded.serves.keep traded.serves.steady rfl
      named := traded.named
      single := traded.single
      wellFormed := traded.wellFormed.filter _
      plain := by rw [live]; exact traded.plain
      stored := traded.stored
      taken := traded.taken
      waiting := by rw [awaited, live]; exact traded.waiting }

theorem mem_stored (traded : flow.Traded ledger names before objects asked) {object : ContentObject} :
    object ∈ flow.buffer.values ↔ object ∈ objects ∧ object.name ∉ asked := by
  rw [← Multiset.mem_coe, traded.stored, unwanted, Multiset.mem_filter]

-- The objects held and one more have different names.
theorem size_lt (traded : flow.Traded ledger names before objects asked) {object : ContentObject}
    (member : object.name ∈ names) (fresh : object.name ∉ objects.map (·.name)) :
    flow.buffer.size < flow.config.highwater := by
  have held : flow.buffer.size ≤ objects.card := by
    rw [NameIndex.size_eq, ← Multiset.coe_card, traded.stored]
    exact Multiset.card_le_card (Multiset.filter_le _ _)
  have distinct : (object.name ::ₘ objects.map (·.name)).Nodup := Multiset.nodup_cons.mpr ⟨fresh, traded.single⟩
  have within : object.name ::ₘ objects.map (·.name) ≤ names := by
    refine (Multiset.le_iff_subset distinct).mpr fun name listed => ?_
    rcases Multiset.mem_cons.mp listed with rfl | listed
    · exact member
    · obtain ⟨other, stored, rfl⟩ := Multiset.mem_map.mp listed
      exact traded.named other stored
  have few := Multiset.card_le_card within
  rw [Multiset.card_cons, Multiset.card_map, Multiset.coe_card] at few
  exact Nat.lt_of_lt_of_le (Nat.lt_of_le_of_lt held few) traded.serves.room

theorem mem_asked_iff (traded : flow.Traded ledger names before objects asked) {name : Name}
    (fresh : name ∉ objects.map (·.name)) : name ∈ asked ↔ name ∈ flow.awaited := by
  rw [← traded.waiting, Multiset.mem_add]
  refine ⟨fun known => known.resolve_right fun used => fresh ?_, Or.inl⟩
  exact Multiset.mem_of_le (Multiset.map_le_map (Multiset.filter_le _ _)) used

theorem named_cons (traded : flow.Traded ledger names before objects asked) {object : ContentObject}
    (member : object.name ∈ names) : ∀ other ∈ object ::ₘ objects, other.name ∈ names :=
  Multiset.forall_mem_cons.mpr ⟨member, traded.named⟩

theorem single_cons (traded : flow.Traded ledger names before objects asked) {object : ContentObject}
    (fresh : object.name ∉ objects.map (·.name)) : ((object ::ₘ objects).map (·.name)).Nodup := by
  rw [Multiset.map_cons]
  exact Multiset.nodup_cons.mpr ⟨fresh, traded.single⟩

/-! The four ways in which a put or an interest ends. -/

section Ends
variable {object : ContentObject} {name : Name} {transport : τ}

theorem deliver (traded : flow.Traded ledger names before objects asked) (member : object.name ∈ names)
    (fresh : object.name ∉ objects.map (·.name)) {seq : Nat}
    (waits : Entry.interest (.ofName object.name) ⟨seq, none⟩ ∈ flow.pending.toList)
    (handed : Transport.deliver flow.transport object = (.ok (), transport)) (steady : Transport.Steady transport) :
    Traded ledger names before (object ::ₘ objects) asked
      { flow.forward object transport with
        pending := (flow.pending.removeInterest (.ofName object.name) ⟨seq, none⟩).2 } := by
  have known : object.name ∈ asked :=
    (traded.mem_asked_iff fresh).mpr (Multiset.mem_coe.mpr (List.mem_map_of_mem waits))
  have parted := Multiset.coe_eq_coe.mpr ((Table.perm_removeInterest traded.wellFormed waits).map Entry.name)
  obtain ⟨gone, held⟩ := cons_of_asked objects known
  exact
    { serves := traded.serves.keep (by simpa using steady) (by simp)
      named := traded.named_cons member
      single := traded.single_cons fresh
      wellFormed := traded.wellFormed.removeInterest _ _
      plain := fun entry left => traded.plain entry (Table.mem_of_mem_removeInterest traded.wellFormed left)
      stored := by simpa [held] using traded.stored
      taken := by
        rw [transport_forward, ledger.accepts handed, traded.taken, gone, ← Multiset.cons_zero, Multiset.add_cons,
          add_zero, Multiset.add_cons]
      waiting := by
        rw [gone, Multiset.map_cons, Multiset.add_cons, ← Multiset.cons_add]
        exact (congrArg (· + (wanted objects asked).map (·.name)) parted).trans traded.waiting }

theorem hold (traded : flow.Traded ledger names before objects asked) (member : object.name ∈ names)
    (fresh : object.name ∉ objects.map (·.name)) (unknown : object.name ∉ asked) :
    Traded ledger names before (object ::ₘ objects) asked { flow with buffer := flow.buffer.insert object } := by
  have new : flow.buffer.find? object.name = none := by
    cases found : flow.buffer.find? object.name with
    | none => rfl
    | some other =>
      obtain ⟨stored, named⟩ := NameIndex.find?_eq_some_iff.mp found
      exact absurd (named ▸ Multiset.mem_map_of_mem _ (traded.mem_stored.mp stored).1) fresh
  have arrives := flow.buffer.coe_insert object
  rw [new, traded.stored, Option.toList_none, Multiset.coe_nil, add_zero] at arrives
  obtain ⟨gone, held⟩ := cons_of_unasked objects unknown
  exact
    { serves := traded.serves.keep traded.serves.steady rfl
      named := traded.named_cons member
      single := traded.single_cons fresh
      wellFormed := traded.wellFormed
      plain := traded.plain
      stored := by rw [arrives, held, add_comm, Multiset.singleton_add]
      taken := by rw [gone]; exact traded.taken
      waiting := by rw [gone]; exact traded.waiting }

theorem answer (traded : flow.Traded ledger names before objects asked) (stored : object ∈ flow.buffer.values)
    (handed : Transport.deliver flow.transport object = (.ok (), transport)) (steady : Transport.Steady transport) :
    Traded ledger names before objects (object.name ::ₘ asked)
      { flow.forward object transport with buffer := flow.buffer.erase object.name } := by
  obtain ⟨put, unknown⟩ := traded.mem_stored.mp stored
  obtain ⟨gone, held⟩ := cons_asked traded.single put unknown
  have leaves := NameIndex.coe_erase stored
  rw [traded.stored, held, add_comm, Multiset.singleton_add, Multiset.cons_inj_right] at leaves
  exact
    { serves := traded.serves.keep (by simpa using steady) (by simp)
      named := traded.named
      single := traded.single
      wellFormed := by simpa using traded.wellFormed
      plain := by simpa using traded.plain
      stored := leaves
      taken := by
        rw [transport_forward, ledger.accepts handed, traded.taken, gone, ← Multiset.cons_zero, Multiset.add_cons,
          add_zero, Multiset.add_cons]
      waiting := by
        have same : awaited { flow.forward object transport with buffer := flow.buffer.erase object.name }
            = flow.awaited := by
          simp [awaited]
        rw [gone, same, Multiset.map_cons, Multiset.add_cons, traded.waiting] }

theorem register (traded : flow.Traded ledger names before objects asked) (member : name ∈ names)
    (unstored : ∀ object ∈ flow.buffer.values, object.name ≠ name) (now : Timestamp) :
    Traded ledger names before objects (name ::ₘ asked) (flow.register (.ofName name) now) := by
  have settled : ∀ object ∈ objects, object.name = name → name ∈ asked := by
    intro object put named
    by_contra unknown
    exact unstored object (traded.mem_stored.mpr ⟨put, named ▸ unknown⟩) named
  obtain ⟨gone, held⟩ := cons_asked_of_ne settled
  let entry : Entry Pending := .interest (.ofName name) ⟨flow.nextSeq, none⟩
  have added : (flow.register (.ofName name) now).pending = flow.pending.add entry := by
    simp [Flow.register, Table.addInterest, traded.serves.lasting, entry]
  have grown : (flow.register (.ofName name) now).pending.toList.Perm (entry :: flow.pending.toList) := by
    rw [added]
    exact flow.pending.perm_add traded.wellFormed.ordered entry
  exact
    { serves := traded.serves.keep traded.serves.steady rfl
      named := traded.named
      single := traded.single
      wellFormed := by rw [added]; exact traded.wellFormed.add entry
      plain := by
        intro other waits
        rcases List.mem_cons.mp (grown.mem_iff.mp waits) with rfl | waits
        · exact ⟨name, member, flow.nextSeq, rfl⟩
        · exact traded.plain other waits
      stored := traded.stored.trans held.symm
      taken := by rw [gone]; exact traded.taken
      waiting := by
        have longer : (flow.register (.ofName name) now).awaited = name ::ₘ flow.awaited :=
          Multiset.coe_eq_coe.mpr (grown.map Entry.name)
        rw [gone, longer, Multiset.cons_add, traded.waiting] }

end Ends

/-! Puts and interests. -/

theorem put (traded : flow.Traded ledger names before objects asked) (apart : Name.Apart names) {object : ContentObject}
    (member : object.name ∈ names) (fresh : object.name ∉ objects.map (·.name)) (now : Timestamp) :
    ∃ outcome after, flow.put object now = (.ok outcome, after) ∧
      after.Traded ledger names before (object ::ₘ objects) asked := by
  have later := traded.expire now
  rcases put_cases_of_weighs (traded.serves.weighs member) now with
    ⟨⟨interest, pending⟩, best, result⟩ | ⟨nothing, full | result⟩
  · obtain ⟨waits, allowed⟩ := waiting_of_bestPending? later.wellFormed best
    obtain ⟨name, within, seq, same⟩ := later.plain _ waits
    obtain ⟨rfl, rfl⟩ := Entry.interest.inj same
    obtain rfl : name = object.name := apart.eq_of_matchesObject within member (mayHave_iff.mp allowed).1
    obtain ⟨transport, handed, steady⟩ := later.serves.steady.deliver object
    refine ⟨.delivered, _, ?_, later.deliver member fresh waits handed steady⟩
    simp only [result, commit, deliver_ok handed, pending_forward]
  · exact absurd (traded.size_lt member fresh) (Nat.not_lt.mpr full)
  · refine ⟨.buffered, _, result, later.hold member fresh fun known => ?_⟩
    -- An interest that waits for the name would take the object.
    obtain ⟨entry, waits, entryNamed⟩ := List.mem_map.mp (Multiset.mem_coe.mp ((later.mem_asked_iff fresh).mp known))
    obtain ⟨name, within, seq, rfl⟩ := later.plain entry waits
    obtain rfl : name = object.name := entryNamed
    have late := inOrder_eq_false_of_bestPending? later.wellFormed nothing waits
      (Interest.matchesObject_ofName object.name.isPrefixOf_refl)
    exact absurd (late.symm.trans (inOrder_ofName _ _ _)) (by simp)

theorem askOne (traded : flow.Traded ledger names before objects asked) (apart : Name.Apart names) {name : Name}
    (member : name ∈ names) (now : Timestamp) :
    ∃ hit after, flow.askOne (.ofName name) now = (.ok hit, after) ∧
      after.Traded ledger names before objects (name ::ₘ asked) := by
  have heeded := traded.serves.heeds member
  cases best : flow.bestBuffered? (.ofName name) with
  | none =>
    refine ⟨false, _, by simp [Flow.askOne, heeded, best], traded.register member (fun object stored named => ?_) now⟩
    have late := inOrder_eq_false_of_bestBuffered? best stored
      (Interest.matchesObject_ofName (named ▸ object.name.isPrefixOf_refl))
    exact absurd (late.symm.trans (inOrder_ofName _ _ _)) (by simp)
  | some object =>
    obtain ⟨stored, matched, -⟩ := bestBuffered?_cases best
    obtain rfl : name = object.name :=
      apart.eq_of_matchesObject member (traded.named object (traded.mem_stored.mp stored).1) matched
    obtain ⟨transport, handed, steady⟩ := traded.serves.steady.deliver object
    exact ⟨true, _, askOne_ok heeded best handed now, traded.answer stored handed steady⟩

theorem askEach (traded : flow.Traded ledger names before objects asked) (apart : Name.Apart names) {wishes : List Name}
    (within : ∀ name ∈ wishes, name ∈ names) (now : Timestamp) (answered : Nat) :
    ∃ count after, flow.askEach now answered (wishes.map .ofName) = (.ok count, after) ∧
      after.Traded ledger names before objects (wishes + asked) := by
  induction wishes generalizing flow asked answered with
  | nil => exact ⟨answered, flow, rfl, by simpa using traded⟩
  | cons name rest ih =>
    obtain ⟨member, later⟩ := List.forall_mem_cons.mp within
    obtain ⟨hit, middle, first, onward⟩ := traded.askOne apart member now
    obtain ⟨count, after, others, last⟩ := ih onward later (answered + if hit then 1 else 0)
    refine ⟨count, after, ?_, ?_⟩
    · rw [List.map_cons, Flow.askEach, first]
      exact others
    · rwa [Multiset.add_cons, ← Multiset.cons_add, Multiset.cons_coe] at last

theorem ask (traded : flow.Traded ledger names before objects asked) (apart : Name.Apart names) {wishes : List Name}
    (within : ∀ name ∈ wishes, name ∈ names) (now : Timestamp) :
    ∃ count after, flow.ask (wishes.map .ofName) now = (.ok count, after) ∧
      after.Traded ledger names before objects (wishes + asked) :=
  (traded.expire now).askEach apart within now 0

theorem count_pending (traded : flow.Traded ledger names before objects asked) (name : Name) :
    flow.pending.toList.countP (·.interest? = some (.ofName name))
      + (if name ∈ (wanted objects asked).map (·.name) then 1 else 0) = asked.count name := by
  have waits : flow.awaited.count name = flow.pending.toList.countP (·.interest? = some (.ofName name)) := by
    rw [awaited, Multiset.coe_count, List.count, List.countP_map]
    refine List.countP_congr fun entry member => ?_
    obtain ⟨other, -, seq, rfl⟩ := traded.plain entry member
    simp [Entry.name, Entry.interest?, Interest.ofName]
  have distinct : ((wanted objects asked).map (·.name)).Nodup :=
    Multiset.nodup_of_le (Multiset.map_le_map (Multiset.filter_le _ _)) traded.single
  have level := congrArg (Multiset.count name) traded.waiting
  rwa [Multiset.count_add, waits, Multiset.count_eq_of_nodup distinct] at level

end Traded

end Flow

inductive Call where
  | put (object : ContentObject)
  | ask (names : List Name)
  | pass (clock : Clock)
  deriving DecidableEq

namespace Call

def objects : Call → List ContentObject
  | .put object => [object]
  | .ask _ | .pass _ => []

def names : Call → List Name
  | .ask names => names
  | .put _ | .pass _ => []

end Call

namespace Controller

variable [Transport τ]

def call (controller : Controller τ) : Call → Except Failure Unit × Controller τ
  | .put object =>
    let (answer, controller) := controller.put object
    (answer.map fun _ => (), controller)
  | .ask names =>
    let (answer, controller) := controller.ask (names.map .ofName)
    (answer.map fun _ => (), controller)
  | .pass clock => (.ok (), { controller with clock := clock })

def calls (controller : Controller τ) : List Call → List (Except Failure Unit) × Controller τ
  | [] => ([], controller)
  | call :: rest =>
    let (answer, controller) := controller.call call
    let (answers, controller) := controller.calls rest
    (answer :: answers, controller)

variable {ledger : Ledger τ} {names : List Name} {before objects : Multiset ContentObject} {asked : Multiset Name}
  {controller : Controller τ}

theorem call_traded (traded : controller.flow.Traded ledger names before objects asked) (apart : Name.Apart names)
    {call : Call} (named : ∀ object ∈ call.objects, object.name ∈ names)
    (fresh : ∀ object ∈ call.objects, object.name ∉ objects.map (·.name)) (within : ∀ name ∈ call.names, name ∈ names) :
    (controller.call call).1 = .ok () ∧
      (controller.call call).2.flow.Traded ledger names before (↑call.objects + objects) (↑call.names + asked) := by
  cases call with
  | put object =>
    obtain ⟨outcome, after, result, onward⟩ :=
      traded.put apart (named object List.mem_cons_self) (fresh object List.mem_cons_self) controller.now
    have put : controller.put object = (.ok outcome, ⟨after, controller.clock⟩) := by
      simp [Controller.put, step, result]
    simpa [Controller.call, put, Call.objects, Call.names, Except.map] using onward
  | ask wishes =>
    have known : ∀ name ∈ wishes, name ∈ names := within
    obtain ⟨count, after, result, onward⟩ := traded.ask apart known controller.now
    have ask : controller.ask (wishes.map .ofName) = (.ok count, ⟨after, controller.clock⟩) := by
      simp [Controller.ask, step, result]
    simpa [Controller.call, ask, Call.objects, Call.names, Except.map] using onward
  | pass clock => simpa [Controller.call, Call.objects, Call.names] using traded

theorem calls_traded (traded : controller.flow.Traded ledger names before objects asked) (apart : Name.Apart names)
    {calls : List Call} (named : ∀ object ∈ calls.flatMap Call.objects, object.name ∈ names)
    (single : ((↑(calls.flatMap Call.objects) + objects).map (·.name)).Nodup)
    (within : ∀ name ∈ calls.flatMap Call.names, name ∈ names) :
    (∀ answer ∈ (controller.calls calls).1, answer = .ok ()) ∧
      (controller.calls calls).2.flow.Traded ledger names before (↑(calls.flatMap Call.objects) + objects)
        (↑(calls.flatMap Call.names) + asked) := by
  induction calls generalizing controller objects asked with
  | nil => simpa [Controller.calls] using traded
  | cons call rest ih =>
    simp only [List.flatMap_cons, List.mem_append] at named within
    have objectsSplit : (↑((call :: rest).flatMap Call.objects) + objects : Multiset ContentObject)
        = ↑(rest.flatMap Call.objects) + (↑call.objects + objects) := by
      rw [List.flatMap_cons, ← Multiset.coe_add, add_assoc, add_left_comm]
    have namesSplit : (↑((call :: rest).flatMap Call.names) + asked : Multiset Name)
        = ↑(rest.flatMap Call.names) + (↑call.names + asked) := by
      rw [List.flatMap_cons, ← Multiset.coe_add, add_assoc, add_left_comm]
    rw [objectsSplit] at single ⊢
    rw [namesSplit]
    have apartSoFar := (Multiset.nodup_add.mp (Multiset.map_add _ _ _ ▸ single)).2.1
    have fresh := (Multiset.nodup_add.mp (Multiset.map_add _ _ _ ▸ apartSoFar)).2.2
    obtain ⟨first, onward⟩ := call_traded traded apart (fun object put => named object (Or.inl put))
      (fun object put => Multiset.disjoint_left.mp fresh (Multiset.mem_map_of_mem _ put))
      (fun name asks => within name (Or.inl asks))
    obtain ⟨others, last⟩ := ih onward (fun object put => named object (Or.inr put)) single
      (fun name asks => within name (Or.inr asks))
    exact ⟨List.forall_mem_cons.mpr ⟨first, others⟩, last⟩

/-- Producers and consumers may interleave freely. Of the names that a controller
serves none begins another, objects of some of them are put, once each, and any
number of plain interests ask for them in any batches. In whatever order the
calls come, all of them succeed, the objects whose names were asked for go to the
transport, once each, the buffer holds the others, and of the interests in a
name all wait but one that an object of the name has used up. -/
theorem interleavings_agree (ledger : Ledger τ) (apart : Name.Apart names) (serves : controller.flow.Serves names)
    (unstocked : controller.flow.buffer = .empty) (unasked : controller.flow.pending = .empty)
    {objects : List ContentObject} (named : ∀ object ∈ objects, object.name ∈ names)
    (single : (objects.map (·.name)).Nodup) {asked : List Name} (within : ∀ name ∈ asked, name ∈ names)
    {calls : List Call} (puts : (calls.flatMap Call.objects).Perm objects)
    (asks : (calls.flatMap Call.names).Perm asked) :
    let answers := (controller.calls calls).1
    let after := (controller.calls calls).2.flow
    let delivered := objects.filter (·.name ∈ asked)
    (∀ answer ∈ answers, answer = .ok ()) ∧
    ledger.taken after.transport = ledger.taken controller.flow.transport + delivered ∧
    (after.buffer.values : Multiset ContentObject) = objects.filter (·.name ∉ asked) ∧
    (∀ entry ∈ after.pending.toList, ∃ name ∈ names, entry.interest? = some (.ofName name)) ∧
    ∀ name, after.pending.toList.countP (·.interest? = some (.ofName name))
      + (if name ∈ delivered.map (·.name) then 1 else 0) = asked.count name := by
  intro answers after delivered
  have start := Flow.Traded.new ledger serves unstocked unasked
  have putsSame : (↑(calls.flatMap Call.objects) : Multiset ContentObject) = objects := Multiset.coe_eq_coe.mpr puts
  have asksSame : (↑(calls.flatMap Call.names) : Multiset Name) = asked := Multiset.coe_eq_coe.mpr asks
  obtain ⟨succeed, traded⟩ := calls_traded start apart (fun object put => named object (puts.subset put))
    (by simpa [putsSame] using single) (fun name known => within name (asks.subset known))
  rw [putsSame, asksSame, add_zero, add_zero] at traded
  have gone : wanted objects asked = ↑delivered := by simp [wanted, delivered]
  refine ⟨succeed, gone ▸ traded.taken, by simpa [unwanted] using traded.stored, ?_, ?_⟩
  · intro entry waits
    obtain ⟨name, member, seq, rfl⟩ := traded.plain entry waits
    exact ⟨name, member, rfl⟩
  · intro name
    have level := traded.count_pending name
    rw [gone] at level
    simpa using level

namespace Sample

def early : Name := .ofBytes [[97], [120]]

def late : Name := .ofBytes [[97], [121]]

def never : Name := .ofBytes [[98]]

def content (name : Name) : ContentObject := .new name []

theorem name_content (name : Name) : (content name).name = name := rfl

def market : Controller Recorder :=
  let config : FlowConfig := { FlowConfig.standard with highwater := 3, interestLifetime := none }
  ⟨{ Flow.new config Recorder.new with namespaces := [.root] }, .manual ⟨1000⟩⟩

/-- One name is asked for twice before its object comes, one after, and one never. -/
def bargain : List Call :=
  [.ask [early, early], .put (content late), .pass (.manual ⟨9000⟩), .put (content never), .put (content early),
    .ask [late]]

theorem serves_market : market.flow.Serves [early, late, never] where
  opened := rfl
  enabled := rfl
  lasting := rfl
  room := Nat.le_refl 3
  covered := by decide
  steady := by
    refine ⟨(·.quota = none), rfl, ?_⟩
    rintro ⟨taken, quota⟩ object rfl
    exact ⟨_, rfl, rfl⟩

end Sample

open Controller.Sample in
theorem bargain_agrees :
    Name.Apart [early, late, never] ∧ market.flow.Serves [early, late, never] ∧
      (bargain.flatMap Call.objects).Perm [content early, content late, content never] ∧
      (bargain.flatMap Call.names).Perm [early, early, late] ∧
      (∀ answer ∈ (market.calls bargain).1, answer = .ok ()) ∧
      Recorder.ledger.taken (market.calls bargain).2.flow.transport = {content early, content late} ∧
      ((market.calls bargain).2.flow.buffer.values : Multiset ContentObject) = {content never} ∧
      (market.calls bargain).2.flow.pending.toList.countP (·.interest? = some (.ofName early)) = 1 := by
  have apart : Name.Apart [early, late, never] := by decide
  have puts : (bargain.flatMap Call.objects).Perm [content early, content late, content never] :=
    (List.perm_append_comm : ([content late, content never] ++ [content early]).Perm _)
  have asks : (bargain.flatMap Call.names).Perm [early, early, late] := .refl _
  obtain ⟨succeed, taken, held, -, waits⟩ :=
    interleavings_agree Recorder.ledger apart serves_market rfl rfl (by simp [name_content]) (by decide) (by decide) puts asks
  have used : early ∈ ([content early, content late, content never].filter
      (·.name ∈ [early, early, late])).map (·.name) := by
    decide
  have twice : [early, early, late].count early = 2 := by decide
  have level := waits early
  rw [if_pos used, twice] at level
  exact ⟨apart, serves_market, puts, asks, succeed, taken, held, Nat.succ.inj level⟩

end Controller

end NamedContent
