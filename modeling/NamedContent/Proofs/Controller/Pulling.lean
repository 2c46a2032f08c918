import NamedContent.Proofs.Controller.Closing
import NamedContent.Proofs.Controller.Reading
import NamedContent.Proofs.Flow.Retrieval

/-! Which object a pull brings.

The selector of a pull ranks what is buffered. The answer is then taken from the
queue, where late answers to earlier pulls may lie, and there the earliest match
comes first whatever its name. In a session whose pulls are all answered at once
nothing is ever left in the queue. -/

set_option autoImplicit false

namespace NamedContent

theorem DeliveryQueue.objects_of_delivered {queue next : DeliveryQueue} {object : ContentObject}
    (handed : Transport.deliver queue object = (.ok (), next)) :
    next.objects = queue.objects ++ [object] := by
  change queue.deliver object = _ at handed
  have listed := queue.objects_deliver object
  rw [handed] at listed
  cases gone : queue.receiverGone with
  | true => simp [DeliveryQueue.deliver, gone] at handed
  | false => simpa [gone] using listed

namespace Flow

structure Idle (flow : Flow DeliveryQueue) : Prop where
  pending : flow.pending = .empty
  unqueued : flow.transport.objects = []
  enabled : flow.enabled = true

namespace Idle

variable {flow : Flow DeliveryQueue}

theorem expire (idle : flow.Idle) (now : Timestamp) : (flow.expire now).Idle where
  pending := pending_expire_of_empty idle.pending now
  unqueued := idle.unqueued
  enabled := idle.enabled

theorem addNamespace (idle : flow.Idle) (name : Name) : (flow.addNamespace name).Idle where
  pending := by simp [idle.pending]
  unqueued := by simp [idle.unqueued]
  enabled := by simp [idle.enabled]

theorem removeNamespace (idle : flow.Idle) (name : Name) : (flow.removeNamespace name).2.Idle where
  pending := by simp [idle.pending]
  unqueued := by simp [idle.unqueued]
  enabled := by simp [idle.enabled]

theorem bestPending?_eq_none (idle : flow.Idle) (object : ContentObject) : flow.bestPending? object = none := by
  rw [bestPending?, waiting, idle.pending]
  rfl

theorem put (idle : flow.Idle) (object : ContentObject) (now : Timestamp) : (flow.put object now).2.Idle := by
  obtain ⟨answer, weighed, weighing, judged, result⟩ := flow.put_cases object now
  have held : weighed.Idle := by
    rw [weighing]
    split
    · exact idle.expire now
    · exact idle
  rw [result]
  cases judged with
  | bypass _ disabled => exact absurd (held.enabled.symm.trans disabled) (by simp)
  | deliver _ best => exact absurd ((held.bestPending?_eq_none object).symm.trans best) (by simp)
  | buffer => exact ⟨held.pending, held.unqueued, held.enabled⟩
  | _ => exact held

end Idle

end Flow

namespace Controller

section Pulls
variable {controller after : Controller DeliveryQueue} {interest : Interest} {object first : ContentObject}
variable {timeout : Duration} {name : Name} {count : Nat}

def earliest? (controller : Controller DeliveryQueue) (interest : Interest) : Option ContentObject :=
  controller.flow.transport.objects.find? interest.matchesObject

def matched (controller : Controller DeliveryQueue) (interest : Interest) : Set ContentObject :=
  {object | interest.matchesObject object = true ∧
    (object ∈ controller.flow.transport.objects ∨ object ∈ controller.flow.buffer.values)}

/-- The matches that are queued, or buffered and in order for the interest. -/
def eligible (controller : Controller DeliveryQueue) (interest : Interest) : Set ContentObject :=
  {object | interest.matchesObject object = true ∧
    (object ∈ controller.flow.transport.objects ∨
      object ∈ controller.flow.buffer.values ∧ controller.flow.inOrder interest object.name = true)}

theorem pull_ok (pulled : controller.pull interest timeout = (.ok object, after)) :
    ∃ count asked, controller.flow.ask [interest] controller.now = (.ok count, asked) ∧
      asked.transport.objects.find? interest.matchesObject = some object ∧
      after.flow = { asked with transport := asked.transport.without interest.matchesObject } := by
  rcases asking : controller.flow.ask [interest] controller.now with ⟨failure | count, asked⟩
  · rw [pull_error asking] at pulled
    exact absurd (Prod.mk.inj pulled).1 (by simp)
  · cases found : asked.transport.objects.find? interest.matchesObject with
    | some other =>
      rw [pull_some asking found] at pulled
      obtain ⟨same, rfl⟩ := Prod.mk.inj pulled
      obtain rfl : other = object := Except.ok.inj same
      exact ⟨count, asked, rfl, found, rfl⟩
    | none =>
      cases gone : asked.transport.senderGone with
      | false =>
        rw [pull_none asking found gone] at pulled
        exact absurd (Prod.mk.inj pulled).1 (by simp)
      | true =>
        simp [pull, Controller.ask, step, asking, receive, withTransport, DeliveryQueue.receive,
          DeliveryQueue.receiveWhere, found, gone] at pulled

-- The queue comes first: what is buffered is brought only if no match is queued.
theorem pull_cases (pulled : controller.pull interest timeout = (.ok object, after)) :
    controller.earliest? interest = some object ∨
      controller.earliest? interest = none ∧ controller.flow.bestBuffered? interest = some object := by
  obtain ⟨count, asked, asking, found, -⟩ := pull_ok pulled
  rcases Flow.ask_single_cases asking with rfl | ⟨-, rfl⟩ | ⟨other, transport, best, handed, rfl⟩
  · exact Or.inl found
  · exact Or.inl found
  · rw [Flow.bestBuffered?_expire] at best
    rw [Flow.transport_forward, DeliveryQueue.objects_of_delivered handed, List.find?_append] at found
    cases queued : controller.earliest? interest with
    | some first =>
      have same : controller.flow.transport.objects.find? interest.matchesObject = some first := queued
      rw [same, Option.some_or] at found
      exact Or.inl found
    | none =>
      have nothing : controller.flow.transport.objects.find? interest.matchesObject = none := queued
      rw [nothing, Option.none_or, List.find?_singleton, if_pos (Flow.bestBuffered?_cases best).2.1] at found
      exact Or.inr ⟨rfl, best.trans found⟩

theorem eligible_subset_matched (controller : Controller DeliveryQueue) (interest : Interest) :
    controller.eligible interest ⊆ controller.matched interest :=
  fun _ ⟨taken, held⟩ => ⟨taken, held.imp_right And.left⟩

-- With no match in the queue, a match is a choice of the buffer or spelled out.
theorem choice_or_spelled (unqueued : controller.earliest? interest = none)
    (held : object ∈ controller.eligible interest) :
    object ∈ controller.flow.choices interest ∨ controller.flow.Spelled interest object := by
  obtain ⟨taken, queued | ⟨stored, ordered⟩⟩ := held
  · exact absurd taken (List.find?_eq_none.mp unqueued object queued)
  · rcases Interest.matchesObject_cases taken with spelled | ⟨begins, -⟩
    · have published := (Interest.matchesObject_of_fullName spelled.symm).symm.trans taken
      exact Or.inr ⟨stored, spelled.symm, published⟩
    · exact Or.inl ⟨stored, begins, taken, ordered⟩

theorem matched_of_unranked (free : interest.selector ≠ some .next) :
    controller.matched interest = controller.eligible interest := by
  refine Set.Subset.antisymm (fun object held => ?_) (controller.eligible_subset_matched interest)
  exact ⟨held.1, held.2.imp_right fun stored => ⟨stored, Flow.inOrder_of_selector free⟩⟩

-- An object whose full name is spelled out comes before all that lies under that name.
theorem lt_of_spelled {other : ContentObject} (spelled : controller.flow.Spelled interest object)
    (choice : other ∈ controller.flow.choices interest) : object.name < other.name := by
  have above : interest.name ≤ other.name := Name.le_of_isPrefixOf choice.2.1
  have below : object.name < interest.name := spelled.named ▸ Name.lt_child object.name _
  exact Std.lt_of_lt_of_le below above

theorem le_latest_of_unqueued (last : interest.selector = some .last) (unqueued : controller.earliest? interest = none)
    (best : controller.flow.bestBuffered? interest = some object) :
    ∀ other ∈ controller.matched interest, other.name ≤ object.name := by
  intro other held
  rw [matched_of_unranked (by simp [last])] at held
  rcases Flow.bestBuffered?_eq_some_iff.mp best with preferred | ⟨empty, spelled⟩
  · rcases choice_or_spelled unqueued held with choice | spelled
    · exact preferred.greatest last other choice
    · exact Std.le_of_lt (lt_of_spelled spelled preferred.choice)
  · rcases choice_or_spelled unqueued held with choice | otherSpelled
    · exact absurd (empty ▸ choice) (Set.notMem_empty _)
    · exact (spelled.eq otherSpelled) ▸ Std.le_refl _

-- With nothing queued, the smallest match is brought unless it is spelled out and
-- something lies under its full name.
theorem next_le_iff_of_unqueued (next : interest.selector = some .next) (anyone : interest.publisher = none)
    (unqueued : controller.earliest? interest = none) (best : controller.flow.bestBuffered? interest = some object) :
    (∀ other ∈ controller.eligible interest, object.name ≤ other.name) ↔
      controller.flow.choices interest = ∅ ∨
        ∀ stored ∈ controller.flow.buffer.values, stored.fullName ≠ interest.name := by
  rcases Flow.bestBuffered?_eq_some_iff.mp best with preferred | ⟨empty, spelled⟩
  · have some : controller.flow.choices interest ≠ ∅ := Set.nonempty_iff_ne_empty.mp ⟨object, preferred.choice⟩
    constructor
    · refine fun smallest => Or.inr fun stored member named => ?_
      have published : interest.matchesPublisher stored.target = true := by rw [Interest.matchesPublisher, anyone]
      have taken := (Interest.matchesObject_of_fullName named).trans published
      have ordered := controller.flow.inOrder_of_fullName named
      have before := lt_of_spelled ⟨member, named, published⟩ preferred.choice
      exact Std.not_le.mpr before (smallest stored ⟨taken, Or.inr ⟨member, ordered⟩⟩)
    · intro alone other held
      rcases choice_or_spelled unqueued held with choice | spelled
      · exact preferred.smallest (by simp [next]) other choice
      · exact absurd spelled.named (alone.resolve_left some other spelled.stored)
  · refine iff_of_true (fun other held => ?_) (Or.inl empty)
    rcases choice_or_spelled unqueued held with choice | otherSpelled
    · exact absurd (empty ▸ choice) (Set.notMem_empty _)
    · exact (spelled.eq otherSpelled) ▸ Std.le_refl _

end Pulls

end Controller

/-- Whether a use neither asks for anything nor has puts go unchecked. -/
def Use.calm : Use → Bool
  | .ask _ | .pull _ _ | .setEnabled false => false
  | _ => true

namespace Controller

/-- A session whose pulls are all answered at once. Nothing is asked for otherwise,
and puts are checked throughout. -/
inductive Prompt : Controller DeliveryQueue → Prop where
  | opened (config : FlowConfig) (clock : Clock) : Prompt (.new config .new clock)
  | used {controller : Controller DeliveryQueue} (earlier : Prompt controller) {use : Use} (calm : use.calm = true) :
      Prompt (controller.use use)
  | pulled {controller after : Controller DeliveryQueue} (earlier : Prompt controller) {interest : Interest}
      {timeout : Duration} {object : ContentObject}
      (answered : controller.pull interest timeout = (.ok object, after)) : Prompt after

variable {controller after : Controller DeliveryQueue} {object : ContentObject}

theorem idle_use (idle : controller.flow.Idle) {use : Use} (calm : use.calm = true) :
    (controller.use use).flow.Idle := by
  cases use with
  | addNamespace name => exact idle.addNamespace name
  | removeNamespace name => exact idle.removeNamespace name
  | setHighwater highwater => exact ⟨idle.pending, idle.unqueued, idle.enabled⟩
  | setDrainTimeout timeout => exact ⟨idle.pending, idle.unqueued, idle.enabled⟩
  | setEnabled enabled =>
    cases enabled with
    | false => exact absurd calm (by decide)
    | true => exact ⟨idle.pending, idle.unqueued, rfl⟩
  | put object =>
    have held := idle.put object controller.now
    rcases put_cases (Prod.eta (controller.put object)).symm with first | ⟨failure, middle, later, first, second⟩
    · rwa [first] at held
    · rw [first] at held
      have again := held.put object later
      rwa [second] at again
  | ask interests => exact absurd calm (by simp [Use.calm])
  | pull interest timeout => exact absurd calm (by simp [Use.calm])
  | close =>
    rw [Controller.use, flow_close]
    exact ⟨rfl, idle.unqueued, idle.enabled⟩
  | pass clock => exact idle

-- What answers the pull goes through the queue and leaves it empty.
theorem idle_pull {interest : Interest} {timeout : Duration} (idle : controller.flow.Idle)
    (answered : controller.pull interest timeout = (.ok object, after)) : after.flow.Idle := by
  obtain ⟨count, asked, asking, found, left⟩ := pull_ok answered
  rw [left]
  rcases Flow.ask_single_cases asking with rfl | ⟨-, rfl⟩ | ⟨other, transport, best, handed, rfl⟩
  · exact absurd found (by simp [Flow.expire, idle.unqueued])
  · exact absurd found (by simp [Flow.register, Flow.expire, idle.unqueued])
  · have single : transport.objects = [other] := by
      rw [DeliveryQueue.objects_of_delivered handed, idle.unqueued, List.nil_append]
    refine ⟨?_, ?_, ?_⟩
    · exact (Flow.pending_forward _ _ _).trans (idle.expire _).pending
    · have matched := (Flow.bestBuffered?_cases best).2.1
      rw [DeliveryQueue.objects_without, Flow.transport_forward, single]
      exact List.eraseP_cons_of_pos matched
    · exact (Flow.enabled_forward _ _ _).trans idle.enabled

theorem Prompt.idle (prompt : Prompt controller) : controller.flow.Idle := by
  induction prompt with
  | opened config clock => exact ⟨rfl, rfl, rfl⟩
  | used _ calm ih => exact idle_use ih calm
  | pulled _ answered ih => exact idle_pull ih answered

theorem Prompt.uses (prompt : Prompt controller) {uses : List Use} (calm : ∀ use ∈ uses, use.calm = true) :
    Prompt (uses.foldl use controller) := by
  induction uses generalizing controller with
  | nil => exact prompt
  | cons first rest ih =>
    rw [List.forall_mem_cons] at calm
    exact ih (prompt.used calm.1) calm.2

/-- A pull honours its selector as far as the queue lets it. What it brings for the
latest child is the greatest match, queued or buffered, exactly if the earliest match
in the queue is, should there be one. What it brings for the next child is the
smallest match it may have exactly if that holds of the earliest match likewise and,
with none queued, the buffer does not hold both an object whose full name is asked for
and something under that name. In a session whose pulls are all answered at once
nothing is queued when the next one comes. -/
theorem pulls_honour_selector_iff (controller : Controller DeliveryQueue) (name : Name) (count : Nat)
    (timeout : Duration) :
    (∀ object after, controller.pullLatest name count timeout = (.ok object, after) →
      ((∀ other ∈ controller.matched (.last name count), other.name ≤ object.name) ↔
        ∀ first, controller.earliest? (.last name count) = some first →
          ∀ other ∈ controller.matched (.last name count), other.name ≤ first.name)) ∧
    (∀ object after, controller.pullNext name count timeout = (.ok object, after) →
      ((∀ other ∈ controller.eligible (.next name count), object.name ≤ other.name) ↔
        (∀ first, controller.earliest? (.next name count) = some first →
          ∀ other ∈ controller.eligible (.next name count), first.name ≤ other.name) ∧
        (controller.earliest? (.next name count) = none →
          controller.flow.choices (.next name count) = ∅ ∨
            ∀ stored ∈ controller.flow.buffer.values, stored.fullName ≠ name.take count))) ∧
    (controller.Prompt → ∀ interest, controller.earliest? interest = none) := by
  refine ⟨fun object after pulled => ?_, fun object after pulled => ?_, fun prompt interest => ?_⟩
  · rcases pull_cases pulled with queued | ⟨unqueued, best⟩
    · simp [queued]
    · simpa [unqueued] using le_latest_of_unqueued rfl unqueued best
  · rcases pull_cases pulled with queued | ⟨unqueued, best⟩
    · simp [queued]
    · have named : (Interest.next name count).name = name.take count := rfl
      rw [next_le_iff_of_unqueued rfl rfl unqueued best, named]
      simp [unqueued]
  · rw [earliest?, prompt.idle.unqueued, List.find?_nil]

end Controller

namespace Sample

open Flow.Sample

def note (letter : UInt8) : ContentObject := .new (Flow.Sample.stream.child ⟨[letter]⟩) [letter]

def used (uses : List Use) : Controller DeliveryQueue :=
  uses.foldl Controller.use (.new .standard .new (.manual ⟨1000⟩))

/-- The latest note was asked for before the second one came, and the third is buffered. -/
def belated : Controller DeliveryQueue :=
  used [.addNamespace Flow.Sample.stream, .pull (.last (note 0x61).name 1) .zero, .put (note 0x62), .put (note 0x63)]

/-- The third note and what follows the first one were asked for before they came, in that order. -/
def crossed : Controller DeliveryQueue :=
  used [.addNamespace Flow.Sample.stream, .pull (.ofName (note 0x63).name) .zero,
    .pull (.next (note 0x61).name 1) .zero, .put (note 0x63), .put (note 0x62)]

def timely : Controller DeliveryQueue :=
  used [.addNamespace Flow.Sample.stream, .put (note 0x62), .put (note 0x63)]

end Sample

open Sample in
theorem timely_pulls_honour_selector :
    timely.Prompt ∧ (timely.pullLatest (note 0x61).name 1 .zero).1 = .ok (note 0x63) ∧
      (∀ other ∈ timely.matched (.last (note 0x61).name 1), other.name ≤ (note 0x63).name) ∧
      (timely.pullNext (note 0x61).name 1 .zero).1 = .ok (note 0x62) ∧
      ∀ other ∈ timely.eligible (.next (note 0x61).name 1), (note 0x62).name ≤ other.name := by
  obtain ⟨latest, next, unqueued⟩ := Controller.pulls_honour_selector_iff timely (note 0x61).name 1 .zero
  have prompt : timely.Prompt := Controller.Prompt.uses (.opened _ _) (by decide)
  have last : (timely.pullLatest (note 0x61).name 1 .zero).1 = .ok (note 0x63) := by decide +kernel
  have following : (timely.pullNext (note 0x61).name 1 .zero).1 = .ok (note 0x62) := by decide +kernel
  have plain : ∀ stored ∈ timely.flow.buffer.values, stored.fullName ≠ (note 0x61).name.take 1 := by decide +kernel
  refine ⟨prompt, last, ?_, following, ?_⟩
  · exact (latest _ _ (Prod.ext last rfl)).mpr (by simp [unqueued prompt])
  · exact (next _ _ (Prod.ext following rfl)).mpr ⟨by simp [unqueued prompt], fun _ => Or.inr plain⟩

open Sample in
/-- A late answer in the queue comes before a greater note in the buffer, and late
answers to other pulls come before a smaller one behind them. -/
theorem late_answers_come_first :
    belated.flow.closed = false ∧ (belated.pullLatest (note 0x61).name 1 .zero).1 = .ok (note 0x62) ∧
      note 0x63 ∈ belated.matched (.last (note 0x61).name 1) ∧
      crossed.flow.closed = false ∧ (crossed.pullNext (note 0x61).name 1 .zero).1 = .ok (note 0x63) ∧
      note 0x62 ∈ crossed.eligible (.next (note 0x61).name 1) ∧ (note 0x62).name < (note 0x63).name := by
  refine ⟨?_, ?_, ⟨?_, Or.inr ?_⟩, ?_, ?_, ⟨?_, Or.inl ?_⟩, ?_⟩ <;> decide +kernel

end NamedContent
