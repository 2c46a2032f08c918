import NamedContent.Proofs.Controller.Publishing
import NamedContent.Proofs.Controller.Pulling
import NamedContent.Proofs.Interest.Continuing

/-! A stream read to its end, beside whatever else is buffered.

Each pull brings the smallest of the names that the reader has ahead. So it gets the
segments that are buffered, and then nothing, exactly if all that is ahead lies at or
under one of them. Nothing else leaves the buffer then. -/

set_option autoImplicit false

namespace NamedContent

/-- A buffer has the given segments of a stream, numbered from `start` on. Right under
the stream's name it has no other object, and none is named by the stream's name. -/
structure Buffer.Stocks (buffer : Buffer) (stream : Name) (start : Nat) (segments : List ContentObject) : Prop where
  unnamed : ∀ object ∈ buffer.values, object.name ≠ stream ∧ object.fullName ≠ stream
  listed : ∀ object ∈ buffer.values, ∀ component, object.name = stream.child component → object ∈ segments
  stored : ∀ object ∈ segments, object ∈ buffer.values
  numbered : segments.map (·.name)
    = (List.range' start segments.length).map fun number => stream.segment (.ofNat number)
  fits : start + segments.length < UInt64.size

/-- All that a reader has ahead in a buffer lies at or under one of the given segments. -/
def Buffer.Clear (buffer : Buffer) (stream : Name) (received : Option Name) (segments : List ContentObject) : Prop :=
  ∀ object ∈ buffer.values, stream.Ahead received object.name →
    ∃ segment ∈ segments, segment.name.isPrefixOf object.name = true

theorem Buffer.Clear.mono {buffer left : Buffer} {stream : Name} {received : Option Name} {segments : List ContentObject}
    (clear : buffer.Clear stream received segments) (fewer : ∀ object ∈ left.values, object ∈ buffer.values) :
    left.Clear stream received segments :=
  fun object held => clear object (fewer object held)

namespace Buffer.Stocks

variable {buffer : Buffer} {stream : Name} {start : Nat} {first object : ContentObject}
variable {segments rest : List ContentObject} {received : Option Name}

theorem start_lt (stocks : buffer.Stocks stream start segments) : start < UInt64.size :=
  Nat.lt_of_le_of_lt (Nat.le_add_right _ _) stocks.fits

theorem name_first (stocks : buffer.Stocks stream start (first :: rest)) : first.name = stream.segment (.ofNat start) :=
  (List.cons.inj stocks.numbered).1

theorem named (stocks : buffer.Stocks stream start segments) (member : object ∈ segments) :
    ∃ number, object.name = stream.segment number := by
  have listed := List.mem_map_of_mem (f := (·.name)) member
  rw [stocks.numbered, List.mem_map] at listed
  obtain ⟨number, -, same⟩ := listed
  exact ⟨_, same.symm⟩

theorem first_mem (stocks : buffer.Stocks stream start (first :: rest)) : first ∈ buffer.values :=
  stocks.stored first List.mem_cons_self

theorem first_lt (stocks : buffer.Stocks stream start (first :: rest)) (later : object ∈ rest) :
    first.name < object.name := by
  have named := List.mem_map_of_mem (f := (·.name)) later
  rw [(List.cons.inj stocks.numbered).2, List.mem_map] at named
  obtain ⟨number, within, same⟩ := named
  obtain ⟨above, below⟩ := List.mem_range'_1.mp within
  have fits := stocks.fits
  rw [List.length_cons] at fits
  rw [stocks.name_first, ← same]
  apply Name.segment_lt_segment
  rw [UInt64.lt_iff_toNat_lt, UInt64.toNat_ofNat_of_lt' (by omega), UInt64.toNat_ofNat_of_lt' (by omega)]
  exact above

theorem first_le (stocks : buffer.Stocks stream start (first :: rest)) (member : object ∈ first :: rest) :
    first.name ≤ object.name := by
  rcases List.mem_cons.mp member with rfl | later
  · exact Std.le_refl _
  · exact Std.le_of_lt (stocks.first_lt later)

theorem erase_first (stocks : buffer.Stocks stream start (first :: rest)) :
    Buffer.Stocks (buffer.erase first.name) stream (start + 1) rest where
  unnamed := fun object held => stocks.unnamed object (NameIndex.mem_erase_iff.mp held).1
  listed := by
    intro object held component named
    obtain ⟨before, other⟩ := NameIndex.mem_erase_iff.mp held
    exact (List.mem_cons.mp (stocks.listed object before component named)).resolve_left fun same => other (same ▸ rfl)
  stored := fun object later => NameIndex.mem_erase_iff.mpr
    ⟨stocks.stored object (List.mem_cons_of_mem _ later), (Std.ne_of_lt (stocks.first_lt later)).symm⟩
  numbered := (List.cons.inj stocks.numbered).2
  fits := by
    have fits := stocks.fits
    rw [List.length_cons] at fits
    omega

theorem mem_erase_first_iff (stocks : buffer.Stocks stream start (first :: rest)) :
    object ∈ (buffer.erase first.name).values ∧ object ∉ rest ↔ object ∈ buffer.values ∧ object ∉ first :: rest := by
  rw [NameIndex.mem_erase_iff, List.mem_cons, not_or, and_assoc]
  refine and_congr_right fun member => and_congr_left fun _ => not_congr ⟨fun same => ?_, fun same => same ▸ rfl⟩
  exact buffer.ascending.eq_of_key_eq member stocks.first_mem same

theorem reached_first (stocks : buffer.Stocks stream start (first :: rest)) :
    stream.Reached (start + 1) ((some first).map (·.name)) := by
  intro last same
  obtain rfl := Option.some.inj same
  exact ⟨_, stocks.name_first, by rw [UInt64.toNat_ofNat_of_lt' stocks.start_lt]⟩

-- The reader has nothing but the segments ahead if it gets the first of them, and then
-- again nothing but the others.
theorem clear_cons_iff (stocks : buffer.Stocks stream start (first :: rest)) (reached : stream.Reached start received)
    {least : ContentObject} (held : least ∈ buffer.values) (ahead : stream.Ahead received least.name)
    (smallest : ∀ other ∈ buffer.values, stream.Ahead received other.name → least.name ≤ other.name) :
    buffer.Clear stream received (first :: rest) ↔
      least = first ∧ Buffer.Clear (buffer.erase first.name) stream (some first.name) rest := by
  have named := stocks.name_first
  have firstAhead : stream.Ahead received first.name := named ▸ Name.ahead_segment reached stocks.start_lt
  constructor
  · intro clear
    constructor
    · obtain ⟨segment, member, begins⟩ := clear least held ahead
      have above : first.name ≤ least.name := Std.le_trans (stocks.first_le member) (Name.le_of_isPrefixOf begins)
      have below : least.name ≤ first.name := smallest first stocks.first_mem firstAhead
      exact buffer.ascending.eq_of_key_eq held stocks.first_mem (Std.le_antisymm below above)
    · intro object kept later
      rw [named] at later
      obtain ⟨segment, member, begins⟩ :=
        clear object (NameIndex.mem_erase_iff.mp kept).1 (later.of_segment reached stocks.start_lt)
      rcases List.mem_cons.mp member with rfl | among
      · rw [named, later.not_isPrefixOf] at begins
        exact absurd begins (by simp)
      · exact ⟨segment, among, begins⟩
  · rintro ⟨rfl, clear⟩ object found before
    have above := smallest object found before
    rw [named] at above
    rcases before.cases reached above with under | later
    · exact ⟨least, List.mem_cons_self, named ▸ under⟩
    · have other : object.name ≠ least.name := by
        intro same
        have under := later.not_isPrefixOf
        rw [same, named, Name.isPrefixOf_refl] at under
        exact absurd under (by simp)
      obtain ⟨segment, among, begins⟩ := clear object (NameIndex.mem_erase_iff.mpr ⟨found, other⟩) (named.symm ▸ later)
      exact ⟨segment, List.mem_cons_of_mem _ among, begins⟩

theorem without (stocks : buffer.Stocks stream start segments) {left : Buffer} {other : Name} {gone : List ContentObject}
    (apart : other ≠ stream) (named : ∀ object ∈ gone, ∃ number, object.name = other.segment number)
    (kept : ∀ object, object ∈ left.values ↔ object ∈ buffer.values ∧ object ∉ gone) :
    left.Stocks stream start segments where
  unnamed := fun object held => stocks.unnamed object ((kept object).mp held).1
  listed := fun object held => stocks.listed object ((kept object).mp held).1
  stored := by
    intro object member
    refine (kept object).mpr ⟨stocks.stored object member, fun leaves => ?_⟩
    obtain ⟨number, otherNamed⟩ := named object leaves
    obtain ⟨ownNumber, ownNamed⟩ := stocks.named member
    exact apart (Name.segment_inj.mp (otherNamed.symm.trans ownNamed)).1
  numbered := stocks.numbered
  fits := stocks.fits

end Buffer.Stocks

namespace Flow

variable {τ : Type} {flow : Flow τ} {stream : Name} {start : Nat} {segments : List ContentObject}
variable {received : Option Name}

-- What the segment order holds back lies behind a segment that it lets pass.
theorem exists_choice_le (stocks : flow.buffer.Stocks stream start segments) (reached : stream.Reached start received)
    {object : ContentObject} (held : object ∈ flow.buffer.values) (ahead : stream.Ahead received object.name) :
    ∃ choice ∈ flow.choices (.continuing stream received), choice.name ≤ object.name := by
  have choice {other : ContentObject} (stored : other ∈ flow.buffer.values) (before : stream.Ahead received other.name)
      (ordered : flow.inOrder (.continuing stream received) other.name = true) :
      other ∈ flow.choices (.continuing stream received) := by
    obtain ⟨unnamed, unspelled⟩ := stocks.unnamed other stored
    refine ⟨stored, ?_, (Interest.matchesObject_continuing_iff reached unnamed unspelled).mpr before, ordered⟩
    rw [Interest.name_continuing reached]
    exact before.isPrefixOf reached
  cases ordered : flow.inOrder (.continuing stream received) object.name with
  | true => exact ⟨object, choice held ahead ordered, Std.le_refl _⟩
  | false =>
    obtain ⟨strict, next, longer, reference, number, refers, ends, beyond⟩ := inOrder_eq_false_iff.mp ordered
    rw [Interest.name_continuing reached] at longer beyond
    cases received with
    | none => exact absurd next (by simp [Interest.continuing, Interest.ofName])
    | some last =>
      obtain ⟨number, rfl, rfl⟩ := reached last rfl
      obtain ⟨component, path, spelled, -⟩ := Name.laterChild_segment_iff.mp ahead
      have alone : path = [] := by
        rw [Name.length, spelled, List.length_append, List.length_cons, ← Name.length] at longer
        exact List.length_eq_zero_iff.mp (by omega)
      have child : object.name = stream.child component := by
        rw [← Name.components_inj, spelled, alone]
        rfl
      have listed := stocks.listed object held component child
      cases segments with
      | nil => exact absurd listed List.not_mem_nil
      | cons first rest =>
        have firstAhead : stream.Ahead (some (stream.segment number)) first.name :=
          stocks.name_first ▸ Name.ahead_segment reached stocks.start_lt
        refine ⟨first, choice stocks.first_mem firstAhead ?_, stocks.first_le listed⟩
        by_contra late
        have follows := Interest.follows_next stream number
        have past := reach_lt_of_inOrder stocks.name_first follows (Bool.eq_false_iff.mpr late)
        have reaches := flow.lt_reach stream number
        rw [UInt64.toNat_ofNat_of_lt' stocks.start_lt] at past
        omega

-- The buffer gives the smallest name that is ahead, if there is one.
theorem bestBuffered?_continuing (stocks : flow.buffer.Stocks stream start segments)
    (reached : stream.Reached start received) :
    (∃ object ∈ flow.buffer.values, stream.Ahead received object.name ∧
      (∀ other ∈ flow.buffer.values, stream.Ahead received other.name → object.name ≤ other.name) ∧
      flow.bestBuffered? (.continuing stream received) = some object) ∨
    ((∀ object ∈ flow.buffer.values, ¬ stream.Ahead received object.name) ∧
      flow.bestBuffered? (.continuing stream received) = none) := by
  have named := Interest.name_continuing reached
  cases best : flow.bestBuffered? (.continuing stream received) with
  | some object =>
    rcases bestBuffered?_eq_some_iff.mp best with preferred | ⟨-, spelled⟩
    · obtain ⟨held, -, matched, -⟩ := preferred.choice
      obtain ⟨unnamed, unspelled⟩ := stocks.unnamed object held
      have ahead := (Interest.matchesObject_continuing_iff reached unnamed unspelled).mp matched
      refine Or.inl ⟨object, held, ahead, fun other otherHeld otherAhead => ?_, rfl⟩
      obtain ⟨choice, chosen, below⟩ := exists_choice_le stocks reached otherHeld otherAhead
      exact Std.le_trans (preferred.smallest (Interest.selector_continuing_ne_last stream received) choice chosen) below
    · exact absurd (spelled.named.trans named) (stocks.unnamed object spelled.stored).2
  | none =>
    refine Or.inr ⟨fun object held ahead => ?_, rfl⟩
    obtain ⟨choice, ⟨stored, -, matched, ordered⟩, -⟩ := exists_choice_le stocks reached held ahead
    exact absurd ((bestBuffered?_eq_none_iff.mp best choice stored matched).symm.trans ordered) (by simp)

structure Ready (namespaces : List Name) (flow : Flow DeliveryQueue) : Prop where
  opened : flow.closed = false
  registered : flow.namespaces = namespaces
  idle : flow.transport = .new

end Flow

namespace Controller

/-- Reads a stream on until a pull fails or there is no time left. Answers what was
received and the failure. At each pull the clock shows another time. -/
def readOut (controller : Controller DeliveryQueue) (stream : Name) (received : Option ContentObject) :
    List Clock → (List ContentObject × Option Failure) × Controller DeliveryQueue
  | [] => (([], none), controller)
  | clock :: rest =>
    match { controller with clock := clock }.pullOn stream received with
    | (.error failure, controller) => (([], some failure), controller)
    | (.ok object, controller) =>
      let ((objects, failure), controller) := controller.readOut stream (some object) rest
      ((object :: objects, failure), controller)

variable {controller : Controller DeliveryQueue} {namespaces : List Name} {stream : Name} {start : Nat}
variable {segments : List ContentObject} {received : Option ContentObject}

theorem pullOn_eq (controller : Controller DeliveryQueue) (stream : Name) (received : Option ContentObject) :
    controller.pullOn stream received = controller.pull (.continuing stream (received.map (·.name))) .zero := by
  cases received <;> rfl

-- A pull brings the smallest name that is ahead, and times out if there is none.
theorem pullOn_cases (ready : controller.flow.Ready namespaces)
    (near : namespaces.any (fun held => held.isPrefixOf stream || stream.isPrefixOf held) = true)
    (stocks : controller.flow.buffer.Stocks stream start segments)
    (reached : stream.Reached start (received.map (·.name))) :
    (∃ object ∈ controller.flow.buffer.values, stream.Ahead (received.map (·.name)) object.name ∧
      (∀ other ∈ controller.flow.buffer.values, stream.Ahead (received.map (·.name)) other.name →
        object.name ≤ other.name) ∧
      ∃ after : Controller DeliveryQueue, controller.pullOn stream received = (.ok object, after) ∧
        after.flow.Ready namespaces ∧ after.flow.buffer = controller.flow.buffer.erase object.name) ∨
    ((∀ object ∈ controller.flow.buffer.values, ¬ stream.Ahead (received.map (·.name)) object.name) ∧
      ∃ after : Controller DeliveryQueue, controller.pullOn stream received = (.error (.timeout stream .zero), after) ∧
        after.flow.Ready namespaces ∧ after.flow.buffer = controller.flow.buffer) := by
  have named := Interest.name_continuing reached
  have heeded : controller.flow.ignores (.continuing stream (received.map (·.name))) = false := by
    refine Flow.ignores_eq_false_of_overlaps ready.opened ?_ (Interest.origin_continuing _ _)
    rw [named, Flow.overlaps, ready.registered]
    exact near
  rw [pullOn_eq]
  rcases Flow.bestBuffered?_continuing stocks reached with ⟨object, held, ahead, smallest, best⟩ | ⟨nothing, empty⟩
  · have matched := (Flow.bestBuffered?_cases best).2.1
    have handed : Transport.deliver controller.flow.transport object = (.ok (), ⟨[object], false, false⟩) := by
      rw [ready.idle]
      rfl
    have asked := Flow.ask_single_of_some heeded ((Flow.bestBuffered?_expire _ _ controller.now).trans best) handed
    refine Or.inl ⟨object, held, ahead, smallest, _, pull_some asked ?_ .zero, ⟨?_, ?_, ?_⟩, rfl⟩
    · simp [DeliveryQueue.objects, matched]
    · exact (Flow.closed_forward _ _ _).trans ready.opened
    · exact (Flow.namespaces_forward _ _ _).trans ready.registered
    · simp [DeliveryQueue.without, DeliveryQueue.objects, DeliveryQueue.new, matched]
  · have asked := Flow.ask_single_of_none heeded ((Flow.bestBuffered?_expire _ _ controller.now).trans empty)
    have queued : ((controller.flow.expire controller.now).register (.continuing stream (received.map (·.name)))
        controller.now).transport = .new := ready.idle
    have late := pull_none asked (by rw [queued]; rfl) (by rw [queued]; rfl) .zero
    rw [named] at late
    exact Or.inr ⟨nothing, _, late, ⟨ready.opened, ready.registered, ready.idle⟩, rfl⟩

section Pulled
variable {clock : Clock} {clocks : List Clock} {after middle : Controller DeliveryQueue} {object : ContentObject}

theorem readOut_of_error {failure : Failure}
    (pulled : ({ controller with clock := clock } : Controller DeliveryQueue).pullOn stream received
      = (.error failure, after)) :
    controller.readOut stream received (clock :: clocks) = (([], some failure), after) := by
  rw [readOut, pulled]

theorem readOut_of_ok
    (pulled : ({ controller with clock := clock } : Controller DeliveryQueue).pullOn stream received
      = (.ok object, middle)) :
    controller.readOut stream received (clock :: clocks)
      = ((object :: (middle.readOut stream (some object) clocks).1.1, (middle.readOut stream (some object) clocks).1.2),
        (middle.readOut stream (some object) clocks).2) := by
  rw [readOut, pulled]

-- What is received first, and what later, is what is received.
theorem readOut_eq_cons_iff
    (pulled : ({ controller with clock := clock } : Controller DeliveryQueue).pullOn stream received
      = (.ok object, middle)) {first : ContentObject} {rest : List ContentObject} {failure : Option Failure} :
    (controller.readOut stream received (clock :: clocks)).1 = (first :: rest, failure) ↔
      object = first ∧ (middle.readOut stream (some object) clocks).1 = (rest, failure) := by
  rw [readOut_of_ok pulled]
  simp only [Prod.ext_iff, List.cons.injEq, and_assoc]

end Pulled

-- With no segment left a pull must not bring anything.
theorem readOut_nil_cases (ready : controller.flow.Ready namespaces)
    (near : namespaces.any (fun held => held.isPrefixOf stream || stream.isPrefixOf held) = true)
    (stocks : controller.flow.buffer.Stocks stream start []) (reached : stream.Reached start (received.map (·.name)))
    (clock : Clock) (clocks : List Clock) :
    (controller.flow.buffer.Clear stream (received.map (·.name)) [] ∧
      ∃ after : Controller DeliveryQueue,
        controller.readOut stream received (clock :: clocks) = (([], some (.timeout stream .zero)), after) ∧
        after.flow.Ready namespaces ∧ after.flow.buffer = controller.flow.buffer) ∨
    (¬ controller.flow.buffer.Clear stream (received.map (·.name)) [] ∧
      (controller.readOut stream received (clock :: clocks)).1 ≠ ([], some (.timeout stream .zero))) := by
  have prepared : ({ controller with clock := clock } : Controller DeliveryQueue).flow.Ready namespaces := ready
  rcases pullOn_cases prepared near stocks reached with
    ⟨object, held, ahead, -, after, pulled, -⟩ | ⟨nothing, after, pulled, later, same⟩
  · refine Or.inr ⟨fun clear => ?_, ?_⟩
    · obtain ⟨segment, member, -⟩ := clear object held ahead
      exact absurd member List.not_mem_nil
    · simp [readOut_of_ok pulled]
  · have clear : controller.flow.buffer.Clear stream (received.map (·.name)) [] :=
      fun object held ahead => absurd ahead (nothing object held)
    exact Or.inl ⟨clear, after, readOut_of_error pulled, later, same⟩

-- The first pull brings the smallest name that is ahead. Unless that is the first
-- segment, what is received cannot be the segments.
theorem pullOn_least (ready : controller.flow.Ready namespaces)
    (near : namespaces.any (fun held => held.isPrefixOf stream || stream.isPrefixOf held) = true)
    {first : ContentObject} {rest : List ContentObject}
    (stocks : controller.flow.buffer.Stocks stream start (first :: rest))
    (reached : stream.Reached start (received.map (·.name))) :
    ∃ (least : ContentObject) (middle : Controller DeliveryQueue),
      controller.pullOn stream received = (.ok least, middle) ∧ middle.flow.Ready namespaces ∧
      middle.flow.buffer = controller.flow.buffer.erase least.name ∧
      (controller.flow.buffer.Clear stream (received.map (·.name)) (first :: rest) ↔
        least = first ∧ Buffer.Clear (controller.flow.buffer.erase first.name) stream (some first.name) rest) := by
  rcases pullOn_cases ready near stocks reached with
    ⟨least, held, ahead, smallest, middle, pulled, later, left⟩ | ⟨nothing, -⟩
  · exact ⟨least, middle, pulled, later, left, stocks.clear_cons_iff reached held ahead smallest⟩
  · exact absurd (stocks.name_first ▸ Name.ahead_segment reached stocks.start_lt) (nothing first stocks.first_mem)

/-- A stream is read out in the order of its segments and up to a timeout exactly if
nothing else is ahead but what lies under a segment. Then the segments are all that
leaves the buffer. -/
theorem readOut_cases (ready : controller.flow.Ready namespaces)
    (near : namespaces.any (fun held => held.isPrefixOf stream || stream.isPrefixOf held) = true)
    (stocks : controller.flow.buffer.Stocks stream start segments)
    (reached : stream.Reached start (received.map (·.name))) {clocks : List Clock}
    (pulls : segments.length < clocks.length) :
    (controller.flow.buffer.Clear stream (received.map (·.name)) segments ∧
      ∃ after : Controller DeliveryQueue,
        controller.readOut stream received clocks = ((segments, some (.timeout stream .zero)), after) ∧
        after.flow.Ready namespaces ∧
        ∀ object, object ∈ after.flow.buffer.values ↔ object ∈ controller.flow.buffer.values ∧ object ∉ segments) ∨
    (¬ controller.flow.buffer.Clear stream (received.map (·.name)) segments ∧
      (controller.readOut stream received clocks).1 ≠ (segments, some (.timeout stream .zero))) := by
  induction segments generalizing controller start received clocks with
  | nil =>
    obtain ⟨clock, clocks, rfl⟩ := List.exists_cons_of_length_pos pulls
    refine (readOut_nil_cases ready near stocks reached clock clocks).imp_left ?_
    rintro ⟨clear, after, read, later, same⟩
    exact ⟨clear, after, read, later, fun object => by simp [same]⟩
  | cons first rest ih =>
    obtain ⟨clock, clocks, rfl⟩ := List.exists_cons_of_length_pos (Nat.zero_lt_of_lt pulls)
    have prepared : ({ controller with clock := clock } : Controller DeliveryQueue).flow.Ready namespaces := ready
    obtain ⟨least, middle, pulled, later, left, divides⟩ := pullOn_least prepared near stocks reached
    by_cases brought : least = first
    · subst brought
      have others : middle.flow.buffer.Stocks stream (start + 1) rest := left ▸ stocks.erase_first
      rcases ih later others stocks.reached_first (Nat.lt_of_succ_lt_succ pulls) with
        ⟨clear, after, finished, settled, kept⟩ | ⟨obstructed, different⟩
      · refine Or.inl ⟨divides.mpr ⟨rfl, left ▸ clear⟩, after, by rw [readOut_of_ok pulled, finished], settled, ?_⟩
        intro object
        rw [kept, left]
        exact stocks.mem_erase_first_iff
      · refine Or.inr ⟨fun clear => obstructed (left ▸ (divides.mp clear).2), fun same => ?_⟩
        exact different ((readOut_eq_cons_iff pulled).mp same).2
    · refine Or.inr ⟨fun clear => brought (divides.mp clear).1, fun same => ?_⟩
      exact brought ((readOut_eq_cons_iff pulled).mp same).1

def readEach (controller : Controller DeliveryQueue) :
    List (Name × List Clock) → List (List ContentObject × Option Failure) × Controller DeliveryQueue
  | [] => ([], controller)
  | (stream, clocks) :: rest =>
    let (result, controller) := controller.readOut stream none clocks
    let (results, controller) := controller.readEach rest
    (result :: results, controller)

theorem readEach_eq (segments : Name → List ContentObject) {readings : List (Name × List Clock)}
    (distinct : (readings.map Prod.fst).Nodup) (ready : controller.flow.Ready namespaces)
    (prepared : ∀ stream clocks, (stream, clocks) ∈ readings →
      namespaces.any (fun held => held.isPrefixOf stream || stream.isPrefixOf held) = true ∧
      controller.flow.buffer.Stocks stream 0 (segments stream) ∧
      controller.flow.buffer.Clear stream none (segments stream) ∧ (segments stream).length < clocks.length) :
    (controller.readEach readings).1
      = readings.map fun reading => (segments reading.1, some (.timeout reading.1 .zero)) := by
  induction readings generalizing controller with
  | nil => rfl
  | cons reading rest ih =>
    obtain ⟨stream, clocks⟩ := reading
    obtain ⟨near, stocks, clear, pulls⟩ := prepared stream clocks List.mem_cons_self
    rw [List.map_cons, List.nodup_cons] at distinct
    have unread : stream.Reached 0 ((none : Option ContentObject).map (·.name)) := by simp [Name.Reached]
    rcases readOut_cases ready near stocks unread pulls with ⟨-, after, read, later, kept⟩ | ⟨obstructed, -⟩
    · have others := ih distinct.2 later fun other otherClocks member => by
        obtain ⟨otherNear, otherStocks, otherClear, otherPulls⟩ :=
          prepared other otherClocks (List.mem_cons_of_mem _ member)
        have apart : stream ≠ other := by
          rintro rfl
          have listed : stream ∈ rest.map Prod.fst := List.mem_map.mpr ⟨_, member, rfl⟩
          exact distinct.1 listed
        exact ⟨otherNear, otherStocks.without apart (fun _ => stocks.named) kept,
          otherClear.mono fun object held => ((kept object).mp held).1, otherPulls⟩
      rw [readEach, read]
      exact congrArg _ others
    · exact absurd clear obstructed

end Controller

end NamedContent
