import NamedContent.Proofs.Controller.Reading
import NamedContent.Writer

/-! Streams that are published and read back.

Nothing waits while a stream is published, so all of its segments are buffered,
in the order of their numbers. Each pull takes the first of them, whatever the
segment order says: it allows what directly follows the segment before. -/

set_option autoImplicit false

namespace NamedContent

namespace Writer

variable (writer : Writer) (stream : Name)

@[simp] theorem fields_segment (number : UInt64) (chunk : List UInt8) :
    (writer.segment stream number chunk).toSignedFields
      = { name := stream.segment number, publisher := writer.publisher, content := chunk,
          freshness := writer.freshness } := by
  obtain ⟨size, publisher, freshness⟩ := writer
  cases freshness <;> rfl

def segments (start : Nat) (chunks : List (List UInt8)) : List ContentObject :=
  (chunks.zipIdx start).map fun (chunk, number) => writer.segment stream (.ofNat number) chunk

theorem name_segments (start : Nat) (chunks : List (List UInt8)) :
    (writer.segments stream start chunks).map (·.name)
      = (List.range' start chunks.length).map fun number => stream.segment (.ofNat number) := by
  rw [segments, List.map_map, ← List.zipIdx_map_snd, List.map_map]
  exact List.map_congr_left fun (chunk, number) _ => congrArg SignedFields.name (writer.fields_segment stream _ chunk)

theorem content_segments (start : Nat) (chunks : List (List UInt8)) :
    (writer.segments stream start chunks).map (·.content) = chunks := by
  rw [segments, List.map_map]
  refine Eq.trans ?_ (List.zipIdx_map_fst start chunks)
  exact List.map_congr_left fun (chunk, number) _ => congrArg SignedFields.content (writer.fields_segment stream _ chunk)

/-- How many segments content of some length has: as many as it fills, the last
one perhaps in part, but at least one. -/
def segmentCount (length : Nat) : Nat := max 1 ((length + (writer.segmentSize - 1)) / writer.segmentSize)

variable {writer} {content : List UInt8}

theorem segmentCount_lt (positive : 0 < writer.segmentSize) {length : Nat} (fits : length < UInt64.size) :
    writer.segmentCount length < UInt64.size := by
  have enough : length + (writer.segmentSize - 1) < writer.segmentSize * UInt64.size := by
    change length < 18446744073709551616 at fits
    change _ < _ * 18446744073709551616
    omega
  exact Nat.max_lt.mpr ⟨by decide, Nat.div_lt_of_lt_mul enough⟩

theorem flatten_cut : (writer.cut content).flatten = content := by
  unfold cut
  split
  · rename_i empty
    simp [List.isEmpty_iff.mp empty]
  · exact flatten_chunks _ _

theorem length_cut (positive : 0 < writer.segmentSize) :
    (writer.cut content).length = writer.segmentCount content.length := by
  unfold cut segmentCount
  split
  · rename_i empty
    have few : (content.length + (writer.segmentSize - 1)) / writer.segmentSize = 0 := by
      rw [List.isEmpty_iff.mp empty]
      exact Nat.div_eq_of_lt (by simp; omega)
    rw [few]
    rfl
  · rename_i filled
    rw [length_chunks positive, Nat.max_eq_right]
    have some : 0 < content.length := List.length_pos_iff.mpr (by simpa using filled)
    exact Nat.div_pos (by omega) positive

theorem length_of_mem_dropLast_cut (positive : 0 < writer.segmentSize) {chunk : List UInt8}
    (member : chunk ∈ (writer.cut content).dropLast) : chunk.length = writer.segmentSize := by
  unfold cut at member
  split at member
  · exact absurd member List.not_mem_nil
  · exact length_of_mem_dropLast_chunks positive member

end Writer

namespace Flow

/-- Segments of a stream that are buffered in an open and enabled flow, where no
interest waits and nothing is in the queue. -/
structure Stocked (config : FlowConfig) (stream : Name) (objects : List ContentObject) (flow : Flow DeliveryQueue) :
    Prop where
  opened : flow.closed = false
  enabled : flow.enabled = true
  configured : flow.config = config
  covered : flow.covers stream = true
  unasked : flow.pending = .empty
  stored : flow.buffer.values = objects
  placed : ∀ object ∈ objects, ∃ number, object.name = stream.segment number
  idle : flow.transport = .new

namespace Stocked

variable {config : FlowConfig} {stream : Name} {objects : List ContentObject} {flow : Flow DeliveryQueue}

theorem new (config : FlowConfig) {namespaces : List Name} (covered : namespaces.any (·.isPrefixOf stream) = true) :
    Stocked config stream [] { Flow.new config DeliveryQueue.new with namespaces := namespaces } where
  opened := rfl
  enabled := rfl
  configured := rfl
  covered := covered
  unasked := rfl
  stored := rfl
  placed := by simp
  idle := rfl

theorem expire (stocked : flow.Stocked config stream objects) (now : Timestamp) :
    (flow.expire now).Stocked config stream objects where
  opened := stocked.opened
  enabled := stocked.enabled
  configured := stocked.configured
  covered := stocked.covered
  unasked := by
    have same : (flow.expire now).pending = flow.pending.filter fun entry => entry.value.isLive now := rfl
    rw [same, stocked.unasked]
    rfl
  stored := stocked.stored
  placed := stocked.placed
  idle := stocked.idle

theorem put (stocked : flow.Stocked config stream objects) {object : ContentObject} {number : UInt64}
    (named : object.name = stream.segment number) (above : ∀ other ∈ objects, other.name < object.name)
    (room : objects.length < config.highwater) (now : Timestamp) :
    ∃ outcome after, flow.put object now = (.ok outcome, after) ∧ after.Stocked config stream (objects ++ [object]) := by
  have covers : flow.covers object.name = true := by
    obtain ⟨held, registered, begins⟩ := List.any_eq_true.mp stocked.covered
    rw [named]
    exact List.any_eq_true.mpr ⟨held, registered, Name.isPrefixOf_trans begins (stream.isPrefixOf_segment number)⟩
  have weighs : flow.weighs object = true := by simp [weighs, stocked.opened, stocked.enabled, covers]
  have later := stocked.expire now
  rcases put_cases_of_weighs weighs now with ⟨candidate, best, -⟩ | ⟨-, full | result⟩
  · have waits := (waiting_of_bestPending? (later.unasked ▸ Table.wellFormed_empty) best).1
    rw [later.unasked] at waits
    exact absurd waits List.not_mem_nil
  · rw [stocked.configured, NameIndex.size_eq, stocked.stored] at full
    exact absurd room (Nat.not_lt.mpr full)
  · refine ⟨.buffered, _, result, { later with stored := ?_, placed := ?_ }⟩
    · rw [NameIndex.values_insert, later.stored]
      simpa [place] using place_append_of_gt [] above
    · intro other member
      rcases List.mem_append.mp member with earlier | last
      · exact stocked.placed other earlier
      · exact ⟨number, List.mem_singleton.mp last ▸ named⟩

theorem bestBuffered?_eq {first : ContentObject} {rest : List ContentObject}
    (stocked : flow.Stocked config stream (first :: rest)) {interest : Interest} (named : interest.name = stream)
    (smallest : interest.selector ≠ some .last) (matched : interest.matchesObject first = true)
    (ordered : flow.inOrder interest first.name = true) : flow.bestBuffered? interest = some first := by
  have held : first ∈ flow.buffer.values := stocked.stored ▸ List.mem_cons_self
  cases best : flow.bestBuffered? interest with
  | none => exact absurd (ordered.symm.trans (inOrder_eq_false_of_bestBuffered? best held matched)) (by simp)
  | some object =>
    obtain ⟨stored, -, full | ⟨-, least⟩⟩ := bestBuffered?_cases best
    · -- The stream's name is shorter than any full name under it.
      obtain ⟨number, objectNamed⟩ := stocked.placed object (stocked.stored ▸ stored)
      have lengths := congrArg Name.length full
      rw [named, ContentObject.fullName, Name.length_child, objectNamed, Name.length_segment] at lengths
      omega
    · obtain ⟨number, firstNamed⟩ := stocked.placed first List.mem_cons_self
      have below := least smallest first held (by rw [named, firstNamed, Name.isPrefixOf_segment])
        (mayHave_iff.mpr ⟨matched, ordered⟩)
      have ascending : Ascending (·.name) (first :: rest) := stocked.stored ▸ flow.buffer.ascending
      rcases List.mem_cons.mp (stocked.stored ▸ stored) with rfl | later
      · rfl
      · exact absurd ((List.pairwise_cons.mp ascending).1 object later) (Std.not_lt.mpr below)

theorem draw {first : ContentObject} {rest : List ContentObject} (stocked : flow.Stocked config stream (first :: rest))
    (transport : DeliveryQueue) {emptied : DeliveryQueue} (idle : emptied = .new) :
    Stocked config stream rest
      { flow.forward first transport with buffer := flow.buffer.erase first.name, transport := emptied } where
  opened := (closed_forward _ _ _).trans stocked.opened
  enabled := (enabled_forward _ _ _).trans stocked.enabled
  configured := (config_forward _ _ _).trans stocked.configured
  covered := by
    rw [covers, namespaces_forward]
    exact stocked.covered
  unasked := (pending_forward _ _ _).trans stocked.unasked
  stored := by
    have ascending : Ascending (·.name) (first :: rest) := stocked.stored ▸ flow.buffer.ascending
    refine (NameIndex.values_erase _ _).trans ?_
    rw [stocked.stored, List.filter_cons_of_neg (by simp), List.filter_eq_self]
    intro other member
    simpa using (Std.ne_of_lt ((List.pairwise_cons.mp ascending).1 other member)).symm
  placed := fun object member => stocked.placed object (List.mem_cons_of_mem _ member)
  idle := idle

-- What asks for the first of the segments draws it and leaves the others.
theorem pull_first {first : ContentObject} {rest : List ContentObject}
    (stocked : flow.Stocked config stream (first :: rest)) {interest : Interest} (named : interest.name = stream)
    (unstated : interest.origin = none) (smallest : interest.selector ≠ some .last)
    (matched : interest.matchesObject first = true)
    (ordered : ∀ now, (flow.expire now).inOrder interest first.name = true) (clock : Clock) :
    ∃ after : Controller DeliveryQueue, Controller.pull ⟨flow, clock⟩ interest .zero = (.ok first, after) ∧
      after.flow.Stocked config stream rest := by
  have later := stocked.expire clock.now
  have heeded : flow.ignores interest = false :=
    ignores_eq_false stocked.opened (named.symm ▸ stocked.covered) unstated
  have best := later.bestBuffered?_eq named smallest matched (ordered clock.now)
  have handed : Transport.deliver flow.transport first = (.ok (), ⟨[first], false, false⟩) := by
    rw [stocked.idle]
    rfl
  let drawn : Flow DeliveryQueue :=
    { (flow.expire clock.now).forward first ⟨[first], false, false⟩ with buffer := flow.buffer.erase first.name }
  have asked : flow.ask [interest] clock.now = (.ok 1, drawn) := ask_single_of_some heeded best handed
  have queued : drawn.transport = ⟨[first], false, false⟩ := transport_forward _ _ _
  have found : drawn.transport.objects.find? interest.matchesObject = some first := by
    simp [queued, DeliveryQueue.objects, matched]
  exact ⟨_, Controller.pull_some asked found .zero, later.draw _
    (by simp [queued, DeliveryQueue.without, DeliveryQueue.objects, DeliveryQueue.new, matched])⟩

end Stocked

end Flow

namespace Controller

/-- Pulls on along a stream: first whatever lies under its name, then what
follows the object received before. -/
def pullOn (controller : Controller DeliveryQueue) (stream : Name) :
    Option ContentObject → Except Failure ContentObject × Controller DeliveryQueue
  | none => controller.pullName stream .zero
  | some object => controller.pullNext object.name stream.length .zero

def pullThrough (controller : Controller DeliveryQueue) (stream : Name) (received : Option ContentObject) :
    List Clock → Except Failure (List ContentObject) × Controller DeliveryQueue
  | [] => (.ok [], controller)
  | clock :: rest =>
    match { controller with clock := clock }.pullOn stream received with
    | (.error failure, controller) => (.error failure, controller)
    | (.ok object, controller) =>
      let (objects, controller) := controller.pullThrough stream (some object) rest
      (objects.map (object :: ·), controller)

variable {config : FlowConfig} {stream : Name} {controller : Controller DeliveryQueue}

theorem pullOn_first {first : ContentObject} {rest : List ContentObject} {number : UInt64}
    (stocked : controller.flow.Stocked config stream (first :: rest)) (named : first.name = stream.segment number)
    {received : Option ContentObject}
    (follows : ∀ object ∈ received, ∃ last, object.name = stream.segment last ∧ number.toNat = last.toNat + 1) :
    ∃ after : Controller DeliveryQueue, controller.pullOn stream received = (.ok first, after) ∧
      after.flow.Stocked config stream rest := by
  cases received with
  | none =>
    refine stocked.pull_first rfl rfl (by simp [Interest.ofName]) ?_ (fun now => ?_) controller.clock
    · exact Interest.matchesObject_ofName (named ▸ stream.isPrefixOf_segment number)
    · exact Flow.inOrder_ofName _ _ _
  | some object =>
    obtain ⟨last, objectNamed, due⟩ := follows object rfl
    have less : last < number := UInt64.lt_iff_toNat_lt.mpr (by omega)
    have asks : controller.pullOn stream (some object) = controller.pull (Flow.Served.following stream last) .zero := by
      rw [pullOn, pullNext, objectNamed]
    rw [asks]
    refine stocked.pull_first (Flow.Served.name_following stream last) ?_ ?_ ?_ (fun now => ?_) controller.clock
    · rw [Flow.Served.following, Interest.next_segment]
      rfl
    · rw [Flow.Served.following, Interest.next_segment]
      simp
    · exact Interest.matchesObject_next named less
    · -- The order always lets the number after the reference pass.
      by_contra late
      have beyond := Flow.reach_lt_of_inOrder named (Interest.follows_next stream last) (Bool.eq_false_iff.mpr late)
      have reaches := (controller.flow.expire now).lt_reach stream last
      omega

end Controller

namespace Writer

variable {writer : Writer} {config : FlowConfig} {stream : Name} {controller : Controller DeliveryQueue}

theorem segments_cons (start : Nat) (chunk : List UInt8) (rest : List (List UInt8)) :
    writer.segments stream start (chunk :: rest)
      = writer.segment stream (.ofNat start) chunk :: writer.segments stream (start + 1) rest :=
  rfl

-- Nothing is ahead of the segments, so each is put behind those before it.
theorem putSegments_stocked (writer : Writer) {objects : List ContentObject} {chunks : List (List UInt8)} {start : Nat}
    (stocked : controller.flow.Stocked config stream objects)
    (below : ∀ object ∈ objects, object.name < stream.segment (.ofNat start))
    (room : objects.length + chunks.length ≤ config.highwater) (fits : start + chunks.length < UInt64.size) :
    ∃ after : Controller DeliveryQueue,
      writer.putSegments stream (.ofNat start) chunks controller = (.ok (.ofNat (start + chunks.length)), after) ∧
        after.flow.Stocked config stream (objects ++ writer.segments stream start chunks) := by
  induction chunks generalizing controller objects start with
  | nil => exact ⟨controller, rfl, by simpa [segments] using stocked⟩
  | cons chunk rest ih =>
    rw [List.length_cons] at room fits
    let first := writer.segment stream (.ofNat start) chunk
    have named : first.name = stream.segment (.ofNat start) := by simp [first]
    obtain ⟨outcome, flow, taken, onward⟩ :=
      stocked.put named (fun object member => named ▸ below object member) (by omega) controller.now
    have put : controller.put first = (.ok outcome, ⟨flow, controller.clock⟩) := by
      simp [Controller.put, Controller.step, taken]
    have next : UInt64.ofNat start < UInt64.ofNat (start + 1) := by
      rw [UInt64.lt_iff_toNat_lt, UInt64.toNat_ofNat_of_lt' (by omega), UInt64.toNat_ofNat_of_lt' (by omega)]
      exact Nat.lt_succ_self start
    have above : ∀ object ∈ objects ++ [first], object.name < stream.segment (.ofNat (start + 1)) := by
      intro object member
      rcases List.mem_append.mp member with earlier | last
      · exact Std.lt_trans (below object earlier) (Name.segment_lt_segment next)
      · rw [List.mem_singleton.mp last, named]
        exact Name.segment_lt_segment next
    have continued : (⟨flow, controller.clock⟩ : Controller DeliveryQueue).flow.Stocked config stream
        (objects ++ [first]) := onward
    have left : (objects ++ [first]).length + rest.length ≤ config.highwater := by
      rw [List.length_append, List.length_singleton]
      omega
    obtain ⟨after, others, final⟩ := ih continued above left (by omega)
    refine ⟨after, ?_, by simpa [segments_cons] using final⟩
    rw [putSegments, put]
    simpa [UInt64.ofNat_add, Nat.add_assoc, Nat.add_comm 1] using others

theorem pullThrough_segments {chunks : List (List UInt8)} {start : Nat}
    (stocked : controller.flow.Stocked config stream (writer.segments stream start chunks))
    (fits : start + chunks.length < UInt64.size) {received : Option ContentObject}
    (follows : ∀ object ∈ received, ∃ last : UInt64, object.name = stream.segment last ∧ start = last.toNat + 1)
    {clocks : List Clock} (pulls : clocks.length = chunks.length) :
    ∃ after : Controller DeliveryQueue,
      controller.pullThrough stream received clocks = (.ok (writer.segments stream start chunks), after) ∧
        after.flow.Stocked config stream [] := by
  induction chunks generalizing controller start received clocks with
  | nil =>
    obtain rfl := List.length_eq_zero_iff.mp pulls
    exact ⟨controller, rfl, stocked⟩
  | cons chunk rest ih =>
    obtain ⟨clock, clocks, rfl⟩ := List.exists_cons_of_length_eq_add_one pulls
    rw [List.length_cons] at fits pulls
    rw [segments_cons] at stocked ⊢
    have known : (UInt64.ofNat start).toNat = start := UInt64.toNat_ofNat_of_lt' (by omega)
    let first := writer.segment stream (.ofNat start) chunk
    have named : first.name = stream.segment (.ofNat start) := by simp [first]
    have resumed : (⟨controller.flow, clock⟩ : Controller DeliveryQueue).flow.Stocked config stream
        (first :: writer.segments stream (start + 1) rest) := stocked
    obtain ⟨middle, pulled, left⟩ := Controller.pullOn_first resumed named (by rw [known]; exact follows)
    have onward : ∀ object ∈ some first,
        ∃ last : UInt64, object.name = stream.segment last ∧ start + 1 = last.toNat + 1 := by
      intro object same
      obtain rfl := Option.some.inj same
      exact ⟨_, named, by rw [known]⟩
    obtain ⟨after, others, final⟩ := ih left (by omega) onward (Nat.succ.inj pulls)
    refine ⟨after, ?_, final⟩
    rw [Controller.pullThrough, pulled]
    simp [others, Except.map, first]

/-- What is published is read back. The content may be as long as a machine word
counts, and the size may be zero. On a fresh controller with room for all segments
a put answers how many there are: as many as the content fills, but at least one.
Pulls of whatever lies under the stream's name, and then of what follows the object
just received, bring all of them in the order of their numbers, whatever the clock
shows. Each but the last is filled, their contents make up the whole, they are
signed as the writer says, and the buffer is empty again. -/
theorem published_streams_read_back (writer : Writer) (size : Nat) (stream : Name) (content : List UInt8)
    (config : FlowConfig) (namespaces : List Name) (clock : Clock) (clocks : List Clock)
    (covered : namespaces.any (·.isPrefixOf stream) = true) (fits : content.length < UInt64.size)
    (room : (writer.withSegmentSize size).segmentCount content.length ≤ config.highwater)
    (pulls : clocks.length = (writer.withSegmentSize size).segmentCount content.length) :
    ∃ number published objects after,
      (writer.withSegmentSize size).put stream content
          ⟨{ Flow.new config DeliveryQueue.new with namespaces := namespaces }, clock⟩ = (.ok number, published) ∧
      number.toNat = (writer.withSegmentSize size).segmentCount content.length ∧
      published.pullThrough stream none clocks = (.ok objects, after) ∧
      objects.map (·.name) = (List.range number.toNat).map (fun place => stream.segment (.ofNat place)) ∧
      objects.flatMap (·.content) = content ∧
      (∀ object ∈ objects.dropLast, object.content.length = max size 1) ∧
      (∀ object ∈ objects, object.publisher = writer.publisher ∧ object.freshness = writer.freshness) ∧
      after.flow.buffer.size = 0 := by
  let sized := writer.withSegmentSize size
  let chunks := sized.cut content
  have positive : 0 < sized.segmentSize := Nat.le_max_right size 1
  have length : chunks.length = sized.segmentCount content.length := length_cut positive
  have within : 0 + chunks.length < UInt64.size := by
    rw [Nat.zero_add, length]
    exact segmentCount_lt positive fits
  have opened : (⟨{ Flow.new config DeliveryQueue.new with namespaces := namespaces }, clock⟩ :
      Controller DeliveryQueue).flow.Stocked config stream [] := .new config covered
  obtain ⟨published, put, stocked⟩ := putSegments_stocked sized opened (by simp) (by simpa [length] using room) within
  have unreceived : ∀ object ∈ (none : Option ContentObject),
      ∃ last : UInt64, object.name = stream.segment last ∧ 0 = last.toNat + 1 := by simp
  obtain ⟨after, pulled, sold⟩ := pullThrough_segments stocked within unreceived (pulls.trans length.symm)
  have answer : (UInt64.ofNat (0 + chunks.length)).toNat = sized.segmentCount content.length := by
    rw [UInt64.toNat_ofNat_of_lt' within, Nat.zero_add, length]
  refine ⟨_, published, _, after, put, answer, pulled, ?_, ?_, ?_, ?_, ?_⟩
  · rw [answer, name_segments, length, List.range_eq_range']
  · rw [List.flatMap_def, content_segments]
    exact flatten_cut
  · intro object member
    have carried : object.content ∈ chunks.dropLast := by
      rw [← content_segments sized stream 0 chunks, ← List.map_dropLast]
      exact List.mem_map_of_mem member
    exact length_of_mem_dropLast_cut positive carried
  · intro object member
    obtain ⟨⟨chunk, number⟩, -, rfl⟩ := List.mem_map.mp member
    simp [sized, withSegmentSize]
  · rw [NameIndex.size_eq, sold.stored, List.length_nil]

end Writer

namespace Sample

def perishable : Writer := { Writer.standard with freshness := some (.ofSeconds 1) }

end Sample

open Sample Flow.Sample in
theorem three_bytes_read_back :
    [Name.root].any (·.isPrefixOf stream) = true ∧
      (perishable.withSegmentSize 2).segmentCount 3 ≤ FlowConfig.standard.highwater ∧
      ∃ number published objects after,
        (perishable.withSegmentSize 2).put stream [1, 2, 3]
            ⟨{ Flow.new .standard DeliveryQueue.new with namespaces := [Name.root] }, .manual ⟨1000⟩⟩
          = (.ok number, published) ∧
        number.toNat = 2 ∧
        published.pullThrough stream none [.manual ⟨1000⟩, .manual ⟨9000⟩] = (.ok objects, after) ∧
        objects.map (·.name) = [stream.segment 0, stream.segment 1] ∧
        objects.flatMap (·.content) = [1, 2, 3] ∧
        (∀ object ∈ objects, object.freshness = some (.ofSeconds 1)) ∧
        after.flow.buffer.size = 0 := by
  have covered : [Name.root].any (·.isPrefixOf stream) = true := by decide
  have room : (perishable.withSegmentSize 2).segmentCount 3 ≤ FlowConfig.standard.highwater := by decide
  obtain ⟨number, published, objects, after, put, counted, read, names, contents, -, signed, empty⟩ :=
    Writer.published_streams_read_back perishable 2 stream [1, 2, 3] .standard [.root] (.manual ⟨1000⟩)
      [.manual ⟨1000⟩, .manual ⟨9000⟩] covered (by decide) room (by decide)
  have two : number.toNat = 2 := counted
  rw [two] at names
  exact ⟨covered, room, number, published, objects, after, put, two, read, names, contents,
    fun object member => (signed object member).2, empty⟩

end NamedContent
