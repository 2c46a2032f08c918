import NamedContent.Proofs.Controller.Draining
import NamedContent.Proofs.Controller.Filling

/-! Versions of a name and what is read back under each.

Two calls return the same name exactly if they publish the same name at the same
time. The later one then lays its segments over those of the earlier one, so what is
left of a longer earlier version ends the later one. Reading a version out brings its
segments and nothing else unless a name under it was published as well. -/

set_option autoImplicit false

namespace NamedContent

namespace Publication

variable {name : Name} {calls : List Publication} {call : Publication} {object : ContentObject} {number : UInt64}

/-- Lays the segments of a call over those held under a name, if that is the name the
call returns. -/
def lay (name : Name) (held : List ContentObject) (call : Publication) : List ContentObject :=
  if call.name = name then call.segments ++ held.drop call.segments.length else held

/-- The segments under a name after some calls: those of every call that returns the
name, laid over one another in the order of the calls. -/
def laid (name : Name) (calls : List Publication) : List ContentObject := calls.foldl (lay name) []

def Undisturbed (name : Name) (calls : List Publication) : Prop :=
  ∀ call ∈ calls, name.isPrefixOf call.base = true → ∃ object ∈ laid name calls, object.name.isPrefixOf call.base = true

instance (name : Name) (calls : List Publication) : Decidable (Undisturbed name calls) :=
  inferInstanceAs (Decidable (∀ call ∈ calls, _ → _))

theorem name_inj {first second : Publication} :
    first.name = second.name ↔ first.base = second.base ∧ first.clock.now = second.clock.now :=
  Name.version_inj

/-! The segments of one call. -/

theorem length_segments (call : Publication) : call.segments.length = (call.writer.cut call.content).length := by
  simp [segments, Writer.segments]

theorem segments_ne_nil (call : Publication) : call.segments ≠ [] := by
  intro none
  have cut : call.writer.cut call.content = [] := by
    rw [← List.length_eq_zero_iff, ← length_segments, none, List.length_nil]
  have whole : (call.writer.cut call.content).flatten = call.content := Writer.flatten_cut
  have nothing : call.content = [] := by rw [← whole, cut, List.flatten_nil]
  simp [Writer.cut, nothing] at cut

theorem length_segments_lt (fits : call.content.length < UInt64.size) : call.segments.length < UInt64.size := by
  rw [length_segments, Writer.cut]
  split
  · decide
  · exact Nat.lt_of_le_of_lt (length_chunks_le _ _) fits

theorem content_segments (call : Publication) : call.segments.flatMap (·.content) = call.content := by
  rw [List.flatMap_def, segments, Writer.content_segments]
  exact Writer.flatten_cut

theorem name_of_getElem? {place : Nat} (found : call.segments[place]? = some object) :
    object.name = call.name.segment (.ofNat place) := by
  have names := congrArg (·[place]?) (call.writer.name_segments call.name 0 (call.writer.cut call.content))
  have within : place < (call.writer.cut call.content).length := by
    rw [← length_segments]
    exact (List.getElem?_eq_some_iff.mp found).1
  rw [segments] at found
  simpa [found, List.getElem?_range', within] using names

theorem exists_place (member : object ∈ call.segments) :
    ∃ place < call.segments.length, object.name = call.name.segment (.ofNat place) := by
  obtain ⟨place, found⟩ := List.mem_iff_getElem?.mp member
  exact ⟨place, (List.getElem?_eq_some_iff.mp found).1, name_of_getElem? found⟩

theorem distinct_segments (fits : call.segments.length < UInt64.size) :
    call.segments.Pairwise (·.name ≠ ·.name) := by
  have names : (call.segments.map (·.name)).Nodup := by
    rw [segments, Writer.name_segments]
    refine List.Nodup.map_on (fun first firstIn second secondIn same => ?_) List.nodup_range'
    rw [length_segments] at fits
    have firstBelow := (List.mem_range'_1.mp firstIn).2
    have secondBelow := (List.mem_range'_1.mp secondIn).2
    have level := congrArg UInt64.toNat (Name.segment_inj.mp same).2
    rwa [UInt64.toNat_ofNat_of_lt' (by omega), UInt64.toNat_ofNat_of_lt' (by omega)] at level
  exact List.pairwise_map.mp names

/-! What is found under a name. -/

theorem find?_lay {index : Buffer} {held : List ContentObject} (fits : call.segments.length < UInt64.size)
    (same : ∀ number, index.find? (name.segment number) = held[number.toNat]?) (number : UInt64) :
    NameIndex.find? (call.segments.foldl NameIndex.insert index) (name.segment number)
      = (lay name held call)[number.toNat]? := by
  by_cases returned : call.name = name
  · subst returned
    rw [lay, if_pos rfl]
    by_cases within : number.toNat < call.segments.length
    · rw [List.getElem?_append_left within, List.getElem?_eq_getElem within]
      have named := name_of_getElem? (List.getElem?_eq_getElem within)
      rw [UInt64.ofNat_toNat] at named
      rw [← named]
      exact NameIndex.find?_foldl_insert_of_mem (distinct_segments fits) (List.getElem_mem within)
    · have beyond := Nat.not_lt.mp within
      rw [List.getElem?_append_right beyond, List.getElem?_drop, Nat.add_sub_cancel' beyond, ← same]
      refine NameIndex.find?_foldl_insert_of_ne fun object member named => ?_
      obtain ⟨place, below, placed⟩ := exists_place member
      have level := (Name.segment_inj.mp (placed.symm.trans named)).2
      rw [← level, UInt64.toNat_ofNat_of_lt' (Nat.lt_trans below fits)] at within
      exact within below
  · rw [lay, if_neg returned, ← same]
    refine NameIndex.find?_foldl_insert_of_ne fun object member named => ?_
    obtain ⟨place, -, placed⟩ := exists_place member
    exact returned (Name.segment_inj.mp (placed.symm.trans named)).1

theorem find?_foldl_lay {index : Buffer} {held : List ContentObject}
    (fits : ∀ call ∈ calls, call.content.length < UInt64.size)
    (same : ∀ number, index.find? (name.segment number) = held[number.toNat]?) (number : UInt64) :
    NameIndex.find? ((calls.flatMap segments).foldl NameIndex.insert index) (name.segment number)
      = (calls.foldl (lay name) held)[number.toNat]? := by
  induction calls generalizing index held with
  | nil => exact same number
  | cons call rest ih =>
    rw [List.forall_mem_cons] at fits
    rw [List.flatMap_cons, List.foldl_append, List.foldl_cons]
    exact ih fits.2 (find?_lay (length_segments_lt fits.1) same)

theorem length_lay (held : List ContentObject) :
    (lay name held call).length = if call.name = name then max call.segments.length held.length else held.length := by
  unfold lay
  split
  · rw [List.length_append, List.length_drop]
    omega
  · rfl

theorem length_foldl_lay_lt {held : List ContentObject} (fits : ∀ call ∈ calls, call.content.length < UInt64.size)
    (few : held.length < UInt64.size) : (calls.foldl (lay name) held).length < UInt64.size := by
  induction calls generalizing held with
  | nil => exact few
  | cons call rest ih =>
    rw [List.forall_mem_cons] at fits
    refine ih fits.2 ?_
    rw [length_lay]
    split
    · exact Nat.max_lt.mpr ⟨length_segments_lt fits.1, few⟩
    · exact few

theorem length_le_foldl_lay (name : Name) (calls : List Publication) (held : List ContentObject) :
    held.length ≤ (calls.foldl (lay name) held).length := by
  induction calls generalizing held with
  | nil => exact Nat.le_refl _
  | cons call rest ih =>
    refine Nat.le_trans ?_ (ih (lay name held call))
    rw [length_lay]
    split
    · exact Nat.le_max_right _ _
    · exact Nat.le_refl _

theorem foldl_lay_of_ne {held : List ContentObject} (others : ∀ call ∈ calls, call.name ≠ name) :
    calls.foldl (lay name) held = held := by
  induction calls generalizing held with
  | nil => rfl
  | cons call rest ih =>
    rw [List.forall_mem_cons] at others
    rw [List.foldl_cons, lay, if_neg others.1, ih others.2]

theorem laid_of_sole {before after : List Publication} (sole : ∀ other ∈ before ++ after, other.name ≠ call.name) :
    laid call.name (before ++ call :: after) = call.segments := by
  rw [List.forall_mem_append] at sole
  rw [laid, List.foldl_append, List.foldl_cons, foldl_lay_of_ne sole.1, foldl_lay_of_ne sole.2, lay, if_pos rfl,
    List.drop_nil, List.append_nil]

theorem laid_ne_nil (member : call ∈ calls) : laid call.name calls ≠ [] := by
  obtain ⟨before, after, rfl⟩ := List.append_of_mem member
  intro nothing
  have enough := length_le_foldl_lay call.name after (lay call.name (before.foldl (lay call.name) []) call)
  rw [laid, List.foldl_append, List.foldl_cons] at nothing
  rw [nothing, length_lay, if_pos rfl, List.length_nil] at enough
  exact segments_ne_nil call (List.length_eq_zero_iff.mp (by omega))

theorem length_laid_lt (fits : ∀ call ∈ calls, call.content.length < UInt64.size) (name : Name) :
    (laid name calls).length < UInt64.size :=
  length_foldl_lay_lt fits (by decide)

section Filled
variable {config : FlowConfig} {namespaces : List Name} {flow : Flow DeliveryQueue}
variable (filled : flow.Filled config namespaces (calls.flatMap segments))
include filled

theorem exists_call_of_held (held : object ∈ flow.buffer.values) :
    ∃ other ∈ calls, ∃ number, object.name = other.name.segment number := by
  rw [filled.stored] at held
  rcases NameIndex.mem_of_mem_foldl_insert held with listed | nothing
  · obtain ⟨other, member, among⟩ := List.mem_flatMap.mp listed
    obtain ⟨place, -, named⟩ := exists_place among
    exact ⟨other, member, _, named⟩
  · exact absurd nothing List.not_mem_nil

theorem near_of_mem (member : call ∈ calls) :
    namespaces.any (fun held => held.isPrefixOf call.name || call.name.isPrefixOf held) = true := by
  obtain ⟨object, among⟩ := List.exists_mem_of_ne_nil _ (segments_ne_nil call)
  obtain ⟨place, -, named⟩ := exists_place among
  have covered := filled.covered object (List.mem_flatMap.mpr ⟨call, member, among⟩)
  obtain ⟨held, registered, begins⟩ := List.any_eq_true.mp covered
  refine List.any_eq_true.mpr ⟨held, registered, ?_⟩
  rw [named] at begins
  rcases Name.isPrefixOf_child_iff.mp begins with within | whole
  · rw [within, Bool.true_or]
  · rw [whole, Name.isPrefixOf_child, Bool.or_true]

variable (fits : ∀ call ∈ calls, call.content.length < UInt64.size)
include fits

theorem find?_laid (name : Name) (number : UInt64) :
    flow.buffer.find? (name.segment number) = (laid name calls)[number.toNat]? := by
  rw [filled.stored]
  exact find?_foldl_lay fits (fun _ => rfl) number

theorem mem_laid_iff {name : Name} :
    object ∈ laid name calls ↔ object ∈ flow.buffer.values ∧ ∃ number, object.name = name.segment number := by
  constructor
  · intro member
    obtain ⟨place, within, rfl⟩ := List.getElem_of_mem member
    have below := Nat.lt_trans within (length_laid_lt fits name)
    have found := find?_laid filled fits name (.ofNat place)
    rw [UInt64.toNat_ofNat_of_lt' below, List.getElem?_eq_getElem within] at found
    obtain ⟨held, named⟩ := NameIndex.find?_eq_some_iff.mp found
    exact ⟨held, _, named⟩
  · rintro ⟨held, number, named⟩
    have found := find?_laid filled fits name number
    rw [NameIndex.find?_eq_some_iff.mpr ⟨held, named⟩] at found
    exact List.mem_of_getElem? found.symm

theorem stocks_laid (call : Publication) : flow.buffer.Stocks call.name 0 (laid call.name calls) where
  unnamed := by
    intro object held
    obtain ⟨other, -, number, named⟩ := exists_call_of_held filled held
    constructor
    · -- The last component of a segment is no version.
      rw [named]
      exact fun same => Component.version_ne_segment _ _ (Name.child_inj.mp same).2.symm
    · -- Neither is a digest, which is longer.
      intro same
      have digest := congrArg (·.bytes.length) (Name.child_inj.mp same).2
      simp [Component.version, Component.numbered] at digest
  listed := by
    intro object held component child
    obtain ⟨other, -, number, named⟩ := exists_call_of_held filled held
    obtain ⟨-, rfl⟩ := Name.child_inj.mp (child.symm.trans named)
    exact (mem_laid_iff filled fits).mpr ⟨held, number, child⟩
  stored := fun object member => ((mem_laid_iff filled fits).mp member).1
  numbered := by
    refine List.ext_getElem (by simp) fun place within _ => ?_
    rw [List.length_map] at within
    have below := Nat.lt_trans within (length_laid_lt fits call.name)
    have found := find?_laid filled fits call.name (.ofNat place)
    rw [UInt64.toNat_ofNat_of_lt' below, List.getElem?_eq_getElem within] at found
    simpa using (NameIndex.find?_eq_some_iff.mp found).2
  fits := (Nat.zero_add _).symm ▸ length_laid_lt fits call.name

-- What lies ahead under a version's name lies under its segments exactly if nothing
-- else was published under the name.
theorem clear_laid_iff (call : Publication) :
    flow.buffer.Clear call.name none (laid call.name calls) ↔ Undisturbed call.name calls := by
  constructor
  · intro clear other otherMember begins
    obtain ⟨object, found⟩ := List.exists_mem_of_ne_nil _ (laid_ne_nil otherMember)
    obtain ⟨held, number, named⟩ := (mem_laid_iff filled fits).mp found
    have above : other.base.isPrefixOf object.name = true :=
      named ▸ Name.isPrefixOf_trans (Name.isPrefixOf_child _ _) (Name.isPrefixOf_segment _ _)
    obtain ⟨segment, listed, under⟩ := clear object held (Name.isPrefixOf_trans begins above)
    obtain ⟨-, place, placed⟩ := (mem_laid_iff filled fits).mp listed
    refine ⟨segment, listed, ?_⟩
    rw [named] at under
    rcases Name.isPrefixOf_child_iff.mp under with within | whole
    · refine (Name.isPrefixOf_child_iff.mp within).resolve_right fun whole => ?_
      exact Component.version_ne_segment _ _ (Name.child_inj.mp (placed.symm.trans whole)).2.symm
    · -- The two names would be one, and that name would begin its own base.
      obtain ⟨same, -⟩ := Name.segment_inj.mp (placed.symm.trans whole)
      have shorter := Name.length_le_of_isPrefixOf begins
      rw [same, name, Name.version, Name.length_child] at shorter
      omega
  · intro undisturbed object held ahead
    obtain ⟨other, otherMember, number, named⟩ := exists_call_of_held filled held
    have begins : call.name.isPrefixOf object.name = true := ahead
    rw [named] at begins
    rcases Name.isPrefixOf_child_iff.mp begins with within | whole
    · rcases Name.isPrefixOf_child_iff.mp within with under | same
      · obtain ⟨segment, listed, beneath⟩ := undisturbed other otherMember under
        have above : other.base.isPrefixOf object.name = true :=
          named ▸ Name.isPrefixOf_trans (Name.isPrefixOf_child _ _) (Name.isPrefixOf_segment _ _)
        exact ⟨segment, listed, Name.isPrefixOf_trans beneath above⟩
      · have listed : object ∈ laid call.name calls :=
          (mem_laid_iff filled fits).mpr ⟨held, number, named.trans (congrArg (Name.segment · number) same.symm)⟩
        exact ⟨object, listed, object.name.isPrefixOf_refl⟩
    · exact absurd (named.trans whole.symm) ((stocks_laid filled fits call).unnamed object held).1

end Filled

/-- Versions that are published one after the other on a fresh controller, and then
read. Calls whose names the namespaces cover succeed if there is room for all segments.
If all calls succeed, two of them return the same name exactly if they were given the
same name at the same time. Reading out a returned name brings what is laid under it,
and then nothing, exactly if nothing was published under it but under its segments,
and several such names can be read out in any order. A call that alone returned its
name has its own content laid under it. -/
theorem versions_read_back_iff_undisturbed (config : FlowConfig) (namespaces : List Name) (clock : Clock)
    (calls : List Publication) (fits : ∀ call ∈ calls, call.content.length < UInt64.size) :
    let opened : Controller DeliveryQueue :=
      ⟨{ Flow.new config DeliveryQueue.new with namespaces := namespaces }, clock⟩
    let answers := (opened.publish calls).1
    let published := (opened.publish calls).2
    ((∀ call ∈ calls, namespaces.any (·.isPrefixOf call.name) = true) →
      (calls.flatMap segments).length ≤ config.highwater → ∀ answer ∈ answers, ∃ name, answer = .ok name) ∧
    ((∀ answer ∈ answers, ∃ name, answer = .ok name) →
      answers = calls.map (fun call => .ok call.name) ∧
      (∀ first second : Publication,
        first.name = second.name ↔ first.base = second.base ∧ first.clock.now = second.clock.now) ∧
      (∀ call ∈ calls, ∀ clocks : List Clock, (laid call.name calls).length < clocks.length →
        ((published.readOut call.name none clocks).1 = (laid call.name calls, some (.timeout call.name .zero)) ↔
          Undisturbed call.name calls)) ∧
      (∀ before call after, calls = before ++ call :: after → (∀ other ∈ before ++ after, other.name ≠ call.name) →
        (laid call.name calls).flatMap (·.content) = call.content) ∧
      ∀ readings : List (Name × List Clock), (readings.map Prod.fst).Nodup →
        (∀ name clocks, (name, clocks) ∈ readings →
          name ∈ calls.map Publication.name ∧ Undisturbed name calls ∧ (laid name calls).length < clocks.length) →
        (published.readEach readings).1
          = readings.map fun reading => (laid reading.1 calls, some (.timeout reading.1 .zero))) := by
  intro opened answers published
  have fresh : opened.flow.Filled config namespaces [] := .new config namespaces
  rcases Controller.publish_filled fresh calls with
    ⟨failure, failed, reason⟩ | ⟨names, filled⟩
  · refine ⟨fun covered room => ?_, fun succeeded => ?_⟩
    · rcases reason with ⟨call, member, outside⟩ | full
      · exact absurd ((covered call member).symm.trans outside) (by simp)
      · rw [List.length_nil, Nat.zero_add] at full
        exact absurd room (Nat.not_le.mpr full)
    · obtain ⟨name, same⟩ := succeeded _ failed
      exact absurd same (by simp)
  · rw [List.nil_append] at filled
    have ready : published.flow.Ready namespaces := ⟨filled.opened, filled.registered, filled.idle⟩
    refine ⟨fun _ _ answer listed => ?_, fun _ => ⟨names, fun _ _ => name_inj, ?_, ?_, ?_⟩⟩
    · have among : answer ∈ calls.map fun call => .ok call.name := names ▸ listed
      obtain ⟨call, -, same⟩ := List.mem_map.mp among
      exact ⟨call.name, same.symm⟩
    · intro call member clocks pulls
      have unread : call.name.Reached 0 ((none : Option ContentObject).map (·.name)) := by simp [Name.Reached]
      rw [← clear_laid_iff filled fits call]
      rcases Controller.readOut_cases ready (near_of_mem filled member) (stocks_laid filled fits call) unread pulls with
        ⟨clear, after, read, -⟩ | ⟨obstructed, different⟩
      · exact iff_of_true (by rw [read]) clear
      · exact iff_of_false different obstructed
    · rintro before call after rfl sole
      rw [laid_of_sole sole, content_segments]
    · intro readings distinct prepared
      refine Controller.readEach_eq (laid · calls) distinct ready fun name clocks listed => ?_
      obtain ⟨returned, undisturbed, pulls⟩ := prepared name clocks listed
      obtain ⟨call, member, rfl⟩ := List.mem_map.mp returned
      exact ⟨near_of_mem filled member, stocks_laid filled fits call,
        (clear_laid_iff filled fits call).mpr undisturbed, pulls⟩

end Publication

namespace Sample

def document : Name := .ofBytes [[0x64]]

def edition (base : Name) (content : List UInt8) (time : UInt64) : Publication :=
  ⟨Writer.standard.withSegmentSize 2, base, content, .manual ⟨time⟩⟩

def press : Controller DeliveryQueue :=
  ⟨{ Flow.new .standard DeliveryQueue.new with namespaces := [.root] }, .manual ⟨0⟩⟩

def annotated : List Publication :=
  [edition document [1, 2, 3] 1000, edition document [4] 2000, edition ((document.version ⟨1000⟩).segment 1) [5] 3000]

/-- A shorter version follows within the same millisecond. -/
def hasty : List Publication := [edition document [1, 2, 3, 4] 1000, edition document [5, 6] 1000]

/-- A version of a version follows later. -/
def nested : List Publication := [edition document [1, 2] 1000, edition (document.version ⟨1000⟩) [5, 6] 2000]

def pulls : List Clock := List.replicate 5 (.manual ⟨4000⟩)

end Sample

open Sample Publication in
theorem annotated_versions_read_back :
    (∀ call ∈ annotated, call.content.length < UInt64.size) ∧
      (press.publish annotated).1
        = [.ok (document.version ⟨1000⟩), .ok (document.version ⟨2000⟩),
          .ok (((document.version ⟨1000⟩).segment 1).version ⟨3000⟩)] ∧
      ((press.publish annotated).2.readEach
          [(document.version ⟨2000⟩, pulls), (document.version ⟨1000⟩, pulls)]).1.map
          (fun result => (result.1.flatMap (·.content), result.2))
        = [([4], some (.timeout (document.version ⟨2000⟩) .zero)),
          ([1, 2, 3], some (.timeout (document.version ⟨1000⟩) .zero))] := by
  have fits : ∀ call ∈ annotated, call.content.length < UInt64.size := by decide
  obtain ⟨succeeds, published⟩ :=
    versions_read_back_iff_undisturbed .standard [.root] (.manual ⟨0⟩) annotated fits
  obtain ⟨names, -, -, contents, reads⟩ := published (succeeds (by decide) (by decide +kernel))
  have first := contents [] (edition document [1, 2, 3] 1000) _ rfl (by decide)
  have second := contents [_] (edition document [4] 2000) _ rfl (by decide)
  refine ⟨fits, names, ?_⟩
  have each : ((press.publish annotated).2.readEach
      [(document.version ⟨2000⟩, pulls), (document.version ⟨1000⟩, pulls)]).1
      = [(laid (document.version ⟨2000⟩) annotated, some (.timeout (document.version ⟨2000⟩) .zero)),
        (laid (document.version ⟨1000⟩) annotated, some (.timeout (document.version ⟨1000⟩) .zero))] := by
    refine reads _ (by decide) fun name clocks listed => ?_
    rcases List.mem_pair.mp listed with same | same <;> obtain ⟨rfl, rfl⟩ := Prod.mk.inj same
    · exact ⟨by decide, by decide +kernel, by decide +kernel⟩
    · exact ⟨by decide, by decide +kernel, by decide +kernel⟩
  rw [each]
  exact congrArg₂ (fun one two => [(one, _), (two, _)]) second first

open Sample in
/-- Both calls of the hasty run return one name, and what is read under it is neither
content. In the other run what is read under the first name goes on with the second
content. -/
theorem hasty_and_nested_versions_mix :
    let version := document.version ⟨1000⟩
    (press.publish hasty).1 = [.ok version, .ok version] ∧
      ((press.publish hasty).2.readOut version none pulls).1.1.flatMap (·.content) = [5, 6, 3, 4] ∧
      hasty.map (·.content) = [[1, 2, 3, 4], [5, 6]] ∧
      (press.publish nested).1 = [.ok version, .ok (version.version ⟨2000⟩)] ∧
      ((press.publish nested).2.readOut version none pulls).1.1.flatMap (·.content) = [1, 2, 5, 6] ∧
      nested.map (·.content) = [[1, 2], [5, 6]] := by
  intro version
  refine ⟨?_, ?_, ?_, ?_, ?_, ?_⟩ <;> decide +kernel

end NamedContent
