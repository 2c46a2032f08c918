import NamedContent.Proofs.Controller.Publishing
import NamedContent.Proofs.Controller.Pulling

/-! Objects put and versions published while nothing is asked for.

Whatever is put under the namespaces is buffered as long as there is room, in the
place of what carries its name. So the buffer is known from the calls alone. -/

set_option autoImplicit false

namespace NamedContent

namespace Flow

/-- An open and enabled flow of which nothing was ever asked, with what was put into
it in the buffer. -/
structure Filled (config : FlowConfig) (namespaces : List Name) (objects : List ContentObject)
    (flow : Flow DeliveryQueue) : Prop where
  opened : flow.closed = false
  enabled : flow.enabled = true
  configured : flow.config = config
  registered : flow.namespaces = namespaces
  unasked : flow.pending = .empty
  idle : flow.transport = .new
  covered : ∀ object ∈ objects, namespaces.any (·.isPrefixOf object.name) = true
  stored : flow.buffer = objects.foldl NameIndex.insert .empty

namespace Filled

variable {config : FlowConfig} {namespaces : List Name} {objects : List ContentObject} {flow : Flow DeliveryQueue}

theorem new (config : FlowConfig) (namespaces : List Name) :
    Filled config namespaces [] { Flow.new config DeliveryQueue.new with namespaces := namespaces } where
  opened := rfl
  enabled := rfl
  configured := rfl
  registered := rfl
  unasked := rfl
  idle := rfl
  covered := by simp
  stored := rfl

theorem expire (filled : flow.Filled config namespaces objects) (now : Timestamp) :
    (flow.expire now).Filled config namespaces objects :=
  { filled with unasked := pending_expire_of_empty filled.unasked now }

theorem calm (filled : flow.Filled config namespaces objects) : flow.Idle where
  pending := filled.unasked
  unqueued := by simp [filled.idle]
  enabled := filled.enabled

theorem size_le (filled : flow.Filled config namespaces objects) : flow.buffer.size ≤ objects.length := by
  rw [filled.stored]
  exact Nat.le_trans NameIndex.size_foldl_insert_le (Nat.le_of_eq (Nat.zero_add _))

theorem put_cases (filled : flow.Filled config namespaces objects) (object : ContentObject) (now : Timestamp) :
    (∃ failure after, flow.put object now = (.error failure, after) ∧ after.Filled config namespaces objects ∧
      (namespaces.any (·.isPrefixOf object.name) = false ∨ config.highwater ≤ objects.length)) ∨
    ∃ after, flow.put object now = (.ok .buffered, after) ∧ after.Filled config namespaces (objects ++ [object]) := by
  obtain ⟨answer, weighed, weighing, judged, result⟩ := flow.put_cases object now
  have held : weighed.Filled config namespaces objects := by
    rw [weighing]
    split
    · exact filled.expire now
    · exact filled
  have covers : weighed.covers object.name = namespaces.any (·.isPrefixOf object.name) := by
    rw [Flow.covers, held.registered]
  cases judged with
  | closed closed => exact absurd (held.opened.symm.trans closed) (by simp)
  | bypass _ disabled => exact absurd (held.enabled.symm.trans disabled) (by simp)
  | outside _ _ uncovered => exact Or.inl ⟨_, weighed, result, held, Or.inl (covers.symm.trans uncovered)⟩
  | deliver _ best => exact absurd ((held.calm.bestPending?_eq_none object).symm.trans best) (by simp)
  | full _ _ _ full =>
    rw [held.configured] at full
    exact Or.inl ⟨_, weighed, result, held, Or.inr (Nat.le_trans full held.size_le)⟩
  | buffer weighs _ _ =>
    have within := covers.symm.trans (weighs_iff.mp weighs).2.2
    refine Or.inr ⟨_, result, { held with covered := ?_, stored := ?_ }⟩
    · intro other member
      rcases List.mem_append.mp member with earlier | last
      · exact held.covered other earlier
      · exact List.mem_singleton.mp last ▸ within
    · rw [List.foldl_append, ← held.stored]
      rfl

end Filled

end Flow

namespace Controller

variable {config : FlowConfig} {namespaces : List Name} {objects : List ContentObject}
variable {controller : Controller DeliveryQueue}

theorem put_filled (filled : controller.flow.Filled config namespaces objects) (object : ContentObject) :
    (∃ failure after, controller.put object = (.error failure, after) ∧
      (namespaces.any (·.isPrefixOf object.name) = false ∨ config.highwater ≤ objects.length)) ∨
    ∃ after : Controller DeliveryQueue, controller.put object = (.ok .buffered, after) ∧
      after.flow.Filled config namespaces (objects ++ [object]) := by
  rcases put : controller.put object with ⟨answer, after⟩
  -- Whichever attempt is the last one, it finds as much in the buffer.
  obtain ⟨flow, now, held, last⟩ : ∃ flow : Flow DeliveryQueue, ∃ now,
      flow.Filled config namespaces objects ∧ flow.put object now = (answer, after.flow) := by
    rcases put_cases put with first | ⟨failure, middle, later, first, second⟩
    · exact ⟨_, _, filled, first⟩
    · rcases filled.put_cases object controller.now with ⟨other, next, failed, held, -⟩ | ⟨next, taken, -⟩
      · obtain ⟨-, rfl⟩ := Prod.mk.inj (first.symm.trans failed)
        exact ⟨_, _, held, second⟩
      · exact absurd (Prod.mk.inj (first.symm.trans taken)).1 (by simp)
  rcases held.put_cases object now with ⟨failure, next, failed, -, reason⟩ | ⟨next, taken, grown⟩
  · obtain ⟨rfl, rfl⟩ := Prod.mk.inj (last.symm.trans failed)
    exact Or.inl ⟨failure, after, rfl, reason⟩
  · obtain ⟨rfl, rfl⟩ := Prod.mk.inj (last.symm.trans taken)
    exact Or.inr ⟨after, rfl, grown⟩

end Controller

namespace Writer

variable {config : FlowConfig} {namespaces : List Name} {objects : List ContentObject}
variable {controller : Controller DeliveryQueue}

theorem putSegments_filled (writer : Writer) (stream : Name) (start : Nat) (chunks : List (List UInt8))
    (filled : controller.flow.Filled config namespaces objects) :
    (∃ failure after, writer.putSegments stream (.ofNat start) chunks controller = (.error failure, after) ∧
      (namespaces.any (·.isPrefixOf stream) = false ∨ config.highwater < objects.length + chunks.length)) ∨
    ∃ number, ∃ after : Controller DeliveryQueue,
      writer.putSegments stream (.ofNat start) chunks controller = (.ok number, after) ∧
        after.flow.Filled config namespaces (objects ++ writer.segments stream start chunks) := by
  induction chunks generalizing controller objects start with
  | nil => exact Or.inr ⟨_, controller, rfl, by simpa [segments] using filled⟩
  | cons chunk rest ih =>
    have named : (writer.segment stream (.ofNat start) chunk).name = stream.segment (.ofNat start) := by simp
    have next : UInt64.ofNat start + 1 = UInt64.ofNat (start + 1) := by simp [UInt64.ofNat_add]
    rw [putSegments, segments_cons]
    rcases Controller.put_filled filled (writer.segment stream (.ofNat start) chunk) with
      ⟨failure, after, failed, reason⟩ | ⟨after, taken, grown⟩
    · refine Or.inl ⟨failure, after, by rw [failed], ?_⟩
      rcases reason with uncovered | full
      · refine Or.inl (Bool.eq_false_iff.mpr fun covered => ?_)
        obtain ⟨held, registered, begins⟩ := List.any_eq_true.mp covered
        have within := Name.isPrefixOf_trans begins (stream.isPrefixOf_segment (.ofNat start))
        exact Bool.eq_false_iff.mp uncovered (List.any_eq_true.mpr ⟨held, registered, named ▸ within⟩)
      · exact Or.inr (by rw [List.length_cons]; omega)
    · have onward := ih (start + 1) grown
      rw [List.length_append, List.length_singleton, Nat.add_assoc, Nat.add_comm 1] at onward
      rwa [taken, List.append_cons, next]

end Writer

structure Publication where
  writer : Writer
  base : Name
  content : List UInt8
  clock : Clock

namespace Publication

def name (call : Publication) : Name := call.base.version call.clock.now

def segments (call : Publication) : List ContentObject :=
  call.writer.segments call.name 0 (call.writer.cut call.content)

end Publication

namespace Controller

def publish (controller : Controller DeliveryQueue) :
    List Publication → List (Except Failure Name) × Controller DeliveryQueue
  | [] => ([], controller)
  | call :: rest =>
    let (answer, controller) := call.writer.putVersion call.base call.content { controller with clock := call.clock }
    let (answers, controller) := controller.publish rest
    (answer :: answers, controller)

variable {config : FlowConfig} {namespaces : List Name} {objects : List ContentObject}
variable {controller : Controller DeliveryQueue} {calls : List Publication}

theorem putVersion_filled (filled : controller.flow.Filled config namespaces objects) (call : Publication) :
    (∃ failure after,
      call.writer.putVersion call.base call.content { controller with clock := call.clock } = (.error failure, after) ∧
      (namespaces.any (·.isPrefixOf call.name) = false ∨ config.highwater < objects.length + call.segments.length)) ∨
    ∃ after : Controller DeliveryQueue,
      call.writer.putVersion call.base call.content { controller with clock := call.clock } = (.ok call.name, after) ∧
        after.flow.Filled config namespaces (objects ++ call.segments) := by
  have held : (⟨controller.flow, call.clock⟩ : Controller DeliveryQueue).flow.Filled config namespaces objects := filled
  rcases call.writer.putSegments_filled call.name 0 (call.writer.cut call.content) held with
    ⟨failure, after, failed, reason⟩ | ⟨number, after, taken, grown⟩
  · have put : call.writer.put (call.base.version call.clock.now) call.content ⟨controller.flow, call.clock⟩
        = (.error failure, after) := failed
    refine Or.inl ⟨failure, after, ?_, by simpa [Publication.segments, Writer.segments] using reason⟩
    rw [Writer.putVersion, Controller.now, put]
  · have put : call.writer.put (call.base.version call.clock.now) call.content ⟨controller.flow, call.clock⟩
        = (.ok number, after) := taken
    refine Or.inr ⟨after, ?_, grown⟩
    rw [Writer.putVersion, Controller.now, put]
    rfl

/-- Calls succeed unless a name is outside the namespaces or there is no room. Then
they return the names of the versions, and what they put is all that is buffered. -/
theorem publish_filled (filled : controller.flow.Filled config namespaces objects) (calls : List Publication) :
    (∃ failure, .error failure ∈ (controller.publish calls).1 ∧
      ((∃ call ∈ calls, namespaces.any (·.isPrefixOf call.name) = false) ∨
        config.highwater < objects.length + (calls.flatMap Publication.segments).length)) ∨
    (controller.publish calls).1 = calls.map (fun call => .ok call.name) ∧
      (controller.publish calls).2.flow.Filled config namespaces (objects ++ calls.flatMap Publication.segments) := by
  induction calls generalizing controller objects with
  | nil => exact Or.inr ⟨rfl, by simpa [publish] using filled⟩
  | cons call rest ih =>
    rcases putVersion_filled filled call with ⟨failure, after, failed, reason⟩ | ⟨after, put, grown⟩
    · refine Or.inl ⟨failure, by simp [publish, failed], reason.imp ?_ ?_⟩
      · exact fun uncovered => ⟨call, List.mem_cons_self, uncovered⟩
      · intro full
        rw [List.flatMap_cons, List.length_append]
        omega
    · rcases ih grown with ⟨failure, among, reason⟩ | ⟨names, final⟩
      · refine Or.inl ⟨failure, by simp [publish, put, among], reason.imp ?_ ?_⟩
        · exact fun ⟨other, member, uncovered⟩ => ⟨other, List.mem_cons_of_mem _ member, uncovered⟩
        · intro full
          rw [List.length_append] at full
          rw [List.flatMap_cons, List.length_append]
          omega
      · refine Or.inr ⟨by simp [publish, put, names], ?_⟩
        rw [List.flatMap_cons, ← List.append_assoc]
        simpa [publish, put] using final

end Controller

end NamedContent
