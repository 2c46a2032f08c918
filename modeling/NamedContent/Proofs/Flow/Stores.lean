import NamedContent.Proofs.Flow.Selection
import NamedContent.Proofs.Flow.Trail

/-! What a step does to the buffer, the pending interests and the marks.

The buffer grows by a put alone, the pending interests by a registration alone,
and the mark of a stream moves when one of its segments is delivered. -/

set_option autoImplicit false

namespace NamedContent.Flow

variable {τ : Type}

section Views
variable (flow : Flow τ) (name : Name)

@[simp] theorem config_addNamespace : (flow.addNamespace name).config = flow.config := by
  unfold addNamespace; split <;> rfl

@[simp] theorem transport_addNamespace : (flow.addNamespace name).transport = flow.transport := by
  unfold addNamespace; split <;> rfl

@[simp] theorem buffer_addNamespace : (flow.addNamespace name).buffer = flow.buffer := by
  unfold addNamespace; split <;> rfl

@[simp] theorem pending_addNamespace : (flow.addNamespace name).pending = flow.pending := by
  unfold addNamespace; split <;> rfl

@[simp] theorem marks_addNamespace : (flow.addNamespace name).marks = flow.marks := by
  unfold addNamespace; split <;> rfl

@[simp] theorem nextSeq_addNamespace : (flow.addNamespace name).nextSeq = flow.nextSeq := by
  unfold addNamespace; split <;> rfl

@[simp] theorem enabled_addNamespace : (flow.addNamespace name).enabled = flow.enabled := by
  unfold addNamespace; split <;> rfl

@[simp] theorem config_removeNamespace : (flow.removeNamespace name).2.config = flow.config := by
  unfold removeNamespace; simp only; split <;> rfl

@[simp] theorem transport_removeNamespace : (flow.removeNamespace name).2.transport = flow.transport := by
  unfold removeNamespace; simp only; split <;> rfl

@[simp] theorem buffer_removeNamespace : (flow.removeNamespace name).2.buffer = flow.buffer := by
  unfold removeNamespace; simp only; split <;> rfl

@[simp] theorem pending_removeNamespace : (flow.removeNamespace name).2.pending = flow.pending := by
  unfold removeNamespace; simp only; split <;> rfl

@[simp] theorem nextSeq_removeNamespace : (flow.removeNamespace name).2.nextSeq = flow.nextSeq := by
  unfold removeNamespace; simp only; split <;> rfl

@[simp] theorem enabled_removeNamespace : (flow.removeNamespace name).2.enabled = flow.enabled := by
  unfold removeNamespace; simp only; split <;> rfl

end Views

variable {flow before after : Flow τ} {event : Event} {stream : Name} {number : UInt64}

theorem length_namespaces_eq_iff (flow : Flow τ) (name : Name) :
    (flow.namespaces.filter (· != name)).length = flow.namespaces.length ↔ name ∉ flow.namespaces := by
  rw [List.length_filter_eq_length_iff]
  constructor
  · intro differ member
    exact absurd (differ name member) (by simp)
  · intro missing held member
    simpa using fun same : held = name => missing (same ▸ member)

theorem removeNamespace_of_not_mem {name : Name} (missing : name ∉ flow.namespaces) :
    flow.removeNamespace name = (false, flow) :=
  if_pos ((flow.length_namespaces_eq_iff name).mpr missing)

-- Whoever drops marks keeps the others as they are.
theorem find?_removeNamespace_cases (name : Name) :
    (flow.removeNamespace name).2.marks.find? stream = flow.marks.find? stream ∨
      (flow.removeNamespace name).2.marks.find? stream = none := by
  unfold removeNamespace
  simp only
  split
  · exact Or.inl rfl
  · exact NameIndex.find?_filter_cases _ stream

theorem find?_expire_cases (now : Timestamp) :
    (flow.expire now).marks.find? stream = flow.marks.find? stream ∨ (flow.expire now).marks.find? stream = none := by
  unfold expire
  simp only
  split
  · exact NameIndex.find?_filter_cases _ stream
  · exact Or.inl rfl

theorem find?_forward (flow : Flow τ) (object : ContentObject) (transport : τ) (stream : Name) :
    (flow.forward object transport).marks.find? stream
      = match object.name.splitSegment? with
        | some (moved, segment) =>
          if moved = stream then some (flow.advance moved segment) else flow.marks.find? stream
        | none => flow.marks.find? stream := by
  cases split : object.name.splitSegment? with
  | none => simp [forward, split]
  | some parts =>
    obtain ⟨moved, segment⟩ := parts
    have inserted : (flow.forward object transport).marks = flow.marks.insert (flow.advance moved segment) := by
      simp only [forward, split]
      rfl
    rw [inserted]
    by_cases same : moved = stream
    · subst same
      have found : (flow.marks.insert (flow.advance moved segment)).find? moved = some (flow.advance moved segment) :=
        NameIndex.find?_insert_self _
      simpa using found
    · have skipped : (flow.marks.insert (flow.advance moved segment)).find? stream = flow.marks.find? stream :=
        NameIndex.find?_insert_of_ne same
      simpa [same] using skipped

theorem toNat_advance {delivered : UInt64} (marked : flow.lowWater? stream = some delivered) (number : UInt64) :
    (flow.advance stream number).segment.toNat = max number.toNat delivered.toNat := by
  rw [advance, marked]
  exact Word.toNat_max number delivered

theorem toNat_advance_of_none (unmarked : flow.lowWater? stream = none) (number : UInt64) :
    (flow.advance stream number).segment.toNat = number.toNat := by
  rw [advance, unmarked]

theorem advance_cases (flow : Flow τ) (stream : Name) (number : UInt64) :
    (flow.advance stream number).segment = number ∨
      flow.lowWater? stream = some (flow.advance stream number).segment := by
  cases marked : flow.lowWater? stream with
  | none => exact Or.inl (UInt64.toNat_inj.mp (toNat_advance_of_none marked number))
  | some delivered =>
    have highest := toNat_advance marked number
    rcases Nat.le_total number.toNat delivered.toNat with below | above
    · rw [Nat.max_eq_right below] at highest
      exact Or.inr (congrArg some (UInt64.toNat_inj.mp highest).symm)
    · rw [Nat.max_eq_left above] at highest
      exact Or.inl (UInt64.toNat_inj.mp highest)

theorem le_advance (flow : Flow τ) (stream : Name) (number : UInt64) :
    number.toNat ≤ (flow.advance stream number).segment.toNat := by
  cases marked : flow.lowWater? stream with
  | none => exact Nat.le_of_eq (toNat_advance_of_none marked number).symm
  | some delivered =>
    rw [toNat_advance marked]
    exact Nat.le_max_left _ _

variable [Transport τ]

namespace Step

theorem wellFormed (step : before.Step event after) (held : before.pending.WellFormed) :
    after.pending.WellFormed := by
  cases step with
  | addNamespace => simpa using held
  | removeNamespace => simpa using held
  | close => exact Table.wellFormed_empty
  | expire => exact held.filter _
  | deliver => exact held.removeInterest _ _
  | register => exact held.add _
  | answer => simpa using held
  | _ => exact held

theorem config_cases (step : before.Step event after) :
    ∃ highwater timeout, after.config = { before.config with highwater := highwater, drainTimeout := timeout } := by
  cases step with
  | addNamespace => exact ⟨_, _, config_addNamespace _ _⟩
  | removeNamespace => exact ⟨_, _, config_removeNamespace _ _⟩
  | deliver => exact ⟨_, _, config_forward _ _ _⟩
  | answer => exact ⟨_, _, config_forward _ _ _⟩
  | _ => exact ⟨_, _, rfl⟩

theorem strict (step : before.Step event after) :
    after.config.strictSegmentOrder = before.config.strictSegmentOrder := by
  obtain ⟨highwater, timeout, same⟩ := step.config_cases
  rw [same]

theorem lifetime (step : before.Step event after) :
    after.config.interestLifetime = before.config.interestLifetime := by
  obtain ⟨highwater, timeout, same⟩ := step.config_cases
  rw [same]

theorem enabled_cases (step : before.Step event after) :
    after.enabled = before.enabled ∨ ∃ enabled, event = .managed (.setEnabled enabled) ∧ after.enabled = enabled := by
  cases step with
  | setEnabled enabled => exact Or.inr ⟨enabled, rfl, rfl⟩
  | addNamespace => exact Or.inl (by simp)
  | removeNamespace => exact Or.inl (by simp)
  | deliver => exact Or.inl (by simp)
  | answer => exact Or.inl (by simp)
  | _ => exact Or.inl rfl

-- Content and interests neither close the flow nor change its namespaces.
theorem unmanaged_eq (step : before.Step event after) (unmanaged : ∀ request, event ≠ .managed request) :
    after.closed = before.closed ∧ after.namespaces = before.namespaces := by
  cases step with
  | addNamespace => exact absurd rfl (unmanaged _)
  | removeNamespace => exact absurd rfl (unmanaged _)
  | close => exact absurd rfl (unmanaged _)
  | deliver => simp
  | answer => simp
  | _ => exact ⟨rfl, rfl⟩

theorem stored_cases (step : before.Step event after) {object : ContentObject}
    (stored : object ∈ after.buffer.values) : object ∈ before.buffer.values ∨ event = .buffered object := by
  cases step with
  | addNamespace => exact Or.inl (by simpa using stored)
  | removeNamespace => exact Or.inl (by simpa using stored)
  | close => exact absurd stored List.not_mem_nil
  | deliver => exact Or.inl (by simpa using stored)
  | buffer =>
    rcases NameIndex.mem_insert_iff.mp stored with rfl | ⟨earlier, -⟩
    · exact Or.inr rfl
    · exact Or.inl earlier
  | answer => exact Or.inl (NameIndex.mem_erase_iff.mp stored).1
  | _ => exact Or.inl stored

theorem entered_cases (step : before.Step event after) (wellFormed : before.pending.WellFormed)
    {entry : Entry Pending} (waits : entry ∈ after.pending.toList) :
    entry ∈ before.pending.toList ∨
      ∃ interest deadline, event = .registered interest ∧ entry = .interest interest ⟨before.nextSeq, deadline⟩ := by
  cases step with
  | addNamespace => exact Or.inl (by simpa using waits)
  | removeNamespace => exact Or.inl (by simpa using waits)
  | close => exact absurd waits List.not_mem_nil
  | expire => exact Or.inl ((Table.mem_filter_iff wellFormed).mp waits).1
  | deliver => exact Or.inl (Table.mem_of_mem_removeInterest wellFormed waits)
  | register =>
    rcases (Table.mem_addInterest_iff wellFormed).mp waits with earlier | same
    · exact Or.inl earlier
    · exact Or.inr ⟨_, _, rfl, same⟩
  | answer => exact Or.inl (by simpa using waits)
  | _ => exact Or.inl waits

theorem waits_cases (step : before.Step event after) (wellFormed : before.pending.WellFormed)
    {interest : Interest} {pending : Pending}
    (waits : Entry.interest interest pending ∈ after.pending.toList) :
    Entry.interest interest pending ∈ before.pending.toList ∨ event = .registered interest := by
  rcases step.entered_cases wellFormed waits with earlier | ⟨asked, deadline, registered, same⟩
  · exact Or.inl earlier
  · exact Or.inr ((Entry.interest.inj same).1 ▸ registered)

theorem consumed_cases (step : before.Step event after) (wellFormed : before.pending.WellFormed)
    {interest : Interest} {object : ContentObject} (consumed : event.consumed? = some (interest, object)) :
    (∃ pending, event = .delivered object ⟨interest, pending⟩ ∧
      Entry.interest interest pending ∈ before.pending.toList ∧ before.mayHave interest object = true) ∨
    event = .answered interest object ∧ before.bestBuffered? interest = some object := by
  cases step with
  | @deliver object candidate transport judged =>
    obtain ⟨rfl, rfl⟩ := Prod.mk.inj (Option.some.inj consumed)
    cases judged with
    | deliver weighed best =>
      obtain ⟨waits, allowed⟩ := waiting_of_bestPending? wellFormed best
      exact Or.inl ⟨candidate.pending, rfl, waits, allowed⟩
  | answer heeded best =>
    obtain ⟨rfl, rfl⟩ := Prod.mk.inj (Option.some.inj consumed)
    exact Or.inr ⟨rfl, best⟩
  | _ => exact absurd consumed (by simp [Event.consumed?])

theorem find?_of_advances (step : before.Step event after) (advances : event.Advances stream number) :
    after.marks.find? stream = some (before.advance stream number) := by
  obtain ⟨interest, object, consumed, named⟩ := advances
  have written : ∀ transport, (before.forward object transport).marks.find? stream
      = some (before.advance stream number) := by
    intro transport
    rw [find?_forward, Name.splitSegment?_eq_some_iff.mpr named]
    exact if_pos rfl
  cases step with
  | deliver =>
    obtain ⟨-, rfl⟩ := Prod.mk.inj (Option.some.inj consumed)
    exact written _
  | answer =>
    obtain ⟨-, rfl⟩ := Prod.mk.inj (Option.some.inj consumed)
    exact written _
  | _ => exact absurd consumed (by simp [Event.consumed?])

-- Nothing else writes it, but it may be forgotten.
theorem find?_cases (step : before.Step event after) (still : ∀ number, ¬ event.Advances stream number) :
    after.marks.find? stream = before.marks.find? stream ∨ after.marks.find? stream = none := by
  have passed : ∀ {interest object} (transport : τ), event.consumed? = some (interest, object) →
      (before.forward object transport).marks.find? stream = before.marks.find? stream := by
    intro interest object transport consumed
    rw [find?_forward]
    cases split : object.name.splitSegment? with
    | none => rfl
    | some parts =>
      refine if_neg fun same => still parts.2 ⟨interest, object, consumed, ?_⟩
      exact Name.splitSegment?_eq_some_iff.mp (same ▸ split)
  cases step with
  | addNamespace => exact Or.inl (by simp)
  | removeNamespace => exact find?_removeNamespace_cases _
  | close => exact Or.inr rfl
  | expire => exact find?_expire_cases _
  | deliver => exact Or.inl (passed _ rfl)
  | answer => exact Or.inl (passed _ rfl)
  | _ => exact Or.inl rfl

theorem lowWater?_of_advances (step : before.Step event after) (advances : event.Advances stream number) :
    after.lowWater? stream = some (before.advance stream number).segment :=
  congrArg (Option.map Mark.segment) (step.find?_of_advances advances)

theorem lowWater?_cases (step : before.Step event after) (stream : Name) :
    after.lowWater? stream = before.lowWater? stream ∨ after.lowWater? stream = none ∨
      ∃ number, event.Advances stream number := by
  by_cases moves : ∃ number, event.Advances stream number
  · exact Or.inr (Or.inr moves)
  · rcases step.find?_cases (not_exists.mp moves) with same | forgotten
    · exact Or.inl (congrArg (Option.map Mark.segment) same)
    · exact Or.inr (Or.inl (congrArg (Option.map Mark.segment) forgotten))

theorem disabled_of_bypassed {object : ContentObject} (step : before.Step (.bypassed object) after) :
    before.enabled = false := by
  cases step with
  | bypass judged =>
    cases judged with
    | bypass opened disabled => exact disabled

theorem name_ne_of_answered {interest : Interest} {object other : ContentObject}
    (step : before.Step (.answered interest object) after) (stored : other ∈ after.buffer.values) :
    other.name ≠ object.name := by
  cases step with
  | answer => exact (NameIndex.mem_erase_iff.mp stored).2

end Step

end NamedContent.Flow
