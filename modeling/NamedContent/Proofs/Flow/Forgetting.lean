import NamedContent.Proofs.Flow.Stores
import NamedContent.Proofs.Table.Changes

/-! Forgetting by age, once and again.

What is forgotten at one time is forgotten at every later time, as long as the
buffer stays. So a flow that forgets late is the same as one that has forgotten
before, and it makes no difference when it did. -/

set_option autoImplicit false

namespace NamedContent

namespace Timestamp

theorem le_iff {first second : Timestamp} : first ≤ second ↔ first.ms.toNat ≤ second.ms.toNat := UInt64.le_iff_toNat_le

theorem le_trans {first second third : Timestamp} (before : first ≤ second) (after : second ≤ third) : first ≤ third :=
  UInt64.le_trans before after

theorem le_antisymm {first second : Timestamp} (below : first ≤ second) (above : second ≤ first) : first = second := by
  obtain ⟨ms⟩ := first
  exact congrArg mk (UInt64.le_antisymm below above)

theorem le_refl (time : Timestamp) : time ≤ time := UInt64.le_refl _

theorem zero_le (time : Timestamp) : zero ≤ time := le_iff.mpr (Nat.zero_le _)

theorem latest_le_iff {first second time : Timestamp} : first.latest second ≤ time ↔ first ≤ time ∧ second ≤ time := by
  rw [latest]
  split
  · rename_i order
    exact ⟨fun below => ⟨le_trans order below, below⟩, And.right⟩
  · rename_i order
    refine ⟨fun below => ⟨below, ?_⟩, And.left⟩
    rw [le_iff] at *
    omega

theorem left_le_latest (first second : Timestamp) : first ≤ first.latest second := (latest_le_iff.mp (le_refl _)).1

theorem right_le_latest (first second : Timestamp) : second ≤ first.latest second := (latest_le_iff.mp (le_refl _)).2

theorem latest_eq_left {first second : Timestamp} (order : second ≤ first) : first.latest second = first :=
  le_antisymm (latest_le_iff.mpr ⟨le_refl _, order⟩) (left_le_latest _ _)

theorem latest_cases (first second : Timestamp) : first.latest second = first ∨ first.latest second = second := by
  rw [latest]
  split
  · exact Or.inr rfl
  · exact Or.inl rfl

theorem latest_latest (start : Timestamp) {earlier later : Timestamp} (order : earlier ≤ later) :
    (start.latest earlier).latest later = start.latest later := by
  by_cases passed : start ≤ earlier
  · have ahead : start ≤ later := le_trans passed order
    simp [latest, passed, order, ahead]
  · simp [latest, passed]

end Timestamp

section Ages
variable {earlier later : Timestamp}

theorem Pending.isLive_of_le {pending : Pending} (order : earlier ≤ later) (live : pending.isLive later = true) :
    pending.isLive earlier = true := by
  obtain ⟨seq, _ | deadline⟩ := pending
  · rfl
  · have ahead : later < deadline := by simpa [isLive] using live
    have sooner : earlier < deadline := UInt64.lt_of_le_of_lt order ahead
    simpa [isLive] using sooner

theorem Mark.isFresh_iff {mark : Mark} {now : Timestamp} {idle : UInt64} :
    mark.isFresh now idle = true ↔ (mark.touched ≤ now → now.ms.toNat - mark.touched.ms.toNat < idle.toNat) := by
  by_cases passed : mark.touched ≤ now
  · have age : (now.ms - mark.touched.ms).toNat = now.ms.toNat - mark.touched.ms.toNat :=
      UInt64.toNat_sub_of_le _ _ passed
    simp [isFresh, Timestamp.since?, passed, UInt64.lt_iff_toNat_lt, age]
  · simp [isFresh, Timestamp.since?, passed]

theorem Mark.isFresh_of_le {mark : Mark} {idle : UInt64} (order : earlier ≤ later)
    (fresh : mark.isFresh later idle = true) : mark.isFresh earlier idle = true := by
  rw [isFresh_iff] at *
  intro passed
  have young := fresh (Timestamp.le_trans passed order)
  rw [Timestamp.le_iff] at order
  omega

end Ages

namespace Flow

variable {τ : Type} {flow : Flow τ} {earlier later : Timestamp}

theorem expire_expire (canonical : flow.pending.Canonical) (order : earlier ≤ later) :
    (flow.expire earlier).expire later = flow.expire later := by
  have waiting : (flow.pending.filter (·.value.isLive earlier)).filter (·.value.isLive later)
      = flow.pending.filter (·.value.isLive later) :=
    canonical.filter_filter fun _ => Pending.isLive_of_le order
  have times := flow.now.latest_latest order
  unfold expire
  simp only
  rw [waiting, times]
  split
  · rename_i lifetime _
    congr 1
    apply NameIndex.filter_filter
    intro mark kept
    rw [Bool.or_eq_true] at kept ⊢
    exact kept.imp (Mark.isFresh_of_le order) id
  · rfl

variable [Transport τ] {before after : Flow τ} {event : Event}

theorem Step.canonical (step : before.Step event after) (held : before.pending.Canonical) :
    after.pending.Canonical := by
  cases step with
  | addNamespace => simpa using held
  | removeNamespace => simpa using held
  | close => exact .empty
  | expire => exact held.retain _ _
  | deliver => exact held.extract (Table.parts_selectFirst _) _
  | register => exact held.add _
  | answer => simpa using held
  | _ => exact held

theorem Trail.canonical {start final : Flow τ} {moments : List (Moment τ)} (trail : Trail start moments final)
    (held : start.pending.Canonical) : final.pending.Canonical :=
  trail.keeps (·.pending.Canonical) held Step.canonical

theorem canonical_handle (canonical : flow.pending.Canonical) (request : Request) :
    (flow.handle request).2.pending.Canonical :=
  (flow.trail_moments request).canonical canonical

end Flow

end NamedContent
