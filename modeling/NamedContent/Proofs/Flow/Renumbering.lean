import Mathlib.Data.Set.Insert
import Mathlib.Logic.Function.Basic
import NamedContent.Flow.Expiry
import NamedContent.Proofs.Flow.Selection
import NamedContent.Proofs.Table.Changes

/-! Interests under other numbers.

A table of interests may hold what another one holds under a name and nothing
else. It numbers the interests differently then, but in the same order. -/

set_option autoImplicit false

namespace NamedContent

theorem eraseP_map_of_agree {α β : Type} {values : List α} {change : α → β} {test : α → Bool} {choose : β → Bool}
    (agree : ∀ value ∈ values, choose (change value) = test value) :
    (values.map change).eraseP choose = (values.eraseP test).map change := by
  induction values with
  | nil => rfl
  | cons first rest ih =>
    obtain ⟨here, later⟩ := List.forall_mem_cons.mp agree
    rw [List.map_cons, List.eraseP_cons, List.eraseP_cons, here, ih later]
    cases test first <;> rfl

/-! Other numbers for the same interests. -/

def Entry.map {V W : Type} (change : V → W) : Entry V → Entry W
  | .bare name value => .bare name (change value)
  | .interest asked value => .interest asked (change value)

section Map
variable {V W : Type} (change : V → W) (entry : Entry V)

@[simp] theorem Entry.value_map : (entry.map change).value = change entry.value := by cases entry <;> rfl

@[simp] theorem Entry.interest?_map : (entry.map change).interest? = entry.interest? := by cases entry <;> rfl

@[simp] theorem Entry.matchesTarget_map (target : Target) :
    (entry.map change).matchesTarget target = entry.matchesTarget target := by
  simp [matchesTarget]

end Map

def Pending.renumber (rank : Nat → Nat) (pending : Pending) : Pending := { pending with seq := rank pending.seq }

def Candidate.renumber (rank : Nat → Nat) (candidate : Candidate) : Candidate :=
  { candidate with pending := candidate.pending.renumber rank }

theorem Entry.candidate?_renumber (rank : Nat → Nat) (entry : Entry Pending) :
    (entry.map (Pending.renumber rank)).candidate? = entry.candidate?.map (Candidate.renumber rank) := by
  cases entry <;> rfl

-- Which of two candidates is better depends on the order of their numbers only.
theorem Candidate.yieldsTo_renumber {rank : Nat → Nat} {first second : Candidate}
    (order : rank second.pending.seq ≤ rank first.pending.seq ↔ second.pending.seq ≤ first.pending.seq) :
    (first.renumber rank).yieldsTo (second.renumber rank) = first.yieldsTo second := by
  rw [Bool.eq_iff_iff, yieldsTo_iff, yieldsTo_iff]
  exact or_congr_right (and_congr_right fun _ => or_congr_right (and_congr_right fun _ => order))

/-- Numbers below one bound have ranks below another, in the same order. -/
structure Ranks (rank : Nat → Nat) (numbers : Set Nat) (next following : Nat) : Prop where
  below : ∀ number ∈ numbers, number < next ∧ rank number < following
  order : ∀ first ∈ numbers, ∀ second ∈ numbers, (rank first ≤ rank second ↔ first ≤ second)

namespace Ranks

variable {rank : Nat → Nat} {numbers : Set Nat} {next following : Nat}

theorem injective (ranks : Ranks rank numbers next following) {first second : Nat} (firstIn : first ∈ numbers)
    (secondIn : second ∈ numbers) (same : rank first = rank second) : first = second :=
  Nat.le_antisymm ((ranks.order _ firstIn _ secondIn).mp (Nat.le_of_eq same))
    ((ranks.order _ secondIn _ firstIn).mp (Nat.le_of_eq same.symm))

theorem mono (ranks : Ranks rank numbers next following) {fewer : Set Nat} {beyond : Nat} (subset : fewer ⊆ numbers)
    (bound : next ≤ beyond) : Ranks rank fewer beyond following where
  below := fun number listed =>
    ⟨Nat.lt_of_lt_of_le (ranks.below number (subset listed)).1 bound, (ranks.below number (subset listed)).2⟩
  order := fun first firstIn second secondIn => ranks.order first (subset firstIn) second (subset secondIn)

theorem extend (ranks : Ranks rank numbers next following) :
    Ranks (Function.update rank next following) (insert next numbers) (next + 1) (following + 1) := by
  have kept : ∀ number ∈ numbers, Function.update rank next following number = rank number :=
    fun number listed => Function.update_of_ne (Nat.ne_of_lt (ranks.below number listed).1) _ _
  refine ⟨?_, ?_⟩
  · rintro number (rfl | listed)
    · simp
    · rw [kept number listed]
      have bounds := ranks.below number listed
      omega
  · rintro first (rfl | firstIn) second (rfl | secondIn)
    · simp
    · rw [kept second secondIn, Function.update_self]
      have bounds := ranks.below second secondIn
      omega
    · rw [kept first firstIn, Function.update_self]
      have bounds := ranks.below first firstIn
      omega
    · rw [kept first firstIn, kept second secondIn]
      exact ranks.order first firstIn second secondIn

theorem renumber_inj (ranks : Ranks rank numbers next following) {first second : Pending}
    (firstIn : first.seq ∈ numbers) (secondIn : second.seq ∈ numbers) :
    first.renumber rank = second.renumber rank ↔ first = second := by
  refine ⟨fun same => ?_, congrArg _⟩
  obtain ⟨numbered, timed⟩ := Pending.mk.inj same
  have alike := ranks.injective firstIn secondIn numbered
  cases first
  cases second
  exact congrArg₂ Pending.mk alike timed

end Ranks

/-! The interests that wait. -/

def Table.numbersUnder (table : Table Pending) (side : Name) : Set Nat :=
  {number | ∃ entry ∈ table.toList, side.isPrefixOf entry.name = true ∧ entry.value.seq = number}

section Numbers
variable {table fewer : Table Pending} {side : Name} {interest : Interest} {pending : Pending}

theorem Table.numbersUnder_mono (subset : ∀ entry ∈ fewer.toList, entry ∈ table.toList) :
    fewer.numbersUnder side ⊆ table.numbersUnder side :=
  fun _ ⟨entry, waits, begins, numbered⟩ => ⟨entry, subset entry waits, begins, numbered⟩

theorem Table.numbersUnder_addInterest (wellFormed : table.WellFormed) :
    (table.addInterest interest pending).numbersUnder side ⊆ insert pending.seq (table.numbersUnder side) := by
  rintro number ⟨entry, waits, begins, rfl⟩
  rcases (mem_addInterest_iff wellFormed).mp waits with earlier | rfl
  · exact Or.inr ⟨entry, earlier, begins, rfl⟩
  · exact Or.inl rfl

theorem Table.numbersUnder_addInterest_of_outside (wellFormed : table.WellFormed)
    (outside : side.isPrefixOf interest.name = false) :
    (table.addInterest interest pending).numbersUnder side ⊆ table.numbersUnder side := by
  rintro number ⟨entry, waits, begins, rfl⟩
  rcases (mem_addInterest_iff wellFormed).mp waits with earlier | rfl
  · exact ⟨entry, earlier, begins, rfl⟩
  · exact absurd (outside.symm.trans begins) (by simp)

end Numbers

/-- All entries of a table lie under one of two names, and another table has
those that do not lie under the second, with ranks for numbers. -/
structure Tracks (side other : Name) (rank : Nat → Nat) (whole part : Table Pending) : Prop where
  canonical : whole.Canonical
  partCanonical : part.Canonical
  lies : ∀ entry ∈ whole.toList, side.isPrefixOf entry.name = true ∨ other.isPrefixOf entry.name = true
  entries : ∀ path, ¬ other.components <+: path →
    part.entriesAt path = (whole.entriesAt path).map (Entry.map (Pending.renumber rank))

namespace Tracks

variable {side other : Name} {rank : Nat → Nat} {whole part : Table Pending}

section Matches
variable {target : Target}

theorem allMatches_eq (tracks : Tracks side other rank whole part) (apart : side.touches other = false)
    (begins : side.components <+: target.path) :
    part.allMatches target = (whole.allMatches target).map (Entry.map (Pending.renumber rank)) := by
  rw [Table.allMatches, Table.allMatches, Table.flatMap_along rfl, Table.flatMap_along rfl, List.map_flatMap]
  refine List.flatMap_congr fun beginning listed => ?_
  have aside : ¬ other.components <+: beginning :=
    fun across => Name.not_prefix_of_apart apart begins (across.trans ((List.mem_inits _ _).mp listed))
  rw [tracks.entries beginning aside, List.filter_map]
  exact congrArg _ (List.filter_congr fun entry _ => Entry.matchesTarget_map _ entry target)

theorem lies_of_mem_allMatches (tracks : Tracks side other rank whole part) (apart : side.touches other = false)
    (begins : side.components <+: target.path) {entry : Entry Pending} (found : entry ∈ whole.allMatches target) :
    side.isPrefixOf entry.name = true := by
  obtain ⟨waits, matched⟩ := (Table.mem_allMatches_iff tracks.canonical.toWellFormed).mp found
  refine (tracks.lies entry waits).resolve_right fun across => ?_
  exact Name.not_prefix_of_apart apart begins
    ((Name.isPrefixOf_iff.mp across).trans (Entry.prefix_path_of_matchesTarget matched))

end Matches

-- Lifetimes do not depend on numbers.
theorem filter (tracks : Tracks side other rank whole part) (now : Timestamp) :
    Tracks side other rank (whole.filter (·.value.isLive now)) (part.filter (·.value.isLive now)) where
  canonical := tracks.canonical.retain _ _
  partCanonical := tracks.partCanonical.retain _ _
  lies := fun entry waits => tracks.lies entry ((Table.mem_filter_iff tracks.canonical.toWellFormed).mp waits).1
  entries := by
    intro path aside
    rw [Table.entriesAt_filter tracks.canonical.ordered, Table.entriesAt_filter tracks.partCanonical.ordered,
      tracks.entries path aside, List.filter_map]
    refine congrArg _ (List.filter_congr fun entry _ => ?_)
    rw [Function.comp_apply, Entry.value_map]
    rfl

-- An interest on the other side leaves no trace.
theorem add_other (tracks : Tracks side other rank whole part) {interest : Interest}
    (asks : other.isPrefixOf interest.name = true) (pending : Pending) :
    Tracks side other rank (whole.addInterest interest pending) part where
  canonical := tracks.canonical.add _
  partCanonical := tracks.partCanonical
  lies := by
    intro entry waits
    rcases (Table.mem_addInterest_iff tracks.canonical.toWellFormed).mp waits with earlier | rfl
    · exact tracks.lies entry earlier
    · exact Or.inr asks
  entries := by
    intro path aside
    have elsewhere : path ≠ interest.name.components := by
      rintro rfl
      exact aside (Name.isPrefixOf_iff.mp asks)
    rw [Table.addInterest, Table.entriesAt_add tracks.canonical.ordered]
    exact (tracks.entries path aside).trans (congrArg _ (if_neg elsewhere).symm)

theorem remove_other (tracks : Tracks side other rank whole part) {interest : Interest}
    (asks : other.isPrefixOf interest.name = true) (pending : Pending) :
    Tracks side other rank (whole.removeInterest interest pending).2 part where
  canonical := tracks.canonical.extract (Table.parts_selectFirst _) _
  partCanonical := tracks.partCanonical
  lies := fun entry left =>
    tracks.lies entry (Table.mem_of_mem_removeInterest tracks.canonical.toWellFormed left)
  entries := by
    intro path aside
    have elsewhere : path ≠ interest.name.components := by
      rintro rfl
      exact aside (Name.isPrefixOf_iff.mp asks)
    rw [Table.removeInterest, Table.entriesAt_extract tracks.canonical.ordered]
    exact (tracks.entries path aside).trans (congrArg _ (if_neg elsewhere).symm)

theorem add (tracks : Tracks side other rank whole part) {interest : Interest}
    (asks : side.isPrefixOf interest.name = true) (pending : Pending) :
    Tracks side other rank (whole.addInterest interest pending)
      (part.addInterest interest (pending.renumber rank)) where
  canonical := tracks.canonical.add _
  partCanonical := tracks.partCanonical.add _
  lies := by
    intro entry waits
    rcases (Table.mem_addInterest_iff tracks.canonical.toWellFormed).mp waits with earlier | rfl
    · exact tracks.lies entry earlier
    · exact Or.inl asks
  entries := by
    intro path aside
    rw [Table.addInterest, Table.addInterest, Table.entriesAt_add tracks.canonical.ordered,
      Table.entriesAt_add tracks.partCanonical.ordered, tracks.entries path aside]
    change (if path = interest.name.components then _ else _)
      = List.map _ (if path = interest.name.components then _ else _)
    split
    · rw [List.map_append]
      rfl
    · rfl

theorem number_mem (tracks : Tracks side other rank whole part) {path : List Component} {entry : Entry Pending}
    (aside : ¬ other.components <+: path) (found : entry ∈ whole.entriesAt path) :
    entry.value.seq ∈ whole.numbersUnder side := by
  have filed := tracks.canonical.filed found
  have waits := (Table.mem_toList_iff tracks.canonical.toWellFormed).mpr (filed.symm ▸ found)
  refine ⟨entry, waits, (tracks.lies entry waits).resolve_right fun begins => aside ?_, rfl⟩
  exact filed ▸ Name.isPrefixOf_iff.mp begins

theorem congr (tracks : Tracks side other rank whole part) {changed : Nat → Nat}
    (agree : ∀ number ∈ whole.numbersUnder side, changed number = rank number) :
    Tracks side other changed whole part where
  canonical := tracks.canonical
  partCanonical := tracks.partCanonical
  lies := tracks.lies
  entries := by
    intro path aside
    rw [tracks.entries path aside]
    refine List.map_congr_left fun entry found => ?_
    have same := agree _ (tracks.number_mem aside found)
    cases entry with
    | bare name pending => exact congrArg (fun seq => Entry.bare name { pending with seq }) same.symm
    | interest asked pending => exact congrArg (fun seq => Entry.interest asked { pending with seq }) same.symm

theorem remove (tracks : Tracks side other rank whole part) {next following : Nat}
    (ranks : Ranks rank (whole.numbersUnder side) next following) {interest : Interest} {pending : Pending}
    (asks : side.isPrefixOf interest.name = true) (waits : Entry.interest interest pending ∈ whole.toList) :
    Tracks side other rank (whole.removeInterest interest pending).2
      (part.removeInterest interest (pending.renumber rank)).2 where
  canonical := tracks.canonical.extract (Table.parts_selectFirst _) _
  partCanonical := tracks.partCanonical.extract (Table.parts_selectFirst _) _
  lies := fun entry left =>
    tracks.lies entry (Table.mem_of_mem_removeInterest tracks.canonical.toWellFormed left)
  entries := by
    intro path aside
    rw [Table.removeInterest, Table.removeInterest, Table.entriesAt_extract tracks.canonical.ordered,
      Table.entriesAt_extract tracks.partCanonical.ordered]
    by_cases here : path = interest.name.components
    · subst here
      rw [if_pos rfl, if_pos rfl, Table.selectFirst, Table.selectFirst, tracks.entries _ aside]
      refine eraseP_map_of_agree fun entry found => ?_
      have known : pending.seq ∈ whole.numbersUnder side := ⟨_, waits, asks, rfl⟩
      have same : (entry.value.renumber rank == pending.renumber rank) = (entry.value == pending) := by
        rw [Bool.eq_iff_iff, beq_iff_eq, beq_iff_eq]
        exact ranks.renumber_inj (tracks.number_mem aside found) known
      rw [Entry.interest?_map, Entry.value_map, same]
    · rw [if_neg here, if_neg here]
      exact tracks.entries path aside

end Tracks

end NamedContent
