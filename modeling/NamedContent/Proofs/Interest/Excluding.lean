import Mathlib.Data.List.Sort
import NamedContent.Proofs.Table.Changes

/-! An exclude is a set.

However its components were named, it keeps each of them once and in ascending
order. So a search by halves finds a component or the gap where it belongs, and
excludes that skip the same are equal, as are the interests that carry them. -/

set_option autoImplicit false

namespace NamedContent

namespace Exclude

variable {component other : Component} {components others : List Component}

theorem isEmpty_iff {exclude : Exclude} : exclude.isEmpty = true ↔ exclude = empty := by
  obtain ⟨through, components⟩ := exclude
  simp [isEmpty, empty]

theorem mem_insertAscending_iff :
    other ∈ insertAscending component components ↔ other = component ∨ other ∈ components := by
  induction components with
  | nil => simp [insertAscending]
  | cons first rest ih =>
    simp only [insertAscending]
    split
    · exact List.mem_cons
    · split
      · rename_i same
        subst same
        simp
      · simp only [List.mem_cons, ih]
        exact or_left_comm

theorem ascending_insertAscending (ascending : components.Pairwise (· < ·)) :
    (insertAscending component components).Pairwise (· < ·) := by
  induction components with
  | nil => simp [insertAscending]
  | cons first rest ih =>
    obtain ⟨below, rest_ascending⟩ := List.pairwise_cons.mp ascending
    simp only [insertAscending]
    split
    · rename_i before
      refine List.pairwise_cons.mpr ⟨?_, ascending⟩
      intro later member
      rcases List.mem_cons.mp member with rfl | member
      · exact before
      · exact Std.lt_trans before (below later member)
    · split
      · exact ascending
      · rename_i notBefore distinct
        refine List.pairwise_cons.mpr ⟨?_, ih rest_ascending⟩
        intro later member
        rcases mem_insertAscending_iff.mp member with rfl | member
        · exact Std.lt_of_le_of_ne (Std.not_lt.mp notBefore) (Ne.symm distinct)
        · exact below later member

/-! The members of an ascending list determine it, so what an insertion makes is
known as soon as a list with the right members is found to be ascending. -/

theorem insertAscending_of_mem (ascending : components.Pairwise (· < ·)) (member : component ∈ components) :
    insertAscending component components = components := by
  refine (ascending_insertAscending ascending).eq_of_mem_iff ascending fun other => ?_
  rw [mem_insertAscending_iff, or_iff_right_of_imp]
  rintro rfl
  exact member

theorem insertAscending_between {before later : List Component} (ascending : (before ++ later).Pairwise (· < ·))
    (below : ∀ other ∈ before, other < component) (above : ∀ other ∈ later, component < other) :
    insertAscending component (before ++ later) = before ++ component :: later := by
  obtain ⟨before_ascending, later_ascending, across⟩ := List.pairwise_append.mp ascending
  refine (ascending_insertAscending ascending).eq_of_mem_iff ?_ fun other => ?_
  · refine List.pairwise_append.mpr ⟨before_ascending, List.pairwise_cons.mpr ⟨above, later_ascending⟩, ?_⟩
    intro low early high late
    rcases List.mem_cons.mp late with rfl | late
    · exact below low early
    · exact across low early high late
  · rw [mem_insertAscending_iff, List.mem_append, List.mem_append, List.mem_cons]
    exact or_left_comm

section Search

/-- What a search of an ascending list for a component finds. -/
inductive Site where
  | held (place : Nat)
  | gap (place : Nat)
  deriving DecidableEq, Repr

namespace Site

variable {site : Site}

def isHeld : Site → Bool
  | .held _ => true
  | .gap _ => false

def fill (component : Component) (components : List Component) : Site → List Component
  | .held _ => components
  | .gap place => components.insertIdx place component

def behind (count : Nat) : Site → Site
  | .held place => .held (count + place)
  | .gap place => .gap (count + place)

def Suits (component : Component) (components : List Component) : Site → Prop
  | .held place => ∃ before later, components = before ++ component :: later ∧ before.length = place
  | .gap place => ∃ before later, components = before ++ later ∧ before.length = place ∧
      (∀ other ∈ before, other < component) ∧ ∀ other ∈ later, component < other

theorem Suits.append (suits : site.Suits component components) (above : ∀ other ∈ others, component < other) :
    site.Suits component (components ++ others) := by
  cases site with
  | held place =>
    obtain ⟨before, later, rfl, width⟩ := suits
    exact ⟨before, later ++ others, by simp, width⟩
  | gap place =>
    obtain ⟨before, later, rfl, width, below, beyond⟩ := suits
    exact ⟨before, later ++ others, by simp, width, below, List.forall_mem_append.mpr ⟨beyond, above⟩⟩

theorem Suits.behind (suits : site.Suits component components) (below : ∀ other ∈ others, other < component) :
    (site.behind others.length).Suits component (others ++ components) := by
  cases site with
  | held place =>
    obtain ⟨before, later, rfl, rfl⟩ := suits
    exact ⟨others ++ before, later, by simp, by simp⟩
  | gap place =>
    obtain ⟨before, later, rfl, rfl, nearer, above⟩ := suits
    exact ⟨others ++ before, later, by simp, by simp, List.forall_mem_append.mpr ⟨below, nearer⟩, above⟩

theorem Suits.isHeld_iff (suits : site.Suits component components) : site.isHeld = true ↔ component ∈ components := by
  cases site with
  | held place =>
    obtain ⟨before, later, rfl, -⟩ := suits
    simp [isHeld]
  | gap place =>
    obtain ⟨before, later, rfl, -, below, above⟩ := suits
    have absent : component ∉ before ++ later := by
      intro member
      rcases List.mem_append.mp member with early | late
      · exact Std.lt_irrefl (below component early)
      · exact Std.lt_irrefl (above component late)
    simp [isHeld, absent]

theorem insertIdx_length_append (before later : List Component) (component : Component) :
    (before ++ later).insertIdx before.length component = before ++ component :: later := by
  induction before with
  | nil => rfl
  | cons first rest ih => simp [ih]

theorem Suits.fill_eq (suits : site.Suits component components) (ascending : components.Pairwise (· < ·)) :
    site.fill component components = insertAscending component components := by
  cases site with
  | held place =>
    obtain ⟨before, later, rfl, -⟩ := suits
    exact (insertAscending_of_mem ascending (by simp)).symm
  | gap place =>
    obtain ⟨before, later, rfl, rfl, below, above⟩ := suits
    rw [insertAscending_between ascending below above, fill, insertIdx_length_append]

end Site

/-- Searches an ascending list by halves: the component in the middle tells in which
half to go on. -/
def search (component : Component) (components : List Component) : Site :=
  match cut : components.drop (components.length / 2) with
  | [] => .gap 0
  | middle :: later =>
    if component < middle then search component (components.take (components.length / 2))
    else if component = middle then .held (components.length / 2)
    else (search component later).behind (components.length / 2 + 1)
termination_by components.length
decreasing_by
  all_goals
    have width := congrArg List.length cut
    simp only [List.length_drop, List.length_cons, List.length_take] at width ⊢
    omega

theorem suits_search (component : Component) (ascending : components.Pairwise (· < ·)) :
    (search component components).Suits component components := by
  fun_induction search component components with
  | case1 components cut =>
    -- Only an empty list has no middle.
    have width := congrArg List.length cut
    rw [List.length_drop, List.length_nil] at width
    obtain rfl : components = [] := List.length_eq_zero_iff.mp (by omega)
    exact ⟨[], [], rfl, rfl, by simp, by simp⟩
  | case2 components middle later cut less ih =>
    have whole := cut ▸ List.take_append_drop (components.length / 2) components
    obtain ⟨front, back, -⟩ := List.pairwise_append.mp (by rwa [whole])
    -- What is in the middle or behind it lies above the component, so the front decides.
    have above : ∀ other ∈ middle :: later, component < other :=
      List.forall_mem_cons.mpr ⟨less, fun other member =>
        Std.lt_trans less ((List.pairwise_cons.mp back).1 other member)⟩
    have suits := (ih front).append above
    rwa [whole] at suits
  | case3 components later cut irrefl =>
    have whole := cut ▸ List.take_append_drop (components.length / 2) components
    exact ⟨_, later, whole.symm, List.length_take_of_le (Nat.div_le_self _ _)⟩
  | case4 components middle later cut notBefore distinct ih =>
    have whole := cut ▸ List.take_append_drop (components.length / 2) components
    obtain ⟨-, back, across⟩ := List.pairwise_append.mp (by rwa [whole])
    have above : middle < component := Std.lt_of_le_of_ne (Std.not_lt.mp notBefore) (Ne.symm distinct)
    -- And here all up to the middle lies below it.
    have below : ∀ other ∈ components.take (components.length / 2) ++ [middle], other < component := by
      refine List.forall_mem_append.mpr ⟨fun other member => ?_, List.forall_mem_singleton.mpr above⟩
      exact Std.lt_trans (across other member middle List.mem_cons_self) above
    have suits := (ih (List.pairwise_cons.mp back).2).behind below
    rwa [List.append_assoc, List.singleton_append, whole, List.length_append,
      List.length_take_of_le (Nat.div_le_self _ _)] at suits

end Search

section Made

variable {bound limit : Option Component}

def made (bound : Option Component) (components : List Component) : Exclude :=
  components.foldl excluding (bound.elim empty upTo)

theorem made_concat (bound : Option Component) (components : List Component) (component : Component) :
    made bound (components ++ [component]) = (made bound components).excluding component := by
  simp [made]

@[simp] theorem through_made (bound : Option Component) (components : List Component) :
    (made bound components).through = bound := by
  induction components using List.reverseRecOn with
  | nil => cases bound <;> rfl
  | append_singleton components component ih => rw [made_concat, excluding, ih]

@[simp] theorem mem_made_iff : component ∈ (made bound components).components ↔ component ∈ components := by
  induction components using List.reverseRecOn with
  | nil => cases bound <;> simp [made, empty, upTo]
  | append_singleton components last ih =>
    rw [made_concat, excluding, mem_insertAscending_iff, ih, List.mem_append, List.mem_singleton, or_comm]

theorem ascending_made (bound : Option Component) (components : List Component) :
    (made bound components).components.Pairwise (· < ·) := by
  induction components using List.reverseRecOn with
  | nil => cases bound <;> exact List.Pairwise.nil
  | append_singleton components component ih =>
    rw [made_concat]
    exact ascending_insertAscending ih

theorem contains_made_iff :
    (made bound components).contains component = true ↔
      (∃ last ∈ bound, component ≤ last) ∨ component ∈ components := by
  simp [contains, Option.any_eq_true]

theorem contains_made_eq (component : Component) :
    (made bound components).contains component
      = (bound.any (component ≤ ·) || (search component (made bound components).components).isHeld) := by
  have found := (suits_search component (ascending_made bound components)).isHeld_iff
  rw [Bool.eq_iff_iff, contains, through_made, Bool.or_eq_true, Bool.or_eq_true, List.contains_iff_mem, found]

theorem made_eq_iff :
    made bound components = made limit others ↔
      bound = limit ∧ ∀ component, component ∈ components ↔ component ∈ others := by
  constructor
  · intro same
    have bounds := congrArg through same
    rw [through_made, through_made] at bounds
    refine ⟨bounds, fun component => ?_⟩
    have members : component ∈ (made bound components).components ↔ component ∈ (made limit others).components := by
      rw [same]
    rwa [mem_made_iff, mem_made_iff] at members
  · rintro ⟨rfl, same⟩
    have singles : (made bound components).components = (made bound others).components := by
      refine (ascending_made bound components).eq_of_mem_iff (ascending_made bound others) fun component => ?_
      rw [mem_made_iff, mem_made_iff, same]
    have bounds := (through_made bound components).trans (through_made bound others).symm
    exact congrArg₂ mk bounds singles

end Made

end Exclude

namespace Interest

-- No other exclude than the one that skips nothing counts as none.
theorem withExclude_inj {interest : Interest} {first second : Exclude} :
    interest.withExclude first = interest.withExclude second ↔ first = second := by
  constructor
  · intro same
    have kept : (if first.isEmpty then none else some first) = if second.isEmpty then none else some second :=
      congrArg exclude same
    split at kept <;> split at kept
    · rename_i nothing nothingElse
      rw [Exclude.isEmpty_iff.mp nothing, Exclude.isEmpty_iff.mp nothingElse]
    · exact absurd kept (by simp)
    · exact absurd kept (by simp)
    · exact Option.some.inj kept
  · exact congrArg _

end Interest

namespace Exclude

variable {V : Type} [DecidableEq V]

/-- An exclude is the set of what it skips. It contains what its bound reaches and the
components it was made of, which it keeps strictly ascending, so that a search by
halves decides whether one is among them and where another one goes. Two of them
are equal exactly if their bounds are and they were made of the same components, in
whatever order and however often. That decides as well whether two interests that
differ in nothing else are equal, and whether a table that got one of them lets it be
removed as the other, unless the table had held that one before. -/
theorem made_excludes_are_canonical (bound limit : Option Component) (components others : List Component) :
    let exclude := made bound components
    let second := made limit others
    let Same := bound = limit ∧ ∀ component, component ∈ components ↔ component ∈ others
    exclude.through = bound ∧ exclude.components.Pairwise (· < ·) ∧
    (∀ component, exclude.contains component = true ↔
      (∃ last ∈ bound, component ≤ last) ∨ component ∈ components) ∧
    (∀ component,
      let site := search component exclude.components
      exclude.contains component = (bound.any (component ≤ ·) || site.isHeld) ∧
        (exclude.excluding component).components = site.fill component exclude.components) ∧
    (exclude = second ↔ Same) ∧
    (∀ interest : Interest, interest.withExclude exclude = interest.withExclude second ↔ Same) ∧
    (∀ (changes : List (Change V)) (interest : Interest) (value : V),
      let table := Table.made changes
      let sought : Entry V := .interest (interest.withExclude second) value
      ((table.addInterest (interest.withExclude exclude) value).removeInterest (interest.withExclude second) value).1
          = some sought ↔ Same ∨ sought ∈ table.toList) := by
  intro exclude second Same
  have ascending : exclude.components.Pairwise (· < ·) := ascending_made bound components
  have equal (interest : Interest) : interest.withExclude exclude = interest.withExclude second ↔ Same :=
    Interest.withExclude_inj.trans made_eq_iff
  refine ⟨through_made bound components, ascending, fun _ => contains_made_iff, fun component => ?_, made_eq_iff,
    equal, fun changes interest value => ?_⟩
  · exact ⟨contains_made_eq component, ((suits_search component ascending).fill_eq ascending).symm⟩
  · intro table sought
    have wellFormed : table.WellFormed := (Table.canonical_made changes).toWellFormed
    have added : sought = .interest (interest.withExclude exclude) value ↔ Same := by
      rw [← equal interest, Entry.interest.injEq, and_iff_left rfl]
      exact eq_comm
    refine (Table.removeInterest_eq_some_iff (wellFormed.add _)).trans ((Table.mem_addInterest_iff wellFormed).trans ?_)
    rw [added]
    exact or_comm

-- The empty component is the least one, and a component comes before those it begins.
example : (made none [⟨[0x62]⟩, ⟨[0x61, 0x62]⟩, ⟨[]⟩, ⟨[0x61]⟩, ⟨[0x62]⟩]).components =
    [⟨[]⟩, ⟨[0x61]⟩, ⟨[0x61, 0x62]⟩, ⟨[0x62]⟩] := by decide

end Exclude

end NamedContent
