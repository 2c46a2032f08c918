import NamedContent.NameIndex.Basic
import NamedContent.Proofs.Name.Prefix

/-! A collection through its members.

A name finds the one member that carries it, an insertion replaces that member,
and the scan that starts at a name finds every member under it. The members
alone make the collection, and each of them is in it once. -/

set_option autoImplicit false

namespace NamedContent

variable {β : Type} {key : β → Name}

theorem Ascending.eq_of_key_eq {values : List β} (ascending : Ascending key values) {first second : β}
    (first_mem : first ∈ values) (second_mem : second ∈ values) (same : key first = key second) :
    first = second := by
  induction values with
  | nil => exact absurd first_mem List.not_mem_nil
  | cons head rest ih =>
    obtain ⟨below, rest_ascending⟩ := List.pairwise_cons.mp ascending
    rcases List.mem_cons.mp first_mem with rfl | first_later
    · rcases List.mem_cons.mp second_mem with rfl | second_later
      · rfl
      · exact absurd (same ▸ below second second_later) Std.lt_irrefl
    · rcases List.mem_cons.mp second_mem with rfl | second_later
      · exact absurd (same ▸ below first first_later) Std.lt_irrefl
      · exact ih rest_ascending first_later second_later

theorem Ascending.nodup {values : List β} (ascending : Ascending key values) : values.Nodup := by
  refine List.Pairwise.imp ?_ ascending
  rintro value _ less rfl
  exact Std.lt_irrefl less

theorem Ascending.eq_of_mem_iff {first second : List β} (first_ascending : Ascending key first)
    (second_ascending : Ascending key second) (same : ∀ value, value ∈ first ↔ value ∈ second) :
    first = second := by
  have shuffled := (List.perm_ext_iff_of_nodup first_ascending.nodup second_ascending.nodup).mpr same
  refine shuffled.eq_of_pairwise ?_ first_ascending second_ascending
  intro low high _ _ below above
  exact absurd (Std.lt_trans below above) Std.lt_irrefl

-- In a list in which each value is below those after it a search finds the
-- lowest value that passes.
theorem find?_eq_some_iff_of_pairwise {below : β → β → Prop} {values : List β} (sorted : values.Pairwise below)
    (refl : ∀ value, below value value)
    (antisymm : ∀ first ∈ values, ∀ second ∈ values, below first second → below second first → first = second)
    {test : β → Bool} {value : β} :
    values.find? test = some value ↔
      value ∈ values ∧ test value = true ∧ ∀ other ∈ values, test other = true → below value other := by
  have lowest : ∀ {first}, values.find? test = some first → ∀ other ∈ values, test other = true → below first other := by
    intro first found other member passes
    obtain ⟨-, before, after, rfl, fails⟩ := List.find?_eq_some_iff_append.mp found
    rcases List.mem_append.mp member with earlier | later
    · exact absurd passes (by simpa using fails other earlier)
    · obtain ⟨-, rest_sorted, -⟩ := List.pairwise_append.mp sorted
      rcases List.mem_cons.mp later with rfl | later
      · exact refl other
      · exact (List.pairwise_cons.mp rest_sorted).1 other later
  constructor
  · intro found
    exact ⟨List.mem_of_find?_eq_some found, List.find?_some found, lowest found⟩
  · rintro ⟨member, passes, least⟩
    obtain ⟨first, found⟩ := Option.isSome_iff_exists.mp (List.find?_isSome.mpr ⟨value, member, passes⟩)
    have first_mem := List.mem_of_find?_eq_some found
    rw [found, antisymm first first_mem value member (lowest found value member passes)
      (least first first_mem (List.find?_some found))]

theorem Ascending.find?_eq_some_iff {values : List β} (ascending : Ascending key values) {test : β → Bool} {value : β} :
    values.find? test = some value ↔
      value ∈ values ∧ test value = true ∧ ∀ other ∈ values, test other = true → key value ≤ key other :=
  find?_eq_some_iff_of_pairwise (ascending.imp Std.le_of_lt) (fun _ => Std.le_refl _)
    fun _ first_mem _ second_mem low high => ascending.eq_of_key_eq first_mem second_mem (Std.le_antisymm low high)

theorem Ascending.find?_reverse_eq_some_iff {values : List β} (ascending : Ascending key values) {test : β → Bool}
    {value : β} :
    values.reverse.find? test = some value ↔
      value ∈ values ∧ test value = true ∧ ∀ other ∈ values, test other = true → key other ≤ key value := by
  have descending : values.reverse.Pairwise fun first second => key second ≤ key first :=
    List.pairwise_reverse.mpr (ascending.imp Std.le_of_lt)
  rw [find?_eq_some_iff_of_pairwise descending (fun _ => Std.le_refl _)]
  · simp only [List.mem_reverse]
  · intro first first_mem second second_mem high low
    exact ascending.eq_of_key_eq (List.mem_reverse.mp first_mem) (List.mem_reverse.mp second_mem)
      (Std.le_antisymm low high)

theorem mem_place_iff {value other : β} {values : List β} (ascending : Ascending key values) :
    other ∈ place key value values ↔ other = value ∨ other ∈ values ∧ key other ≠ key value := by
  induction values with
  | nil => simp [place]
  | cons first rest ih =>
    obtain ⟨below, rest_ascending⟩ := List.pairwise_cons.mp ascending
    simp only [place]
    split
    · rename_i before
      have beyond : ∀ member ∈ first :: rest, key member ≠ key value := by
        intro member found same
        rcases List.mem_cons.mp found with rfl | found
        · exact Std.lt_irrefl (same ▸ before)
        · exact Std.lt_irrefl (same ▸ Std.lt_trans before (below member found))
      rw [List.mem_cons]
      exact or_congr_right ⟨fun found => ⟨found, beyond other found⟩, And.left⟩
    · split
      · rename_i same
        have beyond : ∀ member ∈ rest, key member ≠ key value := by
          intro member found equal
          exact Std.lt_irrefl (equal.trans same ▸ below member found)
        rw [List.mem_cons, List.mem_cons]
        refine or_congr_right ⟨fun found => ⟨Or.inr found, beyond other found⟩, ?_⟩
        rintro ⟨rfl | found, distinct⟩
        · exact absurd same.symm distinct
        · exact found
      · rename_i distinct
        rw [List.mem_cons, List.mem_cons, ih rest_ascending]
        constructor
        · rintro (rfl | rfl | ⟨found, apart⟩)
          · exact Or.inr ⟨Or.inl rfl, Ne.symm distinct⟩
          · exact Or.inl rfl
          · exact Or.inr ⟨Or.inr found, apart⟩
        · rintro (rfl | ⟨rfl | found, apart⟩)
          · exact Or.inr (Or.inl rfl)
          · exact Or.inl rfl
          · exact Or.inr (Or.inr ⟨found, apart⟩)

namespace NameIndex

variable {index : NameIndex key}

theorem mem_insert_iff {value other : β} :
    other ∈ (index.insert value).values ↔ other = value ∨ other ∈ index.values ∧ key other ≠ key value := by
  rw [values_insert]
  exact mem_place_iff index.ascending

theorem mem_erase_iff {name : Name} {value : β} :
    value ∈ (index.erase name).values ↔ value ∈ index.values ∧ key value ≠ name := by
  simp

theorem mem_filter_iff {test : β → Bool} {value : β} :
    value ∈ (index.filter test).values ↔ value ∈ index.values ∧ test value = true := by
  simp

theorem find?_eq_some_iff {name : Name} {value : β} :
    index.find? name = some value ↔ value ∈ index.values ∧ key value = name := by
  rw [find?_eq]
  constructor
  · intro found
    exact ⟨List.mem_of_find?_eq_some found, by simpa using List.find?_some found⟩
  · rintro ⟨member, rfl⟩
    cases found : index.values.find? (key · == key value) with
    | none => exact absurd (List.find?_eq_none.mp found value member) (by simp)
    | some other =>
      have same : key other = key value := by simpa using List.find?_some found
      rw [index.ascending.eq_of_key_eq (List.mem_of_find?_eq_some found) member same]

theorem find?_insert_self (value : β) : (index.insert value).find? (key value) = some value :=
  find?_eq_some_iff.mpr ⟨mem_insert_iff.mpr (Or.inl rfl), rfl⟩

theorem find?_insert_of_ne {name : Name} {value : β} (other : key value ≠ name) :
    (index.insert value).find? name = index.find? name := by
  apply Option.ext
  intro found
  rw [find?_eq_some_iff, find?_eq_some_iff, mem_insert_iff]
  constructor
  · rintro ⟨rfl | ⟨member, -⟩, named⟩
    · exact absurd named other
    · exact ⟨member, named⟩
  · rintro ⟨member, rfl⟩
    exact ⟨Or.inr ⟨member, Ne.symm other⟩, rfl⟩

theorem find?_filter (test : β → Bool) (name : Name) :
    (index.filter test).find? name = (index.find? name).filter test := by
  apply Option.ext
  intro found
  rw [find?_eq_some_iff, mem_filter_iff, Option.filter_eq_some_iff, find?_eq_some_iff]
  exact and_right_comm

theorem find?_filter_cases (test : β → Bool) (name : Name) :
    (index.filter test).find? name = index.find? name ∨ (index.filter test).find? name = none := by
  rw [find?_filter]
  cases index.find? name with
  | none => exact Or.inl rfl
  | some value =>
    rw [Option.filter_some]
    split
    · exact Or.inl rfl
    · exact Or.inr rfl

theorem ext_mem {first second : NameIndex key}
    (same : ∀ value, value ∈ first.values ↔ value ∈ second.values) : first = second :=
  ext (first.ascending.eq_of_mem_iff second.ascending same)

-- What is taken out and put back is where it was.
theorem insert_erase {value : β} (member : value ∈ index.values) :
    (index.erase (key value)).insert value = index := by
  apply ext_mem
  intro other
  rw [mem_insert_iff, mem_erase_iff]
  constructor
  · rintro (rfl | ⟨⟨found, -⟩, -⟩)
    · exact member
    · exact found
  · intro found
    by_cases same : key other = key value
    · exact Or.inl (index.ascending.eq_of_key_eq found member same)
    · exact Or.inr ⟨⟨found, same⟩, same⟩

theorem filter_filter (index : NameIndex key) {first second : β → Bool}
    (narrower : ∀ value, second value = true → first value = true) :
    (index.filter first).filter second = index.filter second := by
  apply ext
  rw [values_filter, values_filter, values_filter, List.filter_filter]
  exact List.filter_congr fun value _ => by simpa using narrower value

-- What is left out before an insertion and would be left out after it makes no difference.
theorem filter_insert_filter (index : NameIndex key) {first second : β → Bool}
    (narrower : ∀ value, second value = true → first value = true) (value : β) :
    ((index.filter first).insert value).filter second = (index.insert value).filter second := by
  apply ext_mem
  intro other
  simp only [mem_filter_iff, mem_insert_iff]
  constructor
  · rintro ⟨rfl | ⟨⟨member, -⟩, distinct⟩, kept⟩
    · exact ⟨Or.inl rfl, kept⟩
    · exact ⟨Or.inr ⟨member, distinct⟩, kept⟩
  · rintro ⟨rfl | ⟨member, distinct⟩, kept⟩
    · exact ⟨Or.inl rfl, kept⟩
    · exact ⟨Or.inr ⟨⟨member, narrower other kept⟩, distinct⟩, kept⟩

section FilterByName
variable {holds : Name → Bool}

theorem filter_insert (index : NameIndex key) {value : β} (within : holds (key value) = true) :
    (index.insert value).filter (holds <| key ·) = (index.filter (holds <| key ·)).insert value := by
  apply ext_mem
  intro other
  rw [mem_filter_iff, mem_insert_iff, mem_insert_iff, mem_filter_iff]
  constructor
  · rintro ⟨rfl | ⟨member, distinct⟩, kept⟩
    · exact Or.inl rfl
    · exact Or.inr ⟨⟨member, kept⟩, distinct⟩
  · rintro (rfl | ⟨⟨member, kept⟩, distinct⟩)
    · exact ⟨Or.inl rfl, within⟩
    · exact ⟨Or.inr ⟨member, distinct⟩, kept⟩

theorem filter_insert_of_outside (index : NameIndex key) {value : β} (outside : holds (key value) = false) :
    (index.insert value).filter (holds <| key ·) = index.filter (holds <| key ·) := by
  apply ext_mem
  intro other
  rw [mem_filter_iff, mem_filter_iff, mem_insert_iff]
  constructor
  · rintro ⟨rfl | ⟨member, -⟩, kept⟩
    · exact absurd (outside.symm.trans kept) (by simp)
    · exact ⟨member, kept⟩
  · rintro ⟨member, kept⟩
    refine ⟨Or.inr ⟨member, fun same => ?_⟩, kept⟩
    exact absurd (outside.symm.trans (same ▸ kept)) (by simp)

theorem filter_erase (index : NameIndex key) (test : β → Bool) (name : Name) :
    (index.erase name).filter test = (index.filter test).erase name := by
  apply ext
  simp only [values_filter, values_erase, List.filter_filter, Bool.and_comm]

theorem filter_erase_of_outside (index : NameIndex key) {name : Name} (outside : holds name = false) :
    (index.erase name).filter (holds <| key ·) = index.filter (holds <| key ·) := by
  apply ext
  rw [values_filter, values_erase, values_filter, List.filter_filter]
  refine List.filter_congr fun value _ => ?_
  by_cases same : key value = name
  · simp [same, outside]
  · simp [same]

end FilterByName

theorem perm_insert (index : NameIndex key) (value : β) :
    (index.insert value).values.Perm (value :: (index.erase (key value)).values) := by
  have fresh : value ∉ (index.erase (key value)).values := fun found => (mem_erase_iff.mp found).2 rfl
  rw [List.perm_ext_iff_of_nodup (index.insert value).ascending.nodup
    (List.nodup_cons.mpr ⟨fresh, (index.erase (key value)).ascending.nodup⟩)]
  intro other
  rw [mem_insert_iff, List.mem_cons, mem_erase_iff]

theorem perm_erase {value : β} (member : value ∈ index.values) :
    index.values.Perm (value :: (index.erase (key value)).values) := by
  have shuffled := (index.erase (key value)).perm_insert value
  rw [insert_erase member] at shuffled
  refine shuffled.trans (List.Perm.cons value (List.Perm.of_eq ?_))
  simp

theorem perm_insert_append_find? (index : NameIndex key) (value : β) :
    ((index.insert value).values ++ (index.find? (key value)).toList).Perm (value :: index.values) := by
  refine ((index.perm_insert value).append_right _).trans ?_
  rw [List.cons_append]
  refine List.Perm.cons value ?_
  cases found : index.find? (key value) with
  | none =>
    have kept : (index.erase (key value)).values = index.values := by
      rw [values_erase, List.filter_eq_self]
      intro other member
      simpa using fun same => absurd (find?_eq_some_iff.mpr ⟨member, same⟩) (by simp [found])
    rw [kept, Option.toList_none, List.append_nil]
  | some held =>
    obtain ⟨member, same⟩ := find?_eq_some_iff.mp found
    rw [← same]
    exact (List.perm_append_singleton _ _).trans (perm_erase member).symm

-- A value takes the place of the one that carries its name, or a new one.
theorem size_insert (index : NameIndex key) (value : β) :
    (index.insert value).size = if index.contains (key value) then index.size else index.size + 1 := by
  have level := (index.perm_insert_append_find? value).length_eq
  rw [List.length_append, List.length_cons, ← size_eq, ← size_eq] at level
  cases found : index.find? (key value) with
  | none => simpa [contains, found] using level
  | some held => simpa [contains, found] using level

theorem mem_startingAt_iff {name : Name} {value : β} :
    value ∈ index.startingAt name ↔ value ∈ index.values ∧ name ≤ key value := by
  rw [startingAt_eq]
  have ascending := index.ascending
  generalize index.values = values at ascending
  induction values with
  | nil => simp
  | cons first rest ih =>
    obtain ⟨below, rest_ascending⟩ := List.pairwise_cons.mp ascending
    by_cases before : key first < name
    · have later : value ∈ rest.dropWhile (key · < name) ↔ value ∈ rest ∧ name ≤ key value := ih rest_ascending
      rw [List.dropWhile_cons_of_pos (by simpa using before), later, List.mem_cons]
      constructor
      · intro ⟨found, above⟩
        exact ⟨Or.inr found, above⟩
      · rintro ⟨rfl | found, above⟩
        · exact absurd before (Std.not_lt.mpr above)
        · exact ⟨found, above⟩
    · rw [List.dropWhile_cons_of_neg (by simpa using before)]
      refine ⟨fun found => ⟨found, ?_⟩, And.left⟩
      rcases List.mem_cons.mp found with rfl | found
      · exact Std.not_lt.mp before
      · exact Std.le_trans (Std.not_lt.mp before) (Std.le_of_lt (below value found))

theorem ascending_startingAt (index : NameIndex key) (name : Name) : Ascending key (index.startingAt name) := by
  rw [startingAt_eq]
  exact index.ascending.sublist (List.dropWhile_sublist _)

theorem ascending_under (index : NameIndex key) (name : Name) : Ascending key (index.under name) :=
  (index.ascending_startingAt name).sublist (List.takeWhile_sublist _)

theorem mem_under_iff {name : Name} {value : β} :
    value ∈ index.under name ↔ value ∈ index.values ∧ name.isPrefixOf (key value) = true := by
  have scan : ∀ {values : List β}, Ascending key values → (∀ member ∈ values, name ≤ key member) →
      (value ∈ values.takeWhile (name.isPrefixOf <| key ·) ↔
        value ∈ values ∧ name.isPrefixOf (key value) = true) := by
    intro values ascending above
    induction values with
    | nil => simp
    | cons first rest ih =>
      obtain ⟨below, rest_ascending⟩ := List.pairwise_cons.mp ascending
      by_cases begins : name.isPrefixOf (key first) = true
      · rw [List.takeWhile_cons, if_pos begins, List.mem_cons, List.mem_cons,
          ih rest_ascending fun member found => above member (List.mem_cons_of_mem _ found)]
        constructor
        · rintro (rfl | ⟨found, within⟩)
          · exact ⟨Or.inl rfl, begins⟩
          · exact ⟨Or.inr found, within⟩
        · rintro ⟨rfl | found, within⟩
          · exact Or.inl rfl
          · exact Or.inr ⟨found, within⟩
      · rw [List.takeWhile_cons, if_neg begins]
        refine ⟨fun found => absurd found List.not_mem_nil, ?_⟩
        intro ⟨found, within⟩
        rcases List.mem_cons.mp found with rfl | found
        · exact absurd within begins
        -- A later member under the name would put the first one under it too.
        · exact absurd (Name.isPrefixOf_of_between (above first List.mem_cons_self)
            (Std.le_of_lt (below value found)) within) begins
  rw [under, scan (index.ascending_startingAt name) fun member found => (mem_startingAt_iff.mp found).2,
    mem_startingAt_iff]
  exact ⟨fun ⟨⟨found, _⟩, within⟩ => ⟨found, within⟩,
    fun ⟨found, within⟩ => ⟨⟨found, Name.le_of_isPrefixOf within⟩, within⟩⟩

-- The first member from a name on is under the name, or none is.
theorem anyUnder_iff {name : Name} :
    index.anyUnder name = true ↔ ∃ value ∈ index.values, name.isPrefixOf (key value) = true := by
  have ascending := index.ascending_startingAt name
  rw [anyUnder, firstFrom?_eq]
  constructor
  · intro begins
    cases listed : index.startingAt name with
    | nil => simp [listed] at begins
    | cons first rest =>
      have found : first ∈ index.startingAt name := listed ▸ List.mem_cons_self
      exact ⟨first, (mem_startingAt_iff.mp found).1, by simpa [listed] using begins⟩
  · intro ⟨value, member, within⟩
    have found : value ∈ index.startingAt name := mem_startingAt_iff.mpr ⟨member, Name.le_of_isPrefixOf within⟩
    cases listed : index.startingAt name with
    | nil => exact absurd (listed ▸ found) List.not_mem_nil
    | cons first rest =>
      have above : name ≤ key first := (mem_startingAt_iff.mp (listed ▸ List.mem_cons_self)).2
      have least : key first ≤ key value := by
        rw [listed] at found ascending
        rcases List.mem_cons.mp found with rfl | later
        · exact Std.le_refl _
        · exact Std.le_of_lt ((List.pairwise_cons.mp ascending).1 value later)
      exact Name.isPrefixOf_of_between above least within

section Foldl
variable {values : List β}

theorem find?_foldl_insert_of_ne {name : Name} (others : ∀ value ∈ values, key value ≠ name) :
    (values.foldl insert index).find? name = index.find? name := by
  induction values generalizing index with
  | nil => rfl
  | cons first rest ih =>
    rw [List.forall_mem_cons] at others
    rw [List.foldl_cons, ih others.2, find?_insert_of_ne others.1]

theorem find?_foldl_insert_of_mem {value : β} (distinct : values.Pairwise (key · ≠ key ·)) (member : value ∈ values) :
    (values.foldl insert index).find? (key value) = some value := by
  induction values generalizing index with
  | nil => exact absurd member List.not_mem_nil
  | cons first rest ih =>
    obtain ⟨others, apart⟩ := List.pairwise_cons.mp distinct
    rcases List.mem_cons.mp member with rfl | later
    · rw [List.foldl_cons, find?_foldl_insert_of_ne fun other listed => (others other listed).symm, find?_insert_self]
    · exact ih apart later

theorem mem_of_mem_foldl_insert {value : β} (member : value ∈ (values.foldl insert index).values) :
    value ∈ values ∨ value ∈ index.values := by
  induction values generalizing index with
  | nil => exact Or.inr member
  | cons first rest ih =>
    rcases ih member with later | held
    · exact Or.inl (List.mem_cons_of_mem _ later)
    · rcases mem_insert_iff.mp held with rfl | ⟨earlier, -⟩
      · exact Or.inl List.mem_cons_self
      · exact Or.inr earlier

theorem size_foldl_insert_le : (values.foldl insert index).size ≤ index.size + values.length := by
  induction values generalizing index with
  | nil => exact Nat.le_refl _
  | cons first rest ih =>
    have grown : (index.insert first).size ≤ index.size + 1 := by
      rw [size_insert]
      split <;> omega
    have later : (rest.foldl insert (index.insert first)).size ≤ (index.insert first).size + rest.length := ih
    rw [List.foldl_cons, List.length_cons]
    omega

end Foldl

end NameIndex

end NamedContent
