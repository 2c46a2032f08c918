import NamedContent.Name.Basic

/-! Lists of values in the ascending order of a name that each of them carries.

No two values of such a list carry the same name, and a new value has exactly
one place in it. -/

set_option autoImplicit false

namespace NamedContent

variable {β : Type} {key : β → Name}

def Ascending (key : β → Name) (values : List β) : Prop :=
  values.Pairwise (fun first second => key first < key second)

/-- Puts a value at its place, instead of one with the same name. -/
def place (key : β → Name) (value : β) : List β → List β
  | [] => [value]
  | first :: rest =>
    if key value < key first then value :: first :: rest
    else if key value = key first then value :: rest
    else first :: place key value rest

theorem mem_place {value other : β} {values : List β} (member : other ∈ place key value values) :
    other = value ∨ other ∈ values := by
  induction values with
  | nil => simpa [place] using member
  | cons first rest ih =>
    simp only [place] at member
    split at member
    · simpa using member
    · split at member
      · simp only [List.mem_cons] at member ⊢
        exact member.imp_right Or.inr
      · simp only [List.mem_cons] at member ⊢
        rcases member with same | member
        · exact Or.inr (Or.inl same)
        · exact (ih member).imp_right Or.inr

theorem Ascending.place (value : β) {values : List β} (ascending : Ascending key values) :
    Ascending key (place key value values) := by
  induction values with
  | nil => simp [NamedContent.place, Ascending]
  | cons first rest ih =>
    obtain ⟨below, rest_ascending⟩ := List.pairwise_cons.mp ascending
    simp only [NamedContent.place]
    split
    · rename_i before
      refine List.pairwise_cons.mpr ⟨?_, ascending⟩
      intro other member
      rcases List.mem_cons.mp member with same | member
      · exact same ▸ before
      · exact Std.lt_trans before (below other member)
    · split
      · rename_i same
        exact List.pairwise_cons.mpr ⟨fun other member => same ▸ below other member, rest_ascending⟩
      · rename_i notBefore distinct
        refine List.pairwise_cons.mpr ⟨?_, ih rest_ascending⟩
        intro other member
        rcases mem_place member with same | member
        · subst same
          exact Std.lt_of_le_of_ne (Std.not_lt.mp notBefore) (Ne.symm distinct)
        · exact below other member

theorem place_append_of_lt {value middle : β} (first rest : List β) (below : key value < key middle) :
    place key value (first ++ middle :: rest) = place key value first ++ middle :: rest := by
  induction first with
  | nil => simp [place, below]
  | cons head first ih =>
    simp only [List.cons_append, place, ih]
    split
    · rfl
    · split <;> rfl

theorem place_append_of_gt {value : β} {first : List β} (rest : List β)
    (above : ∀ other ∈ first, key other < key value) :
    place key value (first ++ rest) = first ++ place key value rest := by
  induction first with
  | nil => rfl
  | cons head first ih =>
    have below : key head < key value := above head List.mem_cons_self
    have notBefore : ¬ key value < key head := fun before => Std.lt_irrefl (Std.lt_trans below before)
    have distinct : key value ≠ key head := fun same => Std.lt_irrefl (same ▸ below)
    rw [List.cons_append, place, if_neg notBefore, if_neg distinct, ih fun other member =>
      above other (List.mem_cons_of_mem head member), List.cons_append]

end NamedContent
