/-! Cutting a list into pieces of one size, the last of which may be shorter. -/

set_option autoImplicit false

namespace NamedContent

variable {α : Type}

def chunksUpTo (size : Nat) : Nat → List α → List (List α)
  | 0, _ => []
  | _ + 1, [] => []
  | count + 1, first :: rest =>
    (first :: rest.take (size - 1)) :: chunksUpTo size count (rest.drop (size - 1))

/-- The elements in chunks of `size`, where a size of zero counts as one. There
are no more chunks than elements. -/
def chunks (size : Nat) (elements : List α) : List (List α) := chunksUpTo size elements.length elements

theorem flatten_chunksUpTo (size : Nat) {count : Nat} {elements : List α} (enough : elements.length ≤ count) :
    (chunksUpTo size count elements).flatten = elements := by
  induction count generalizing elements with
  | zero => simpa [chunksUpTo] using enough
  | succ count ih =>
    cases elements with
    | nil => rfl
    | cons first rest =>
      have shorter : (rest.drop (size - 1)).length ≤ count := by
        rw [List.length_drop]
        simp only [List.length_cons] at enough
        omega
      simp [chunksUpTo, ih shorter]

@[simp] theorem flatten_chunks (size : Nat) (elements : List α) : (chunks size elements).flatten = elements :=
  flatten_chunksUpTo size (Nat.le_refl _)

theorem length_chunksUpTo_le (size : Nat) {count : Nat} {elements : List α} :
    (chunksUpTo size count elements).length ≤ count := by
  induction count generalizing elements with
  | zero => exact Nat.le_refl 0
  | succ count ih =>
    cases elements with
    | nil => exact Nat.zero_le _
    | cons first rest => exact Nat.succ_le_succ ih

theorem length_chunks_le (size : Nat) (elements : List α) : (chunks size elements).length ≤ elements.length :=
  length_chunksUpTo_le size

theorem length_chunksUpTo {size : Nat} (positive : 0 < size) {count : Nat} {elements : List α}
    (enough : elements.length ≤ count) :
    (chunksUpTo size count elements).length = (elements.length + (size - 1)) / size := by
  induction count generalizing elements with
  | zero =>
    have nothing : elements.length = 0 := Nat.le_zero.mp enough
    rw [nothing, Nat.zero_add, Nat.div_eq_of_lt (Nat.sub_lt positive Nat.one_pos)]
    rfl
  | succ count ih =>
    cases elements with
    | nil => simp [chunksUpTo, Nat.div_eq_of_lt (Nat.sub_lt positive Nat.one_pos)]
    | cons first rest =>
      have shorter : (rest.drop (size - 1)).length ≤ count := by
        rw [List.length_drop]
        simp only [List.length_cons] at enough
        omega
      have whole : rest.length + 1 + (size - 1) = rest.length + size := by omega
      rw [chunksUpTo, List.length_cons, ih shorter, List.length_drop, List.length_cons, whole,
        Nat.add_div_right _ positive]
      -- A rest that fits into this chunk leaves nothing for another.
      by_cases fits : rest.length < size
      · have last : rest.length - (size - 1) + (size - 1) < size := by omega
        rw [Nat.div_eq_of_lt last, Nat.div_eq_of_lt fits]
      · rw [Nat.sub_add_cancel (by omega)]

theorem length_chunks {size : Nat} (positive : 0 < size) (elements : List α) :
    (chunks size elements).length = (elements.length + (size - 1)) / size :=
  length_chunksUpTo positive (Nat.le_refl _)

-- Only the last chunk may be shorter.
theorem length_of_mem_dropLast_chunksUpTo {size : Nat} (positive : 0 < size) {count : Nat} {elements chunk : List α}
    (member : chunk ∈ (chunksUpTo size count elements).dropLast) : chunk.length = size := by
  induction count generalizing elements with
  | zero => exact absurd member List.not_mem_nil
  | succ count ih =>
    cases elements with
    | nil => exact absurd member List.not_mem_nil
    | cons first rest =>
      rw [chunksUpTo] at member
      cases later : chunksUpTo size count (rest.drop (size - 1)) with
      | nil => simp [later] at member
      | cons next others =>
        rw [later, List.dropLast_cons_of_ne_nil (by simp)] at member
        rcases List.mem_cons.mp member with rfl | further
        · have more : rest.drop (size - 1) ≠ [] := by
            intro none
            rw [none] at later
            cases count <;> simp [chunksUpTo] at later
          have long := List.length_pos_iff.mpr more
          rw [List.length_drop] at long
          rw [List.length_cons, List.length_take]
          omega
        · exact ih (later ▸ further)

theorem length_of_mem_dropLast_chunks {size : Nat} (positive : 0 < size) {elements chunk : List α}
    (member : chunk ∈ (chunks size elements).dropLast) : chunk.length = size :=
  length_of_mem_dropLast_chunksUpTo positive member

end NamedContent
