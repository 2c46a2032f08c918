import NamedContent.Bytes.Width

/-! The order of numbers is the order of their written forms of one width. -/

set_option autoImplicit false

namespace NamedContent.Bytes

theorem append_lt_append {α : Type} [LT α] {first second : List α} (less : first < second)
    (same : first.length = second.length) (after last : List α) : first ++ after < second ++ last := by
  induction first generalizing second with
  | nil =>
    cases second with
    | nil => exact absurd less (List.not_lt_nil _)
    | cons _ _ => exact absurd same (by simp)
  | cons head first ih =>
    cases second with
    | nil => exact absurd less (List.not_lt_nil _)
    | cons other second =>
      rcases List.cons_lt_cons_iff.mp less with head_less | ⟨rfl, rest_less⟩
      · exact List.cons_lt_cons_iff.mpr (Or.inl head_less)
      · exact List.cons_lt_cons_iff.mpr (Or.inr ⟨rfl, ih rest_less (Nat.succ.inj same)⟩)

theorem bigEndian_lt_bigEndian {width first second : Nat} (less : first < second)
    (fits : second < 256 ^ width) : bigEndian width first < bigEndian width second := by
  induction width generalizing first second with
  | zero => omega
  | succ width ih =>
    rw [Nat.pow_succ] at fits
    by_cases high : first / 256 < second / 256
    · have rest_less := ih high (Nat.div_lt_of_lt_mul (Nat.mul_comm _ _ ▸ fits))
      exact append_lt_append rest_less (by simp) _ _
    · have same : first / 256 = second / 256 := by omega
      have low : UInt8.ofNat first < UInt8.ofNat second := by
        rw [UInt8.lt_iff_toNat_lt, UInt8.toNat_ofNat', UInt8.toNat_ofNat']
        omega
      rw [bigEndian, bigEndian, same]
      exact List.append_left_lt (List.cons_lt_cons_iff.mpr (Or.inl low))

end NamedContent.Bytes
