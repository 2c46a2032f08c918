/-! Arithmetic on 64-bit words that stops at the greatest one. -/

set_option autoImplicit false

namespace NamedContent.Word

def greatest : Nat := UInt64.size - 1

/-- A number as a word, or the greatest word for a number beyond it. -/
def clamp (number : Nat) : UInt64 := UInt64.ofNat (min number greatest)

def add (first second : UInt64) : UInt64 := clamp (first.toNat + second.toNat)

theorem toNat_clamp (number : Nat) : (clamp number).toNat = min number greatest := by
  rw [clamp, UInt64.toNat_ofNat']
  exact Nat.mod_eq_of_lt (Nat.lt_of_le_of_lt (Nat.min_le_right _ _) (by decide))

theorem toNat_add (first second : UInt64) : (add first second).toNat = min (first.toNat + second.toNat) greatest :=
  toNat_clamp _

theorem le_add_one_iff {number floor : UInt64} : number ≤ add floor 1 ↔ number.toNat ≤ floor.toNat + 1 := by
  have bound : number.toNat ≤ greatest := Nat.le_pred_of_lt number.toNat_lt
  rw [UInt64.le_iff_toNat_le, toNat_add, UInt64.toNat_one]
  omega

theorem toNat_max (first second : UInt64) : (max first second).toNat = max first.toNat second.toNat := by
  have choice : max first second = if first ≤ second then second else first := rfl
  rw [choice]
  split
  · rename_i below
    exact (Nat.max_eq_right (UInt64.le_iff_toNat_le.mp below)).symm
  · rename_i above
    have notBelow := mt UInt64.le_iff_toNat_le.mpr above
    omega

end NamedContent.Word
