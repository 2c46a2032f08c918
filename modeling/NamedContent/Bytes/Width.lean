import Mathlib.Algebra.Order.Ring.Nat
import NamedContent.Bytes.BigEndian

/-! Numbers that fit a width of bytes.

Reading undoes writing up to multiples of `256 ^ width`, so exactly for the
numbers below it, and every byte string reads as such a number. -/

set_option autoImplicit false

namespace NamedContent.Bytes

theorem fromBigEndian_bigEndian (width number : Nat) :
    fromBigEndian (bigEndian width number) = number % 256 ^ width := by
  induction width generalizing number with
  | zero => simp [bigEndian, Nat.mod_one]
  | succ width ih =>
    rw [bigEndian, fromBigEndian_concat, ih, Nat.pow_succ', Nat.mod_mul, UInt8.toNat_ofNat']
    omega

theorem fromBigEndian_bigEndian_of_lt {width number : Nat} (fits : number < 256 ^ width) :
    fromBigEndian (bigEndian width number) = number := by
  rw [fromBigEndian_bigEndian, Nat.mod_eq_of_lt fits]

theorem bigEndian_inj {width first second : Nat} (fits : first < 256 ^ width) (otherFits : second < 256 ^ width)
    (same : bigEndian width first = bigEndian width second) : first = second := by
  rw [← fromBigEndian_bigEndian_of_lt fits, same, fromBigEndian_bigEndian_of_lt otherFits]

theorem fromBigEndian_lt (bytes : List UInt8) : fromBigEndian bytes < 256 ^ bytes.length := by
  rw [← bigEndian_fromBigEndian bytes, fromBigEndian_bigEndian, length_bigEndian]
  exact Nat.mod_lt _ (Nat.pow_pos (by decide))

end NamedContent.Bytes
