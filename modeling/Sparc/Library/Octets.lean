import Mathlib.Data.List.Basic
import Mathlib.Algebra.Group.Nat.Defs

/-! # Numbers as bytes -/

namespace Octets

/-- The low bytes of a number, the lowest first. -/
def little : ℕ → ℕ → List UInt8
  | 0, _ => []
  | k + 1, n => UInt8.ofNat n :: little k (n / 256)

/-- The number that the bytes stand for, the lowest first. -/
def value : List UInt8 → ℕ
  | [] => 0
  | b :: l => b.toNat + 256 * value l

@[simp] theorem length_little (k n : ℕ) : (little k n).length = k := by
  induction k generalizing n with
  | zero => rfl
  | succ k ih => rw [little, List.length_cons, ih]

theorem value_little (k n : ℕ) : value (little k n) = n % 256 ^ k := by
  induction k generalizing n with
  | zero => rw [little, value, Nat.pow_zero, Nat.mod_one]
  | succ k ih =>
      have hbyte : (UInt8.ofNat n).toNat = n % 256 := UInt8.toNat_ofNat'
      rw [little, value, ih, hbyte, Nat.pow_succ, Nat.mul_comm (256 ^ k) 256, Nat.mod_mul]

theorem value_little_of_lt {k n : ℕ} (h : n < 256 ^ k) : value (little k n) = n := by
  rw [value_little, Nat.mod_eq_of_lt h]

theorem value_lt (l : List UInt8) : value l < 256 ^ l.length := by
  induction l with
  | nil => simp [value]
  | cons b l ih =>
      have hb : b.toNat < 256 := b.toNat_lt
      rw [value, List.length_cons, Nat.pow_succ]
      omega

/-- Bytes are determined by their number. -/
theorem little_value (l : List UInt8) : little l.length (value l) = l := by
  induction l with
  | nil => rfl
  | cons b l ih =>
      have hb : b.toNat < 256 := b.toNat_lt
      have hdiv : (b.toNat + 256 * value l) / 256 = value l := by omega
      have hbyte : UInt8.ofNat (b.toNat + 256 * value l) = b := by
        apply UInt8.toNat_inj.mp
        rw [UInt8.toNat_ofNat']
        omega
      rw [List.length_cons, little, value, hdiv, ih, hbyte]

end Octets
