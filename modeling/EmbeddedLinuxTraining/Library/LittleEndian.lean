import Mathlib.Algebra.Group.Nat.Defs
import Mathlib.Data.List.Basic

namespace EmbeddedLinuxTraining.Library.LittleEndian

def toBytes : ℕ → ℕ → List UInt8
  | 0, _ => []
  | k + 1, n => UInt8.ofNat n :: toBytes k (n / 256)

def ofBytes : List UInt8 → ℕ
  | [] => 0
  | b :: bs => b.toNat + 256 * ofBytes bs

@[simp] theorem length_toBytes (k n : ℕ) : (toBytes k n).length = k := by
  induction k generalizing n with
  | zero => rfl
  | succ k ih => rw [toBytes, List.length_cons, ih]

theorem ofBytes_toBytes (k n : ℕ) (h : n < 256 ^ k) : ofBytes (toBytes k n) = n := by
  induction k generalizing n with
  | zero =>
    rw [Nat.pow_zero] at h
    obtain rfl : n = 0 := by omega
    rfl
  | succ k ih =>
    have hdiv : n / 256 < 256 ^ k := by
      apply Nat.div_lt_of_lt_mul
      rwa [Nat.pow_succ, Nat.mul_comm] at h
    rw [toBytes, ofBytes, ih _ hdiv, UInt8.toNat_ofNat']
    omega

end EmbeddedLinuxTraining.Library.LittleEndian
