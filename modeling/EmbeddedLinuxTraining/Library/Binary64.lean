import Mathlib.Algebra.Group.Nat.Defs
import Mathlib.Algebra.Order.Field.Power
import Mathlib.Algebra.Order.Field.Rat
import Mathlib.Algebra.Ring.Int.Defs
import Mathlib.Data.Nat.Log
import EmbeddedLinuxTraining.Library.Strtol

namespace EmbeddedLinuxTraining.Library.Binary64

open Strtol

def roundDiv (a b : ℕ) : ℕ :=
  if 2 * (a % b) < b then a / b
  else if b < 2 * (a % b) then a / b + 1
  else a / b + a / b % 2

def scaled (base a b : ℕ) (k : ℤ) : ℕ × ℕ := (a * base ^ (-k).toNat, b * base ^ k.toNat)

def leading (base a b : ℕ) : ℤ :=
  let d : ℤ := Nat.log base a - Nat.log base b
  if (scaled base a b d).2 ≤ (scaled base a b d).1 then d else d - 1

/-- An integer times a power of two; there is one zero. -/
inductive Extended
  | finite (significand exponent : ℤ)
  | infinite (negative : Bool)
  | nan
  deriving DecidableEq

def Extended.Fits : Extended → Prop
  | .finite s e => s.natAbs ≤ 2 ^ 53 ∧ -1074 ≤ e ∧ s.natAbs.log2 + e.toNat < 1024
  | .infinite _ | .nan => True

structure Double where
  value : Extended
  fits : value.Fits

def nearestExtended (negative : Bool) (a b : ℕ) : Extended :=
  if a = 0 then .finite 0 0
  else
    let k := max (-1074) (leading 2 a b - 52)
    let significand := roundDiv (scaled 2 a b k).1 (scaled 2 a b k).2
    if 1024 ≤ significand.log2 + k.toNat then .infinite negative
    else .finite (signed negative significand) k

namespace Extended

def atLeast (n : ℤ) : Extended → Bool
  | .finite s e => n * 2 ^ (-e).toNat ≤ s * 2 ^ e.toNat
  | .infinite negative => !negative
  | .nan => false

def atMost (n : ℤ) : Extended → Bool
  | .finite s e => s * 2 ^ e.toNat ≤ n * 2 ^ (-e).toNat
  | .infinite negative => negative
  | .nan => false

def isNan (d : Extended) : Bool := d = .nan

def isInf (d : Extended) : Bool := d = .infinite false ∨ d = .infinite true

def equals (n : ℤ) (d : Extended) : Bool := d.atLeast n ∧ d.atMost n

def trunc : Extended → ℤ
  | .finite s e => (s * 2 ^ e.toNat).tdiv (2 ^ (-e).toNat)
  | .infinite _ | .nan => 0

def abs : Extended → Extended
  | .finite s e => .finite s.natAbs e
  | .infinite _ => .infinite false
  | .nan => .nan

def round (s e : ℤ) : Extended := nearestExtended (s < 0) (s.natAbs * 2 ^ e.toNat) (2 ^ (-e).toNat)

def sub : Extended → Extended → Extended
  | .finite s e, .finite t f => round (s * 2 ^ (e - min e f).toNat - t * 2 ^ (f - min e f).toNat) (min e f)
  | .finite _ _, .infinite negative => .infinite (!negative)
  | .infinite negative, .finite _ _ => .infinite negative
  | .infinite negative, .infinite negative' => if negative = negative' then .nan else .infinite negative
  | .nan, _ | _, .nan => .nan

def mul : Extended → Extended → Extended
  | .finite s e, .finite t f => round (s * t) (e + f)
  | .finite s _, .infinite negative | .infinite negative, .finite s _ =>
    if s = 0 then .nan else .infinite (negative ^^ decide (s < 0))
  | .infinite negative, .infinite negative' => .infinite (negative ^^ negative')
  | .nan, _ | _, .nan => .nan

def compare : Extended → Extended → Option Ordering
  | .finite s e, .finite t f =>
    some (Ord.compare (s * 2 ^ (e - min e f).toNat) (t * 2 ^ (f - min e f).toNat))
  | .finite _ _, .infinite negative => some (if negative then .gt else .lt)
  | .infinite negative, .finite _ _ => some (if negative then .lt else .gt)
  | .infinite negative, .infinite negative' => some (Ord.compare (!negative) (!negative'))
  | .nan, _ | _, .nan => none

end Extended

@[simp] theorem scaled_natCast (base a b k : ℕ) : scaled base a b k = (a, b * base ^ k) := by
  simp [scaled]

@[simp] theorem scaled_neg (base a b j : ℕ) : scaled base a b (-j) = (a * base ^ j, b) := by
  simp [scaled]

section Leading

variable {base a b n : ℕ} {k : ℤ}

theorem scaled_le_iff (hbase : 1 < base) :
    (scaled base a b k).2 ≤ (scaled base a b k).1 ↔ (b : ℚ) * base ^ k ≤ a := by
  have hpos : (0 : ℚ) < base := by exact_mod_cast Nat.zero_lt_of_lt hbase
  obtain ⟨n, rfl | rfl⟩ := k.eq_nat_or_neg
  · rw [scaled_natCast, zpow_natCast]
    exact_mod_cast Iff.rfl
  · rw [scaled_neg, zpow_neg, zpow_natCast, mul_inv_le_iff₀ (pow_pos hpos n)]
    exact_mod_cast Iff.rfl

theorem leading_le (hbase : 1 < base) (ha : 0 < a) : (b : ℚ) * base ^ leading base a b ≤ a := by
  have hone : (1 : ℚ) < base := by exact_mod_cast hbase
  have hpos : (0 : ℚ) < base := zero_lt_one.trans hone
  simp only [leading]
  split_ifs with h
  · exact (scaled_le_iff hbase).mp h
  · have hb : (b : ℚ) ≤ base ^ (Nat.log base b + 1) := by
      exact_mod_cast Nat.le_of_lt (Nat.lt_pow_succ_log_self hbase b)
    have ha' : (base : ℚ) ^ Nat.log base a ≤ a := by
      exact_mod_cast Nat.pow_log_le_self base (Nat.ne_of_gt ha)
    calc (b : ℚ) * base ^ ((Nat.log base a : ℤ) - Nat.log base b - 1)
        ≤ base ^ (Nat.log base b + 1) * base ^ ((Nat.log base a : ℤ) - Nat.log base b - 1) :=
          mul_le_mul_of_nonneg_right hb (zpow_nonneg hpos.le _)
      _ = base ^ Nat.log base a := by
          rw [← zpow_natCast, ← zpow_add₀ hpos.ne', ← zpow_natCast]
          congr 1
          push_cast
          omega
      _ ≤ a := ha'

theorem lt_leading (hbase : 1 < base) (hb : 0 < b) : (a : ℚ) < b * base ^ (leading base a b + 1) := by
  have hone : (1 : ℚ) < base := by exact_mod_cast hbase
  have hpos : (0 : ℚ) < base := zero_lt_one.trans hone
  simp only [leading]
  split_ifs with h
  · have ha : (a : ℚ) < base ^ (Nat.log base a + 1) := by
      exact_mod_cast Nat.lt_pow_succ_log_self hbase a
    have hb' : (base : ℚ) ^ Nat.log base b ≤ b := by
      exact_mod_cast Nat.pow_log_le_self base (Nat.ne_of_gt hb)
    calc (a : ℚ) < base ^ (Nat.log base a + 1) := ha
      _ = base ^ Nat.log base b * base ^ ((Nat.log base a : ℤ) - Nat.log base b + 1) := by
          rw [← zpow_natCast, ← zpow_natCast, ← zpow_add₀ hpos.ne']
          congr 1
          push_cast
          omega
      _ ≤ b * base ^ ((Nat.log base a : ℤ) - Nat.log base b + 1) :=
          mul_le_mul_of_nonneg_right hb' (zpow_nonneg hpos.le _)
  · rw [Int.sub_add_cancel]
    exact not_le.mp fun hle => h ((scaled_le_iff hbase).mpr hle)

theorem le_leading (hbase : 1 < base) (hb : 0 < b) (h : (b : ℚ) * base ^ k ≤ a) : k ≤ leading base a b := by
  have hone : (1 : ℚ) < base := by exact_mod_cast hbase
  have hb' : (0 : ℚ) < b := by exact_mod_cast hb
  have hlt := lt_of_mul_lt_mul_left (h.trans_lt (lt_leading hbase hb)) hb'.le
  exact Int.le_of_lt_add_one ((zpow_lt_zpow_iff_right₀ hone).mp hlt)

theorem leading_lt (hbase : 1 < base) (ha : 0 < a) (h : (a : ℚ) < b * base ^ k) : leading base a b < k := by
  have hone : (1 : ℚ) < base := by exact_mod_cast hbase
  have hlt := lt_of_mul_lt_mul_left ((leading_le hbase ha).trans_lt h) (Nat.cast_nonneg b)
  exact (zpow_lt_zpow_iff_right₀ hone).mp hlt

theorem neg_le_leading (hbase : 1 < base) (hb : 0 < b) (h : b ≤ a * base ^ n) : -n ≤ leading base a b := by
  have hpos : (0 : ℚ) < base ^ n := by exact_mod_cast Nat.pow_pos (Nat.zero_lt_of_lt hbase)
  apply le_leading hbase hb
  rw [zpow_neg, zpow_natCast, mul_inv_le_iff₀ hpos]
  exact_mod_cast h

theorem leading_lt_natCast (hbase : 1 < base) (ha : 0 < a) (h : a < b * base ^ n) : leading base a b < n := by
  apply leading_lt hbase ha
  rw [zpow_natCast]
  exact_mod_cast h

theorem roundDiv_le {m : ℕ} (h : a < m * b) : roundDiv a b ≤ m := by
  have hdiv : a / b < m := Nat.div_lt_of_lt_mul (by rwa [Nat.mul_comm])
  unfold roundDiv
  split_ifs <;> omega

theorem roundDiv_scaled_le {digits : ℕ} (hbase : 1 < base) (hb : 0 < b)
    (h : leading base a b + 1 ≤ k + digits) :
    roundDiv (scaled base a b k).1 (scaled base a b k).2 ≤ base ^ digits := by
  have hone : (1 : ℚ) < base := by exact_mod_cast hbase
  have hpos : (0 : ℚ) < base := zero_lt_one.trans hone
  have hb' : (0 : ℚ) < b := by exact_mod_cast hb
  have hlt : (a : ℚ) < b * (base ^ k * base ^ digits) := by
    rw [← zpow_natCast, ← zpow_add₀ hpos.ne']
    exact (lt_leading hbase hb).trans_le
      (mul_le_mul_of_nonneg_left (zpow_le_zpow_right₀ hone.le h) hb'.le)
  apply roundDiv_le
  obtain ⟨n, rfl | rfl⟩ := k.eq_nat_or_neg
  · rw [zpow_natCast] at hlt
    rw [scaled_natCast]
    have hnat : a < b * (base ^ n * base ^ digits) := by exact_mod_cast hlt
    change a < base ^ digits * (b * base ^ n)
    rwa [Nat.mul_comm (base ^ digits), Nat.mul_assoc]
  · rw [zpow_neg, zpow_natCast, mul_left_comm, ← div_eq_inv_mul, lt_div_iff₀ (pow_pos hpos n)] at hlt
    rw [scaled_neg]
    have hnat : a * base ^ n < b * base ^ digits := by exact_mod_cast hlt
    change a * base ^ n < base ^ digits * b
    rwa [Nat.mul_comm (base ^ digits)]

theorem leading_mul (hbase : 1 < base) (hn : 0 < n) (hb : 0 < b) : leading base (n * b) b = Nat.log base n := by
  apply le_antisymm
  · apply Int.le_of_lt_add_one
    apply leading_lt_natCast hbase (Nat.mul_pos hn hb)
    rw [Nat.mul_comm n b]
    exact Nat.mul_lt_mul_of_pos_left (Nat.lt_pow_succ_log_self hbase n) hb
  · apply le_leading hbase hb
    rw [Nat.cast_mul, mul_comm (n : ℚ), zpow_natCast]
    apply mul_le_mul_of_nonneg_left _ (Nat.cast_nonneg b)
    exact_mod_cast Nat.pow_log_le_self base (Nat.ne_of_gt hn)

end Leading

theorem mul_two_pow_lt {n k m : ℕ} (h : n.log2 + k < m) : n * 2 ^ k < 2 ^ m := by
  have hbits : n < 2 ^ (n.log2 + 1) := Nat.lt_log2_self
  calc n * 2 ^ k < 2 ^ (n.log2 + 1) * 2 ^ k := Nat.mul_lt_mul_of_pos_right hbits (Nat.two_pow_pos k)
    _ = 2 ^ (n.log2 + 1 + k) := (Nat.pow_add ..).symm
    _ ≤ 2 ^ m := Nat.pow_le_pow_right (by decide) (by omega)

theorem natAbs_signed (negative : Bool) (n : ℕ) : (signed negative n).natAbs = n := by
  cases negative <;> simp [signed]

theorem roundDiv_zero (a : ℕ) : roundDiv a 0 ≤ 1 := by
  unfold roundDiv
  split_ifs <;> simp

theorem nearestExtended_fits (negative : Bool) (a b : ℕ) : (nearestExtended negative a b).Fits := by
  simp only [nearestExtended]
  split_ifs with ha hlarge
  · exact ⟨by decide, by decide, by decide⟩
  · trivial
  · refine ⟨?_, le_max_left _ _, ?_⟩
    · rw [natAbs_signed]
      obtain rfl | hb := Nat.eq_zero_or_pos b
      · have hzero (k : ℤ) : (scaled 2 a 0 k).2 = 0 := Nat.zero_mul _
        rw [hzero]
        exact (roundDiv_zero _).trans (by decide)
      · exact roundDiv_scaled_le Nat.one_lt_two hb (by omega)
    · rw [natAbs_signed]
      exact Nat.not_le.mp hlarge

def nearest (negative : Bool) (a b : ℕ) : Double := ⟨nearestExtended negative a b, nearestExtended_fits negative a b⟩

theorem roundDiv_mul {n b : ℕ} (hb : 0 < b) : roundDiv (n * b) b = n := by
  simp [roundDiv, hb]

theorem le_roundDiv (a b : ℕ) : a / b ≤ roundDiv a b := by
  unfold roundDiv
  split_ifs <;> omega

theorem nearest_small {n b : ℕ} (negative : Bool) (hn : 0 < n) (hlt : n < 2 ^ 53) (hb : 0 < b) :
    ∃ j : ℕ, (nearest negative (n * b) b).value = .finite (signed negative (n * 2 ^ j : ℕ)) (-j) := by
  have hleading : leading 2 (n * b) b = n.log2 := by rw [leading_mul Nat.one_lt_two hn hb, Nat.log2_eq_log_two]
  have hlog : n.log2 < 53 := (Nat.log2_lt (Nat.ne_of_gt hn)).mpr hlt
  have hbits : n < 2 ^ (n.log2 + 1) := Nat.lt_log2_self
  obtain ⟨j, hj⟩ : ∃ j, 52 = n.log2 + j := ⟨52 - n.log2, by omega⟩
  have hk : max (-1074) ((n.log2 : ℤ) - 52) = -j := by omega
  have hround : roundDiv (n * b * 2 ^ j) b = n * 2 ^ j := by
    rw [Nat.mul_right_comm]
    exact roundDiv_mul hb
  have hsmall : n * 2 ^ j < 2 ^ 53 := by
    have hpow : 2 ^ 53 = 2 ^ (n.log2 + 1) * 2 ^ j := by
      rw [← Nat.pow_add]
      congr 1
      omega
    rw [hpow]
    exact Nat.mul_lt_mul_of_pos_right hbits (Nat.two_pow_pos j)
  have hpos := Nat.mul_pos hn (Nat.two_pow_pos j)
  have hfinite : (n * 2 ^ j).log2 < 53 := (Nat.log2_lt (Nat.ne_of_gt hpos)).mpr hsmall
  have hzero : (-(j : ℤ)).toNat = 0 := by omega
  have hover : ¬ 1024 ≤ (n * 2 ^ j).log2 + 0 := by omega
  refine ⟨j, ?_⟩
  simp only [nearest, nearestExtended, Nat.ne_of_gt (Nat.mul_pos hn hb), if_false, hleading, hk, scaled_neg, hround,
    hzero, hover]

theorem nearest_large {n b : ℕ} (negative : Bool) (hle : 2 ^ 53 ≤ n) (hb : 0 < b) :
    (nearest negative (n * b) b).value = .infinite negative ∨
      ∃ s k : ℕ, 2 ^ 53 ≤ s * 2 ^ k ∧ (nearest negative (n * b) b).value = .finite (signed negative s) k := by
  have hn : 0 < n := by omega
  have hleading : leading 2 (n * b) b = n.log2 := by rw [leading_mul Nat.one_lt_two hn hb, Nat.log2_eq_log_two]
  have hlog : 53 ≤ n.log2 := (Nat.le_log2 (Nat.ne_of_gt hn)).mpr hle
  obtain ⟨k, hk⟩ : ∃ k, n.log2 = 52 + (k + 1) := ⟨n.log2 - 53, by omega⟩
  have hmax : max (-1074) ((n.log2 : ℤ) - 52) = (k + 1 : ℕ) := by omega
  have hdiv : 2 ^ 52 ≤ n * b / (b * 2 ^ (k + 1)) := by
    rw [Nat.mul_comm n b, Nat.mul_div_mul_left _ _ hb, Nat.le_div_iff_mul_le (Nat.two_pow_pos _),
      ← Nat.pow_add, ← hk]
    exact Nat.log2_self_le (Nat.ne_of_gt hn)
  have hround := Nat.le_trans hdiv (le_roundDiv _ _)
  have hbig : 2 ^ 53 ≤ roundDiv (n * b) (b * 2 ^ (k + 1)) * 2 ^ (k + 1) := by
    have htwo : 2 ^ 1 ≤ 2 ^ (k + 1) := Nat.pow_le_pow_right (by omega) (by omega)
    exact Nat.mul_le_mul hround htwo
  by_cases hover : 1024 ≤ (roundDiv (n * b) (b * 2 ^ (k + 1))).log2 + (k + 1)
  · left
    simp only [nearest, nearestExtended, Nat.ne_of_gt (Nat.mul_pos hn hb), if_false, hleading, hmax, scaled_natCast,
      Int.toNat_natCast, hover, if_true]
  · right
    refine ⟨_, k + 1, hbig, ?_⟩
    simp only [nearest, nearestExtended, Nat.ne_of_gt (Nat.mul_pos hn hb), if_false, hleading, hmax, scaled_natCast,
      Int.toNat_natCast, hover]

end EmbeddedLinuxTraining.Library.Binary64
