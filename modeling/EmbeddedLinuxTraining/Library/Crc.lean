import Mathlib.Algebra.CharP.Two
import Mathlib.Algebra.Field.ZMod
import Mathlib.Algebra.Polynomial.RingDivision
import Mathlib.Tactic.LinearCombination

/-!
Cyclic redundancy checks as division of polynomials over GF(2). Registers and symbols hold the
coefficient of the highest power in their lowest bit.
-/

namespace EmbeddedLinuxTraining.Library.Crc

open Polynomial

variable {m n w : ℕ}

noncomputable def ofBits : List Bool → (ZMod 2)[X]
  | [] => 0
  | b :: bs => C (if b then 1 else 0) * X ^ bs.length + ofBits bs

def bits (r : BitVec n) : List Bool := (List.range n).map r.getLsbD

noncomputable def poly (r : BitVec n) : (ZMod 2)[X] := ofBits (bits r)

noncomputable def generator (g : BitVec w) : (ZMod 2)[X] := X ^ w + poly g

def shift (g r : BitVec w) : BitVec w := if r.getLsbD 0 then (r >>> 1) ^^^ g else r >>> 1

def feed (g r : BitVec w) (symbol : BitVec m) : BitVec w := (shift g)^[m] (r ^^^ symbol.setWidth w)

def register (g start : BitVec w) (symbols : List (BitVec m)) : BitVec w := symbols.foldl (feed g) start

def messageBits (symbols : List (BitVec m)) : List Bool := symbols.flatMap bits

@[simp] theorem length_bits (r : BitVec n) : (bits r).length = n := by
  simp [bits]

theorem bits_injective {r s : BitVec n} (h : bits r = bits s) : r = s := by
  apply BitVec.eq_of_getLsbD_eq
  intro i hi
  have hget := congrArg (·[i]?) h
  simpa [bits, hi] using hget

theorem messageBits_injective (hm : 0 < m) {as bs : List (BitVec m)} (h : messageBits as = messageBits bs) :
    as = bs := by
  induction as generalizing bs with
  | nil =>
    cases bs with
    | nil => rfl
    | cons b bs =>
      have hlength := congrArg List.length h
      simp [messageBits] at hlength
      omega
  | cons a as ih =>
    cases bs with
    | nil =>
      have hlength := congrArg List.length h
      simp [messageBits] at hlength
      omega
    | cons b bs =>
      simp only [messageBits, List.flatMap_cons] at h
      obtain ⟨hbits, hrest⟩ := List.append_inj h (by simp)
      rw [bits_injective hbits, ih hrest]

theorem ofBits_append (as bs : List Bool) : ofBits (as ++ bs) = ofBits as * X ^ bs.length + ofBits bs := by
  induction as with
  | nil => simp [ofBits]
  | cons a as ih =>
    simp only [List.cons_append, ofBits, ih, List.length_append]
    ring

theorem coeff_ofBits (bs : List Bool) (k : ℕ) :
    (ofBits bs).coeff k = if k < bs.length ∧ bs[bs.length - 1 - k]? = some true then 1 else 0 := by
  induction bs with
  | nil => simp [ofBits]
  | cons b bs ih =>
    rw [ofBits, coeff_add, coeff_C_mul_X_pow, ih, List.length_cons]
    by_cases hk : k = bs.length
    · simp [hk]
    · by_cases hlt : k < bs.length
      · have hi : bs.length + 1 - 1 - k = (bs.length - 1 - k) + 1 := by omega
        have hlt' : k < bs.length + 1 := by omega
        rw [hi, List.getElem?_cons_succ]
        simp [hk, hlt, hlt']
      · have hge : ¬ k < bs.length + 1 := by omega
        simp [hk, hlt, hge]

theorem coeff_poly (r : BitVec n) (k : ℕ) :
    (poly r).coeff k = if k < n ∧ r.getLsbD (n - 1 - k) = true then 1 else 0 := by
  rw [poly, coeff_ofBits, length_bits]
  by_cases hk : k < n
  · have hi : n - 1 - k < n := by omega
    simp [bits, hk, hi]
  · simp [hk]

@[simp] theorem poly_zero : poly (0 : BitVec n) = 0 := by
  ext k
  simp [coeff_poly]

theorem degree_ofBits_lt (bs : List Bool) : (ofBits bs).degree < bs.length := by
  rw [degree_lt_iff_coeff_zero]
  intro k hk
  rw [coeff_ofBits, if_neg]
  omega

theorem degree_poly_lt (r : BitVec n) : (poly r).degree < n := by
  have h := degree_ofBits_lt (bits r)
  rwa [length_bits] at h

theorem poly_xor (r s : BitVec n) : poly (r ^^^ s) = poly r + poly s := by
  ext k
  rw [coeff_add, coeff_poly, coeff_poly, coeff_poly, BitVec.getLsbD_xor]
  by_cases hk : k < n
  · cases r.getLsbD (n - 1 - k) <;> cases s.getLsbD (n - 1 - k) <;> simp [hk]
    exact (CharTwo.add_self_eq_zero 1).symm
  · simp [hk]

theorem poly_setWidth (hm : m ≤ w) (b : BitVec m) : poly (b.setWidth w) = poly b * X ^ (w - m) := by
  ext k
  rw [coeff_mul_X_pow', coeff_poly, coeff_poly, BitVec.getLsbD_setWidth]
  by_cases hk : k < w
  · by_cases hle : w - m ≤ k
    · have hlt : k - (w - m) < m := by omega
      have hi : m - 1 - (k - (w - m)) = w - 1 - k := by omega
      have hlt' : w - 1 - k < w := by omega
      simp [hk, hle, hlt, hi, hlt']
    · have hge : m ≤ w - 1 - k := by omega
      simp [hle, BitVec.getLsbD_of_ge b _ hge]
  · have hge : ¬ k - (w - m) < m := by omega
    simp [hk, hge]

theorem X_mul_poly (r : BitVec n) :
    X * poly r = poly (r >>> 1) + C (if r.getLsbD 0 then 1 else 0) * X ^ n := by
  ext k
  rw [coeff_add, coeff_C_mul_X_pow, coeff_poly, BitVec.getLsbD_ushiftRight]
  cases k with
  | zero =>
    rw [coeff_X_mul_zero]
    by_cases hn : n = 0
    · subst hn
      simp
    · have hhigh := BitVec.getLsbD_of_ge r (1 + (n - 1)) (by omega)
      have hne : ¬ 0 = n := by omega
      simp [hhigh, hne]
  | succ k =>
    rw [coeff_X_mul, coeff_poly]
    by_cases hk : k + 1 < n
    · have hlt : k < n := by omega
      have hi : 1 + (n - 1 - (k + 1)) = n - 1 - k := by omega
      have hne : ¬ k + 1 = n := by omega
      simp [hk, hlt, hi, hne]
    · by_cases he : k + 1 = n
      · have hlt : k < n := by omega
        have hi : n - 1 - k = 0 := by omega
        simp [he, hlt, hi]
      · have hge : ¬ k < n := by omega
        simp [hk, he, hge]

theorem monic_generator (g : BitVec w) : (generator g).Monic :=
  monic_X_pow_add (degree_poly_lt g)

theorem degree_generator (g : BitVec w) : (generator g).degree = w := by
  rw [generator, degree_add_eq_left_of_degree_lt]
  · exact degree_X_pow w
  · rw [degree_X_pow]
    exact degree_poly_lt g

theorem coeff_zero_generator {g : BitVec w} (hw : 0 < w) (hg : g.getLsbD (w - 1) = true) :
    (generator g).coeff 0 = 1 := by
  have hne : ¬ 0 = w := by omega
  rw [generator, coeff_add, coeff_X_pow, coeff_poly]
  simp [hw, hg, hne]

theorem X_mul_poly_shift (g r : BitVec w) : ∃ q, X * poly r = poly (shift g r) + generator g * q := by
  rw [X_mul_poly, shift]
  split_ifs with hr
  · refine ⟨1, ?_⟩
    have hg : poly g + poly g = 0 := CharTwo.add_self_eq_zero _
    rw [poly_xor, generator, C_1]
    linear_combination -hg
  · exact ⟨0, by simp⟩

theorem X_pow_mul_poly_shift (g r : BitVec w) (k : ℕ) :
    ∃ q, X ^ k * poly r = poly ((shift g)^[k] r) + generator g * q := by
  induction k generalizing r with
  | zero => exact ⟨0, by simp⟩
  | succ k ih =>
    obtain ⟨q, hq⟩ := X_mul_poly_shift g r
    obtain ⟨q', hq'⟩ := ih (shift g r)
    refine ⟨q' + X ^ k * q, ?_⟩
    rw [Function.iterate_succ_apply]
    linear_combination X ^ k * hq + hq'

theorem poly_feed (hm : m ≤ w) (g r : BitVec w) (b : BitVec m) :
    ∃ q, X ^ m * poly r + poly b * X ^ w = poly (feed g r b) + generator g * q := by
  obtain ⟨q, hq⟩ := X_pow_mul_poly_shift g (r ^^^ b.setWidth w) m
  refine ⟨q, ?_⟩
  have hpow : (X : (ZMod 2)[X]) ^ m * X ^ (w - m) = X ^ w := by
    rw [← pow_add]
    congr 1
    omega
  rw [poly_xor, poly_setWidth hm] at hq
  rw [feed, ← hq]
  linear_combination -poly b * hpow

/-- What the register holds is the remainder of the message, with the start value in front of it. -/
theorem remainder_register (hm : m ≤ w) (g start : BitVec w) (symbols : List (BitVec m)) :
    (poly start * X ^ (messageBits symbols).length + ofBits (messageBits symbols) * X ^ w) %ₘ generator g =
      poly (register g start symbols) := by
  have hquotient : ∃ q, poly (register g start symbols) + generator g * q =
      poly start * X ^ (messageBits symbols).length + ofBits (messageBits symbols) * X ^ w := by
    induction symbols using List.reverseRecOn with
    | nil => exact ⟨0, by simp [register, messageBits, ofBits]⟩
    | append_singleton symbols b ih =>
      obtain ⟨q, hq⟩ := ih
      obtain ⟨q', hq'⟩ := poly_feed hm g (register g start symbols) b
      refine ⟨q' + X ^ m * q, ?_⟩
      have hbits : messageBits (symbols ++ [b]) = messageBits symbols ++ bits b := by
        simp [messageBits]
      have hregister : register g start (symbols ++ [b]) = feed g (register g start symbols) b := by
        simp [register]
      have hpoly : ofBits (bits b) = poly b := rfl
      rw [hbits, hregister, ofBits_append, List.length_append, length_bits, hpoly, pow_add]
      linear_combination X ^ m * hq - hq'
  obtain ⟨q, hq⟩ := hquotient
  apply (div_modByMonic_unique q _ (monic_generator g) ⟨hq, ?_⟩).2
  rw [degree_generator]
  exact degree_poly_lt _

theorem not_generator_dvd {g : BitVec w} (hw : 0 < w) (hg : g.getLsbD (w - 1) = true) {p : (ZMod 2)[X]}
    (hp : p ≠ 0) (hdegree : p.degree < w) (k : ℕ) : ¬ generator g ∣ X ^ k * p := by
  rintro ⟨q, hq⟩
  have hX : ¬ X ∣ generator g := by
    rw [X_dvd_iff, coeff_zero_generator hw hg]
    exact one_ne_zero
  obtain ⟨q', rfl⟩ := prime_X.pow_dvd_of_dvd_mul_left k hX (Dvd.intro _ hq)
  have hcancel : p = generator g * q' := by
    apply mul_left_cancel₀ (pow_ne_zero k X_ne_zero)
    linear_combination hq
  have hle := degree_le_of_dvd (Dvd.intro _ hcancel.symm) hp
  rw [degree_generator] at hle
  exact absurd hdegree (not_lt.mpr hle)

theorem generator_dvd_of_register_eq (hm : m ≤ w) {g start start' : BitVec w} {as bs : List (BitVec m)}
    (h : register g start as = register g start' bs) :
    generator g ∣ (poly start * X ^ (messageBits as).length + ofBits (messageBits as) * X ^ w) -
      (poly start' * X ^ (messageBits bs).length + ofBits (messageBits bs) * X ^ w) := by
  apply (modByMonic_eq_zero_iff_dvd (monic_generator g)).mp
  rw [sub_modByMonic, remainder_register hm, remainder_register hm, h, sub_self]

theorem coeff_sub_ofBits {as bs : List Bool} (hlength : as.length = bs.length) {k : ℕ}
    (h : as[as.length - 1 - k]? = bs[as.length - 1 - k]?) : (ofBits as - ofBits bs).coeff k = 0 := by
  rw [coeff_sub, coeff_ofBits, coeff_ofBits, ← hlength, h, sub_self]

theorem ofBits_injective {as bs : List Bool} (hlength : as.length = bs.length) (h : ofBits as = ofBits bs) :
    as = bs := by
  apply List.ext_getElem hlength
  intro i ha hb
  have hcoeff := congrArg (coeff · (as.length - 1 - i)) h
  have hlt : as.length - 1 - i < as.length := by omega
  have hi : as.length - 1 - (as.length - 1 - i) = i := by omega
  simp only [coeff_ofBits, ← hlength, hlt, hi, true_and, List.getElem?_eq_getElem ha,
    List.getElem?_eq_getElem hb, Option.some.injEq] at hcoeff
  generalize as[i] = a at hcoeff
  generalize bs[i] = b at hcoeff
  cases a <;> cases b <;> simp at hcoeff ⊢

/-- Two messages that differ inside a window of `w` bits are not congruent. -/
theorem not_generator_dvd_burst {g : BitVec w} (hw : 0 < w) (hg : g.getLsbD (w - 1) = true)
    {as bs : List Bool} (hlength : as.length = bs.length) (hne : as ≠ bs) {k : ℕ}
    (hwindow : ∀ i, as[i]? ≠ bs[i]? → k ≤ i ∧ i < k + w) (e : ℕ) :
    ¬ generator g ∣ X ^ e * (ofBits as - ofBits bs) := by
  have hlow : ∀ d < as.length - (k + w), (ofBits as - ofBits bs).coeff d = 0 := by
    intro d hd
    apply coeff_sub_ofBits hlength
    by_contra hdiffer
    have hi := hwindow _ hdiffer
    omega
  obtain ⟨burst, hburst⟩ := X_pow_dvd_iff.mpr hlow
  have hburst_ne : burst ≠ 0 := by
    rintro rfl
    rw [mul_zero, sub_eq_zero] at hburst
    exact hne (ofBits_injective hlength hburst)
  have hdegree : burst.degree < w := by
    rw [degree_lt_iff_coeff_zero]
    intro d hd
    rw [← coeff_X_pow_mul burst (as.length - (k + w)) d, ← hburst]
    by_cases hlt : d + (as.length - (k + w)) < as.length
    · apply coeff_sub_ofBits hlength
      by_contra hdiffer
      have hi := hwindow _ hdiffer
      omega
    · rw [coeff_sub, coeff_ofBits, coeff_ofBits, ← hlength]
      simp [hlt]
  rw [hburst, ← mul_assoc, ← pow_add]
  exact not_generator_dvd hw hg hburst_ne hdegree _

end EmbeddedLinuxTraining.Library.Crc
