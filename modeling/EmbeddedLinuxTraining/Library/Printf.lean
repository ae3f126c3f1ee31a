import Mathlib.Data.List.DropRight
import EmbeddedLinuxTraining.Library.Binary64
import EmbeddedLinuxTraining.Library.JsonObject

namespace EmbeddedLinuxTraining.Library.Printf

open Ascii Binary64 Json

def significant (precision a b : ℕ) : ℕ × ℤ :=
  let x := leading 10 a b
  let q := scaled 10 a b (x - (precision - 1 : ℕ))
  let digits := roundDiv q.1 q.2
  if digits = 10 ^ precision then (10 ^ (precision - 1), x + 1) else (digits, x)

def fraction (digits : List Char) : List Char :=
  if digits.rdropWhile (· = '0') = [] then [] else '.' :: digits.rdropWhile (· = '0')

def exponent (x : ℤ) : List Char :=
  let digits := Nat.toDigits 10 x.natAbs
  ['e', if x < 0 then '-' else '+'] ++ (List.replicate (2 - digits.length) '0' ++ digits)

/-- `a / b` in the style of `%e`, or in that of `%f` if the exponent is neither below -4 nor the precision -/
def general (precision a b : ℕ) : List Char :=
  if a = 0 then ['0']
  else
    let x := (significant precision a b).2
    let digits := Nat.toDigits 10 (significant precision a b).1
    if x < -4 ∨ precision ≤ x then digits.take 1 ++ fraction (digits.drop 1) ++ exponent x
    else if x < 0 then '0' :: fraction (List.replicate (-x - 1).toNat '0' ++ digits)
    else digits.take (x + 1).toNat ++ fraction (digits.drop (x + 1).toNat)

def formatG (precision : ℕ) : Extended → List Char
  | .finite s e =>
    (if s < 0 then ['-'] else []) ++ general precision (s.natAbs * 2 ^ e.toNat) (2 ^ (-e).toNat)
  | .infinite negative => (if negative then ['-'] else []) ++ ['i', 'n', 'f']
  | .nan => ['n', 'a', 'n']

variable {precision a b : ℕ} {s e x : ℤ} {digits : List Char}

theorem significant_lt (hprecision : 0 < precision) (hb : 0 < b) :
    (significant precision a b).1 < 10 ^ precision := by
  have hle : roundDiv (scaled 10 a b (leading 10 a b - (precision - 1 : ℕ))).1
      (scaled 10 a b (leading 10 a b - (precision - 1 : ℕ))).2 ≤ 10 ^ precision :=
    roundDiv_scaled_le (by decide) hb (by omega)
  simp only [significant]
  split_ifs with hcarry
  · exact Nat.pow_lt_pow_right (by decide) (by omega)
  · exact Nat.lt_of_le_of_ne hle hcarry

theorem significant_exponent (precision a b : ℕ) :
    leading 10 a b ≤ (significant precision a b).2 ∧ (significant precision a b).2 ≤ leading 10 a b + 1 := by
  simp only [significant]
  split_ifs
  · exact ⟨Int.le_add_one (le_refl _), le_refl _⟩
  · exact ⟨le_refl _, Int.le_add_one (le_refl _)⟩

theorem leading_double (hs : s ≠ 0) (h : (Extended.finite s e).Fits) :
    -1074 ≤ leading 10 (s.natAbs * 2 ^ e.toNat) (2 ^ (-e).toNat) ∧
      leading 10 (s.natAbs * 2 ^ e.toNat) (2 ^ (-e).toNat) < 1024 := by
  obtain ⟨-, hlo, hhi⟩ := h
  have hpow (n : ℕ) : 2 ^ n ≤ 10 ^ n := Nat.pow_le_pow_left (by decide) n
  have ha : 0 < s.natAbs * 2 ^ e.toNat := Nat.mul_pos (Int.natAbs_pos.mpr hs) (Nat.two_pow_pos _)
  have hb : 0 < 2 ^ (-e).toNat := Nat.two_pow_pos _
  constructor
  · apply neg_le_leading (n := 1074) (by decide) hb
    have hle : 2 ^ (-e).toNat ≤ 10 ^ 1074 :=
      (Nat.pow_le_pow_right (by decide) (by omega)).trans (hpow 1074)
    exact hle.trans (Nat.le_mul_of_pos_left _ ha)
  · apply leading_lt_natCast (n := 1024) (by decide) ha
    have hlt : s.natAbs * 2 ^ e.toNat < 2 ^ 1024 := mul_two_pow_lt hhi
    exact (hlt.trans_le (hpow 1024)).trans_le (Nat.le_mul_of_pos_left _ hb)

theorem length_fraction (digits : List Char) : (fraction digits).length ≤ digits.length + 1 := by
  have hle := (List.rdropWhile_prefix (p := fun c => decide (c = '0')) digits).length_le
  unfold fraction
  split_ifs
  · exact Nat.zero_le _
  · exact Nat.succ_le_succ hle

theorem length_exponent (h : x.natAbs < 10000) : (exponent x).length ≤ 6 := by
  have hle : (Nat.toDigits 10 x.natAbs).length ≤ 4 :=
    (Nat.length_toDigits_le_iff (by decide) (by decide)).mpr h
  simp only [exponent, List.length_append, List.length_cons, List.length_nil, List.length_replicate]
  omega

theorem length_general (hprecision : 4 ≤ precision) (hb : 0 < b)
    (h : (significant precision a b).2.natAbs < 10000) : (general precision a b).length ≤ precision + 7 := by
  have hdigits : (Nat.toDigits 10 (significant precision a b).1).length ≤ precision :=
    (Nat.length_toDigits_le_iff (by decide) (by omega)).mpr (significant_lt (by omega) hb)
  simp only [general]
  split_ifs with hzero hscientific hsmall
  · exact Nat.le_add_left 1 _
  · have hfraction := length_fraction ((Nat.toDigits 10 (significant precision a b).1).drop 1)
    have hexponent := length_exponent h
    simp only [List.length_append, List.length_take, List.length_drop] at hfraction ⊢
    omega
  · have hfraction := length_fraction (List.replicate (-(significant precision a b).2 - 1).toNat '0' ++
      Nat.toDigits 10 (significant precision a b).1)
    simp only [List.length_append, List.length_cons, List.length_replicate] at hfraction ⊢
    omega
  · have hfraction := length_fraction ((Nat.toDigits 10 (significant precision a b).1).drop
      ((significant precision a b).2 + 1).toNat)
    simp only [List.length_append, List.length_take, List.length_drop] at hfraction ⊢
    omega

theorem length_formatG (d : Double) (hprecision : 4 ≤ precision) :
    (formatG precision d.value).length ≤ precision + 8 := by
  obtain ⟨d, hfits⟩ := d
  cases d with
  | finite s e =>
    have hgeneral : (general precision (s.natAbs * 2 ^ e.toNat) (2 ^ (-e).toNat)).length ≤ precision + 7 := by
      by_cases hs : s = 0
      · rw [hs, general, Int.natAbs_zero, Nat.zero_mul, if_pos rfl]
        exact Nat.le_add_left 1 _
      · have hleading := leading_double hs hfits
        have hexponent := significant_exponent precision (s.natAbs * 2 ^ e.toNat) (2 ^ (-e).toNat)
        exact length_general hprecision (Nat.two_pow_pos _) (by omega)
    simp only [formatG, List.length_append]
    split_ifs <;> simp only [List.length_cons, List.length_nil] <;> omega
  | infinite negative =>
    cases negative <;> simp only [formatG, Bool.false_eq_true, if_true, if_false, List.length_append, List.length_cons,
      List.length_nil] <;> omega
  | nan =>
    simp only [formatG, List.length_cons, List.length_nil]
    omega

theorem isDigit_toDigits (n : ℕ) : ∀ d ∈ Nat.toDigits 10 n, d.isDigit = true := by
  intro d hd
  exact Nat.isDigit_of_mem_toDigits (by decide) (by decide) hd

theorem isDigit_replicate (n : ℕ) : ∀ d ∈ List.replicate n '0', d.isDigit = true := by
  intro d hd
  rw [List.eq_of_mem_replicate hd]
  rfl

theorem isDigit_append {ds : List Char} (h : ∀ d ∈ digits, d.isDigit = true) (h' : ∀ d ∈ ds, d.isDigit = true) :
    ∀ d ∈ digits ++ ds, d.isDigit = true :=
  List.forall_mem_append.mpr ⟨h, h'⟩

theorem numeric_fraction (h : ∀ d ∈ digits, d.isDigit = true) : ∀ b ∈ bytes (fraction digits), IsNumeric b := by
  unfold fraction
  split_ifs
  · intro b hb
    cases hb
  · have hkept : ∀ d ∈ digits.rdropWhile (· = '0'), d.isDigit = true :=
      fun d hd => h d ((List.rdropWhile_prefix _ _).subset hd)
    exact numeric_append (numeric_sign (c := '.') (by decide)) (numeric_digits hkept)

theorem numeric_exponent (x : ℤ) : ∀ b ∈ bytes (exponent x), IsNumeric b := by
  have hsign : (if x < 0 then '-' else '+') ∈ ['-', '+', '.', 'e', 'E'] := by
    split_ifs <;> decide
  have hdigits := isDigit_append (isDigit_replicate (2 - (Nat.toDigits 10 x.natAbs).length))
    (isDigit_toDigits x.natAbs)
  exact numeric_append (numeric_append (numeric_sign (c := 'e') (by decide)) (numeric_sign hsign))
    (numeric_digits hdigits)

theorem numeric_general (precision a b : ℕ) : ∀ c ∈ bytes (general precision a b), IsNumeric c := by
  have hdigits := isDigit_toDigits (significant precision a b).1
  have htake (n : ℕ) := numeric_digits fun d hd => hdigits d (List.mem_of_mem_take (i := n) hd)
  have hdrop (n : ℕ) := numeric_fraction fun d hd => hdigits d (List.mem_of_mem_drop (i := n) hd)
  have hzero : ∀ c ∈ bytes ['0'], IsNumeric c := numeric_digits (isDigit_replicate 1)
  simp only [general]
  split_ifs
  · exact hzero
  · exact numeric_append (numeric_append (htake 1) (hdrop 1)) (numeric_exponent _)
  · exact numeric_append hzero (numeric_fraction (isDigit_append (isDigit_replicate _) hdigits))
  · exact numeric_append (htake _) (hdrop _)

theorem numeric_formatG (precision : ℕ) (s e : ℤ) : ∀ b ∈ bytes (formatG precision (.finite s e)), IsNumeric b := by
  apply numeric_append _ (numeric_general _ _ _)
  split_ifs
  · exact numeric_sign (by decide)
  · intro b hb
    cases hb

end EmbeddedLinuxTraining.Library.Printf
