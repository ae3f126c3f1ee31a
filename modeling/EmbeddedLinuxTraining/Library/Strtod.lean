import Mathlib.Algebra.Group.Nat.Defs
import Mathlib.Algebra.Ring.Int.Defs
import EmbeddedLinuxTraining.Library.Binary64
import EmbeddedLinuxTraining.Library.JsonObject

/-!
Decimal numbers as `strtod` of C reads them, rounded to binary64. The texts have digits, signs, points
and the letter e only.
-/

namespace EmbeddedLinuxTraining.Library.Strtod

open Binary64 Strtol

def decimal (m e : ℤ) : Double := nearest (m < 0) (m.natAbs * 10 ^ e.toNat) (10 ^ (-e).toNat)

def POINT : UInt8 := 46

def LOWER_E : UInt8 := 101

def UPPER_E : UInt8 := 69

def fraction : List UInt8 → List UInt8 × List UInt8
  | [] => ([], [])
  | b :: rest => if b = POINT then (rest.takeWhile isdigit, rest.dropWhile isdigit) else ([], b :: rest)

def exponent : List UInt8 → ℤ × List UInt8
  | [] => (0, [])
  | b :: rest =>
    let r := splitSign rest
    if (b = LOWER_E ∨ b = UPPER_E) ∧ r.2.takeWhile isdigit ≠ [] then
      (signed r.1 (digitsValue (r.2.takeWhile isdigit)), r.2.dropWhile isdigit)
    else (0, b :: rest)

def strtod (text : List UInt8) : Option (Double × List UInt8) :=
  let r := splitSign (text.dropWhile isspace)
  let f := fraction (r.2.dropWhile isdigit)
  let digits := r.2.takeWhile isdigit ++ f.1
  if digits = [] then none
  else
    let x := exponent f.2
    some (decimal (signed r.1 (digitsValue digits)) (x.1 - f.1.length), x.2)

theorem decimal_mul {m e n : ℤ} (h : Json.IsInteger m e n) :
    ∃ b : ℕ, 0 < b ∧ decimal m e = nearest (n < 0) (n.natAbs * b) b := by
  refine ⟨10 ^ (-e).toNat, Nat.pow_pos (by omega), ?_⟩
  unfold Json.IsInteger at h
  split_ifs at h with he
  · have hzero : (-e).toNat = 0 := by omega
    have hpos : (0 : ℤ) < 10 ^ e.toNat := Int.pow_pos (by omega)
    have hneg : m < 0 ↔ n < 0 := by
      rw [← h]
      constructor
      · intro hm
        exact Int.mul_neg_of_neg_of_pos hm hpos
      · intro hn
        by_contra hm
        exact absurd (Int.mul_nonneg (Int.not_lt.mp hm) (Int.le_of_lt hpos)) (Int.not_le.mpr hn)
    have habs : n.natAbs = m.natAbs * 10 ^ e.toNat := by
      rw [← h, Int.natAbs_mul, Int.natAbs_pow]
      rfl
    simp only [decimal, hzero, Nat.pow_zero, Nat.mul_one, habs, hneg]
  · have hzero : e.toNat = 0 := by omega
    have hpos : (0 : ℤ) < 10 ^ (-e).toNat := Int.pow_pos (by omega)
    have hneg : m < 0 ↔ n < 0 := by
      rw [h]
      constructor
      · intro hm
        by_contra hn
        exact absurd (Int.mul_nonneg (Int.not_lt.mp hn) (Int.le_of_lt hpos)) (Int.not_le.mpr hm)
      · intro hn
        exact Int.mul_neg_of_neg_of_pos hn hpos
    have habs : m.natAbs = n.natAbs * 10 ^ (-e).toNat := by
      rw [h, Int.natAbs_mul, Int.natAbs_pow]
      rfl
    simp only [decimal, hzero, Nat.pow_zero, Nat.mul_one, habs, hneg]

theorem signed_natAbs (n : ℤ) (t : ℕ) : signed (n < 0) (n.natAbs * t : ℕ) = n * t := by
  unfold signed
  simp only [decide_eq_true_eq, Int.natCast_mul]
  split_ifs with hn
  · rw [← Int.neg_mul]
    congr 1
    omega
  · congr 1
    omega

theorem decimal_cases {m e n : ℤ} (h : Json.IsInteger m e n) :
    (∃ j : ℕ, (decimal m e).value = .finite (n * (2 ^ j : ℕ)) (-j)) ∨
      (2 ^ 53 ≤ n.natAbs ∧ ((decimal m e).value = .infinite (n < 0) ∨
        ∃ s k : ℕ, 2 ^ 53 ≤ s * 2 ^ k ∧ (decimal m e).value = .finite (signed (n < 0) s) k)) := by
  obtain ⟨b, hb, hdecimal⟩ := decimal_mul h
  rw [hdecimal]
  by_cases hle : 2 ^ 53 ≤ n.natAbs
  · right
    exact ⟨hle, nearest_large _ hle hb⟩
  · left
    by_cases hzero : n = 0
    · refine ⟨0, ?_⟩
      simp [hzero, nearest, nearestExtended]
    · obtain ⟨j, hj⟩ := nearest_small (n < 0) (Int.natAbs_pos.mpr hzero) (Nat.not_le.mp hle) hb
      refine ⟨j, ?_⟩
      rw [hj, signed_natAbs]

theorem length_span (p : UInt8 → Bool) (text : List UInt8) :
    (text.takeWhile p).length + (text.dropWhile p).length = text.length := by
  rw [← List.length_append, List.takeWhile_append_dropWhile]

theorem length_splitSign (text : List UInt8) : (splitSign text).2.length ≤ text.length := by
  obtain ⟨sign, -, htext⟩ := splitSign_eq text
  have hlength := congrArg List.length htext
  rw [List.length_append] at hlength
  omega

theorem length_fraction (text : List UInt8) :
    (fraction text).1.length + (fraction text).2.length ≤ text.length := by
  cases text with
  | nil => exact Nat.le_refl 0
  | cons b rest =>
    have hspan := length_span isdigit rest
    simp only [fraction]
    split_ifs
    · simp only [List.length_cons]
      omega
    · simp

theorem length_exponent (text : List UInt8) : (exponent text).2.length ≤ text.length := by
  cases text with
  | nil => exact Nat.le_refl 0
  | cons b rest =>
    have hspan := length_span isdigit (splitSign rest).2
    have hsign := length_splitSign rest
    simp only [exponent]
    split_ifs
    · simp only [List.length_cons]
      omega
    · exact Nat.le_refl _

theorem length_strtod {text rest : List UInt8} {number : Double} (h : strtod text = some (number, rest)) :
    rest.length < text.length := by
  unfold strtod at h
  obtain ⟨hne, h⟩ := Option.ite_none_left_eq_some.mp h
  cases h
  have hspaces := length_span isspace text
  have hsign := length_splitSign (text.dropWhile isspace)
  have hdigits := length_span isdigit (splitSign (text.dropWhile isspace)).2
  have hfraction := length_fraction ((splitSign (text.dropWhile isspace)).2.dropWhile isdigit)
  have hexponent := length_exponent (fraction ((splitSign (text.dropWhile isspace)).2.dropWhile isdigit)).2
  have hpos := List.length_pos_iff.mpr hne
  rw [List.length_append] at hpos
  omega

section JsonNumber

open Ascii Json

variable {ds fs es text : List Char} {m e : ℤ} {rest : List UInt8}

theorem strtod_eq_none {text : List UInt8} :
    strtod text = none ↔ (splitSign (text.dropWhile isspace)).2.takeWhile isdigit = [] ∧
      (fraction ((splitSign (text.dropWhile isspace)).2.dropWhile isdigit)).1 = [] := by
  simp only [strtod]
  split_ifs with h
  · simpa using h
  · simpa using h

theorem takeWhile_append_ne_nil {p : UInt8 → Bool} {s : List UInt8} (h : s.takeWhile p ≠ []) (u : List UInt8) :
    (s ++ u).takeWhile p ≠ [] := by
  rw [List.takeWhile_append]
  split_ifs
  · intro hnil
    rw [(List.append_eq_nil_iff.mp hnil).1] at h
    exact h rfl
  · exact h

theorem strtod_append {text : List UInt8} (h : strtod text ≠ none) (u : List UInt8) : strtod (text ++ u) ≠ none := by
  intro hnone
  apply h
  rw [strtod_eq_none] at hnone ⊢
  have hdrop : (text ++ u).dropWhile isspace = text.dropWhile isspace ++ u ∨ text.dropWhile isspace = [] := by
    rw [List.dropWhile_append]
    cases text.dropWhile isspace with
    | nil => exact .inr rfl
    | cons b rest => exact .inl rfl
  obtain hdrop | hnil := hdrop
  · rw [hdrop] at hnone
    cases hrest : text.dropWhile isspace with
    | nil => exact ⟨rfl, rfl⟩
    | cons b rest =>
      have hsign : (splitSign (b :: rest ++ u)).2 = (splitSign (b :: rest)).2 ++ u := by
        rw [List.cons_append, splitSign, splitSign]
        split_ifs <;> rfl
      rw [hrest, hsign] at hnone
      obtain ⟨hdigits, hfraction⟩ := hnone
      have hfront : (splitSign (b :: rest)).2.takeWhile isdigit = [] := by
        by_contra hne
        exact takeWhile_append_ne_nil hne u hdigits
      refine ⟨hfront, ?_⟩
      cases hw : (splitSign (b :: rest)).2 with
      | nil => rfl
      | cons c w =>
        rw [hw] at hfront hdigits hfraction
        have hc : isdigit c = false := by
          by_contra hdigit
          rw [Bool.not_eq_false] at hdigit
          rw [List.takeWhile_cons_of_pos hdigit] at hfront
          cases hfront
        rw [List.cons_append] at hfraction
        rw [List.dropWhile_cons_of_neg (by rw [hc]; decide)] at hfraction ⊢
        rw [fraction] at hfraction ⊢
        split_ifs with hpoint
        · rw [if_pos hpoint] at hfraction
          by_contra hne
          exact takeWhile_append_ne_nil hne u hfraction
        · rfl
  · rw [hnil]
    exact ⟨rfl, rfl⟩

theorem isdigit_byte {d : Char} (h : d.isDigit = true) :
    isdigit (UInt8.ofNat d.toNat) = true ∧ (UInt8.ofNat d.toNat).toNat = d.toNat := by
  simp only [Char.isDigit, Bool.and_eq_true, decide_eq_true_eq] at h
  have hrange : 48 ≤ d.toNat ∧ d.toNat ≤ 57 := h
  have hnat : (UInt8.ofNat d.toNat).toNat = d.toNat := toNat_byte (by omega)
  refine ⟨?_, hnat⟩
  simp only [isdigit, UInt8.le_iff_toNat_le, hnat, decide_eq_true_eq]
  exact hrange

theorem isdigit_bytes (h : ∀ d ∈ ds, d.isDigit = true) : ∀ b ∈ bytes ds, isdigit b = true := by
  intro b hb
  obtain ⟨d, hd, rfl⟩ := List.mem_map.mp hb
  exact (isdigit_byte (h d hd)).1

theorem digitsValue_bytes (h : ∀ d ∈ ds, d.isDigit = true) :
    digitsValue (bytes ds) = Nat.ofDigitChars 10 ds 0 := by
  have hfold (n : ℕ) : (bytes ds).foldl (fun n d => 10 * n + (d.toNat - 48)) n = Nat.ofDigitChars 10 ds n := by
    induction ds generalizing n with
    | nil => rfl
    | cons d ds ih =>
      obtain ⟨-, hnat⟩ := isdigit_byte (h d List.mem_cons_self)
      have hrest : ∀ d' ∈ ds, d'.isDigit = true := fun d' hd' => h d' (List.mem_cons_of_mem d hd')
      rw [Nat.ofDigitChars_cons, ← ih hrest]
      simp only [bytes, List.map_cons, List.foldl_cons]
      rw [hnat]
      rfl
  exact hfold 0

def Ended (rest : List UInt8) : Prop := ∀ b s, rest = b :: s → isdigit b = false

theorem span_digits (h : ∀ d ∈ ds, d.isDigit = true) (hrest : Ended rest) :
    (bytes ds ++ rest).takeWhile isdigit = bytes ds ∧ (bytes ds ++ rest).dropWhile isdigit = rest := by
  have hds := isdigit_bytes h
  rw [List.takeWhile_append_of_pos hds, List.dropWhile_append_of_pos hds]
  cases rest with
  | nil => exact ⟨List.append_nil _, rfl⟩
  | cons b s =>
    have hb := hrest b s rfl
    simp [hb]

theorem splitSign_digit {b : UInt8} (hb : isdigit b = true) : splitSign (b :: rest) = (false, b :: rest) := by
  have hplus : b ≠ PLUS := by
    rintro rfl
    exact absurd hb (by decide)
  have hminus : b ≠ MINUS := by
    rintro rfl
    exact absurd hb (by decide)
  simp [splitSign, hplus, hminus]

theorem bytes_ne_nil (h : ds ≠ []) : bytes ds ≠ [] := by
  simpa [bytes] using h

theorem splitSign_digits (h : Digits ds) : splitSign (bytes ds ++ rest) = (false, bytes ds ++ rest) := by
  obtain ⟨d, ds', rfl⟩ := List.exists_cons_of_ne_nil h.nonempty
  exact splitSign_digit (isdigit_byte (h.digit d List.mem_cons_self)).1

theorem ended_nil : Ended [] := by
  rintro b s ⟨⟩

theorem exponent_digits {b : UInt8} {negative : Bool} (hb : b = LOWER_E ∨ b = UPPER_E)
    (hrest : splitSign rest = (negative, bytes ds)) (h : Digits ds) :
    exponent (b :: rest) = (signed negative (Nat.ofDigitChars 10 ds 0), []) := by
  have hspan := span_digits h.digit ended_nil
  rw [List.append_nil] at hspan
  simp only [exponent, hrest, hspan, ne_eq, bytes_ne_nil h.nonempty, not_false_eq_true, and_true, hb, if_true,
    digitsValue_bytes h.digit]

theorem mark_byte {c : Char} (hc : c = 'e' ∨ c = 'E') :
    UInt8.ofNat c.toNat = LOWER_E ∨ UInt8.ofNat c.toNat = UPPER_E := by
  obtain rfl | rfl := hc
  · exact .inl rfl
  · exact .inr rfl

theorem exponent_bytes (h : Exponent es e) : exponent (bytes es) = (e, []) := by
  cases h with
  | none => rfl
  | plain hc hds =>
    have hsplit : splitSign (bytes _ ++ []) = _ := splitSign_digits hds
    rw [List.append_nil] at hsplit
    exact exponent_digits (mark_byte hc) hsplit hds
  | @plus _ ds hc hds =>
    have hsplit : splitSign (bytes ('+' :: ds)) = (false, bytes ds) := rfl
    exact exponent_digits (mark_byte hc) hsplit hds
  | @minus _ ds hc hds =>
    have hsplit : splitSign (bytes ('-' :: ds)) = (true, bytes ds) := rfl
    exact exponent_digits (mark_byte hc) hsplit hds

theorem ended_exponent (h : Exponent es e) : Ended (bytes es) ∧ ∀ b s, bytes es = b :: s → b ≠ POINT := by
  have hhead {c : Char} {cs : List Char} (hc : c = 'e' ∨ c = 'E') :
      Ended (bytes (c :: cs)) ∧ ∀ b s, bytes (c :: cs) = b :: s → b ≠ POINT := by
    constructor
    all_goals
      intro b s hs
      obtain ⟨rfl, -⟩ := List.cons.inj hs
      obtain rfl | rfl := hc <;> decide
  cases h with
  | none =>
    constructor
    all_goals
      intro b s hs
      cases hs
  | plain hc => exact hhead hc
  | plus hc => exact hhead hc
  | minus hc => exact hhead hc

theorem fraction_bytes (hf : Fraction fs ds) (he : Exponent es e) :
    fraction (bytes fs ++ bytes es) = (bytes ds, bytes es) ∧ Ended (bytes fs ++ bytes es) := by
  obtain ⟨hended, hpoint⟩ := ended_exponent he
  cases hf with
  | none =>
    refine ⟨?_, hended⟩
    change fraction (bytes es) = ([], bytes es)
    cases hes : bytes es with
    | nil => rfl
    | cons b s => simp [fraction, hpoint b s hes]
  | some hds =>
    have hspan := span_digits hds.digit hended
    constructor
    · exact Prod.ext hspan.1 hspan.2
    · rintro b s hs
      obtain ⟨rfl, -⟩ := List.cons.inj hs
      decide

theorem strtod_digits {is : List Char} (negative : Bool) (htext : splitSign (rest.dropWhile isspace) =
    (negative, bytes is ++ (bytes fs ++ bytes es))) (hi : Digits is) (hf : Fraction fs ds)
    (he : Exponent es e) :
    strtod rest = some (decimal (signed negative (Nat.ofDigitChars 10 (is ++ ds) 0)) (e - ds.length), []) := by
  obtain ⟨hfraction, hended⟩ := fraction_bytes hf he
  have hspan := span_digits hi.digit hended
  have hdigits : ∀ d ∈ is ++ ds, d.isDigit = true := by
    intro d hd
    obtain hd | hd := List.mem_append.mp hd
    · exact hi.digit d hd
    · cases hf with
      | none => cases hd
      | some hds => exact hds.digit d hd
  have hne : bytes (is ++ ds) ≠ [] := bytes_ne_nil (List.append_ne_nil_of_left_ne_nil hi.nonempty ds)
  rw [bytes_append] at hne
  have hvalue := digitsValue_bytes hdigits
  rw [bytes_append] at hvalue
  simp only [strtod, htext, hspan, hfraction, hne, if_false, hvalue, exponent_bytes he, length_bytes]

theorem not_isspace_digits (h : Digits ds) : (bytes ds ++ rest).dropWhile isspace = bytes ds ++ rest := by
  obtain ⟨d, ds', rfl⟩ := List.exists_cons_of_ne_nil h.nonempty
  have hd := not_isspace_of_isdigit (isdigit_byte (h.digit d List.mem_cons_self)).1
  simp [bytes, hd]

theorem strtod_number (h : Number text m e) : strtod (bytes text) = some (decimal m e, []) := by
  cases h with
  | positive hi hf he =>
    refine strtod_digits false ?_ hi.toDigits hf he
    rw [bytes_append, bytes_append, List.append_assoc, not_isspace_digits hi.toDigits,
      splitSign_digits hi.toDigits]
  | negative hi hf he =>
    refine strtod_digits true ?_ hi.toDigits hf he
    rw [← bytes_append, ← bytes_append, ← List.append_assoc]
    rfl

end JsonNumber

end EmbeddedLinuxTraining.Library.Strtod
