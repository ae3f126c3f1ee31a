import Mathlib.Algebra.Ring.Int.Defs
import EmbeddedLinuxTraining.Library.Strtol

/-!
`getInt` of time1.c.
-/

namespace EmbeddedLinuxTraining.Time1

open Library.Strtol

structure Argument where
  bytes : List UInt8
  nul : 0 ∉ bytes

def GN_GT_0 : Int32 := 0x01

def getInt (arg : Argument) (flags : Int32) (name : String) : Except String Int32 :=
  let r := strtol arg.bytes
  if r.erange ∨ r.endptr = 0 ∨ arg.bytes[r.endptr]?.getD 0 ≠ 0 then .error (name ++ " must be an integer\n")
  else if flags &&& GN_GT_0 ≠ 0 ∧ r.val ≤ 0 then .error (name ++ " must be > 0\n")
  else .ok r.val.toInt32

structure Accepted (arg : Argument) (flags : Int32) (value : ℤ) : Prop where
  numeral : Numeral arg.bytes value
  fits : Int64.minValue.toInt ≤ value ∧ value ≤ Int64.maxValue.toInt
  positive : flags &&& GN_GT_0 ≠ 0 → 0 < value

def Faithful (arg : Argument) (flags : Int32) (name : String) : Prop :=
  ∀ v, getInt arg flags name = .ok v →
    Numeral arg.bytes v.toInt ∧ (flags &&& GN_GT_0 ≠ 0 → 0 < v)

variable {arg : Argument} {flags : Int32} {name : String} {value : ℤ} {v : Int32}

theorem strtol_numeral (h : Numeral arg.bytes value)
    (hfits : Int64.minValue.toInt ≤ value ∧ value ≤ Int64.maxValue.toInt) :
    strtol arg.bytes = ⟨Int64.ofInt value, arg.bytes.length, false⟩ := by
  have hlo : ¬ value < Int64.minValue.toInt := by omega
  have hhi : ¬ Int64.maxValue.toInt < value := by omega
  rw [strtol, h.subject]
  simp only [hlo, hhi, if_false, List.length_nil, Nat.sub_zero]

theorem toInt_val (hfits : Int64.minValue.toInt ≤ value ∧ value ≤ Int64.maxValue.toInt) :
    (Int64.ofInt value).toInt = value := by
  obtain ⟨hlo, hhi⟩ := hfits
  rw [Int64.toInt_minValue] at hlo
  rw [Int64.toInt_maxValue] at hhi
  apply Int64.toInt_ofInt_of_le <;> omega

theorem positive_val (hfits : Int64.minValue.toInt ≤ value ∧ value ≤ Int64.maxValue.toInt) :
    Int64.ofInt value ≤ 0 ↔ ¬ 0 < value := by
  rw [Int64.le_iff_toInt_le, toInt_val hfits, Int64.toInt_zero]
  exact Int.not_lt.symm

theorem length_numeral_pos (h : Numeral arg.bytes value) : arg.bytes.length ≠ 0 := by
  intro hlength
  have hsubject := h.subject
  rw [List.length_eq_zero_iff.mp hlength] at hsubject
  cases hsubject

theorem numeral_of_strtol (hrange : (strtol arg.bytes).erange = false) (hend : (strtol arg.bytes).endptr ≠ 0)
    (hnul : arg.bytes[(strtol arg.bytes).endptr]?.getD 0 = 0) :
    ∃ value, Numeral arg.bytes value ∧ Int64.minValue.toInt ≤ value ∧ value ≤ Int64.maxValue.toInt := by
  cases hsubject : subject arg.bytes with
  | none =>
    rw [strtol, hsubject] at hend
    exact absurd rfl hend
  | some r =>
    obtain ⟨value, rest⟩ := r
    obtain ⟨front, hfront, hbytes, hnumeral⟩ := exists_numeral hsubject
    have hendptr : (strtol arg.bytes).endptr = front.length := by
      have hlength : arg.bytes.length - rest.length = front.length := by
        rw [hbytes, List.length_append, Nat.add_sub_cancel]
      rw [strtol, hsubject]
      simp only
      split_ifs
      · exact hlength
      · exact hlength
      · exact hlength
    have hrest : rest = [] := by
      cases rest with
      | nil => rfl
      | cons b rest =>
        rw [hendptr, hbytes, List.getElem?_append_right (Nat.le_refl _), Nat.sub_self] at hnul
        have hb : b = 0 := hnul
        have hmem : b ∈ arg.bytes := by
          rw [hbytes]
          exact List.mem_append_right _ List.mem_cons_self
        rw [hb] at hmem
        exact absurd hmem arg.nul
    rw [hrest, List.append_nil] at hbytes
    rw [hbytes]
    refine ⟨value, hnumeral, ?_⟩
    rw [strtol, hsubject] at hrange
    simp only at hrange
    split_ifs at hrange with hlo hhi
    omega

theorem getInt_ok_iff : getInt arg flags name = .ok v ↔
    ∃ value, Accepted arg flags value ∧ v = (Int64.ofInt value).toInt32 := by
  constructor
  · intro h
    unfold getInt at h
    simp only at h
    split_ifs at h with hbad hflag
    obtain ⟨hrange, hend, hnul⟩ : (strtol arg.bytes).erange = false ∧ (strtol arg.bytes).endptr ≠ 0 ∧
        arg.bytes[(strtol arg.bytes).endptr]?.getD 0 = 0 := by
      simpa using hbad
    obtain ⟨value, hnumeral, hfits⟩ := numeral_of_strtol hrange hend hnul
    rw [strtol_numeral hnumeral hfits] at h hflag
    rw [positive_val hfits] at hflag
    refine ⟨value, ⟨hnumeral, hfits, ?_⟩, ?_⟩
    · intro hset
      by_contra hpos
      exact hflag ⟨hset, hpos⟩
    · cases h
      rfl
  · rintro ⟨value, ⟨hnumeral, hfits, hpositive⟩, rfl⟩
    have hbad : ¬ (false = true ∨ arg.bytes.length = 0 ∨ arg.bytes[arg.bytes.length]?.getD 0 ≠ 0) := by
      simp [length_numeral_pos hnumeral]
    have hflag : ¬ (flags &&& GN_GT_0 ≠ 0 ∧ Int64.ofInt value ≤ 0) := by
      rintro ⟨hset, hle⟩
      exact (positive_val hfits).mp hle (hpositive hset)
    unfold getInt
    rw [strtol_numeral hnumeral hfits]
    simp only
    rw [if_neg hbad, if_neg hflag]

theorem toInt_toInt32 (hfits : Int64.minValue.toInt ≤ value ∧ value ≤ Int64.maxValue.toInt) :
    (Int64.ofInt value).toInt32.toInt = value ↔ -2 ^ 31 ≤ value ∧ value < 2 ^ 31 := by
  rw [Int64.toInt_toInt32, toInt_val hfits]
  constructor
  · intro h
    have hlo := Int.le_bmod (x := value) (m := 2 ^ 32) (by decide)
    have hhi := Int.bmod_lt (x := value) (m := 2 ^ 32) (by decide)
    rw [h] at hlo hhi
    omega
  · rintro ⟨hlo, hhi⟩
    apply Int.bmod_eq_of_le <;> omega

theorem getInt_faithful_iff (arg : Argument) (flags : Int32) (name : String) : Faithful arg flags name ↔
    ∀ value, Accepted arg flags value → -2 ^ 31 ≤ value ∧ value < 2 ^ 31 := by
  constructor
  · intro h value haccepted
    obtain ⟨hnumeral, -⟩ := h _ (getInt_ok_iff.mpr ⟨value, haccepted, rfl⟩)
    exact (toInt_toInt32 haccepted.fits).mp (hnumeral.unique haccepted.numeral)
  · intro h v hv
    obtain ⟨value, haccepted, rfl⟩ := getInt_ok_iff.mp hv
    have hvalue := (toInt_toInt32 haccepted.fits).mpr (h value haccepted)
    constructor
    · rw [hvalue]
      exact haccepted.numeral
    · intro hflag
      rw [Int32.lt_iff_toInt_lt, hvalue]
      exact haccepted.positive hflag

/-- The text `4294967297`, for which `getInt` returns 1 -/
def TWO_POW_32_PLUS_1 : Argument := ⟨[52, 50, 57, 52, 57, 54, 55, 50, 57, 55], by decide⟩

theorem not_faithful : ¬ ∀ (arg : Argument) (flags : Int32) (name : String), Faithful arg flags name := by
  intro h
  have hnumeral : Numeral TWO_POW_32_PLUS_1.bytes 4294967297 := numeral_iff.mpr rfl
  have hone : getInt TWO_POW_32_PLUS_1 GN_GT_0 "num-calls" = .ok 1 := by
    apply getInt_ok_iff.mpr
    exact ⟨4294967297, ⟨hnumeral, by decide, by decide⟩, by decide⟩
  obtain ⟨hread, -⟩ := h TWO_POW_32_PLUS_1 GN_GT_0 "num-calls" 1 hone
  exact absurd (hread.unique hnumeral) (by decide)

end EmbeddedLinuxTraining.Time1
