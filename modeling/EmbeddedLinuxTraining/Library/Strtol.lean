import Mathlib.Data.List.TakeWhile
import Mathlib.Data.Int.Notation

namespace EmbeddedLinuxTraining.Library.Strtol

def isspace (b : UInt8) : Bool := b = 32 ∨ 9 ≤ b ∧ b ≤ 13

def isdigit (b : UInt8) : Bool := 48 ≤ b ∧ b ≤ 57

def PLUS : UInt8 := 43

def MINUS : UInt8 := 45

def digitsValue (digits : List UInt8) : ℕ := digits.foldl (fun n d => 10 * n + (d.toNat - 48)) 0

def signed (negative : Bool) (n : ℕ) : ℤ := if negative then -n else n

def splitSign : List UInt8 → Bool × List UInt8
  | [] => (false, [])
  | b :: rest => if b = PLUS then (false, rest) else if b = MINUS then (true, rest) else (false, b :: rest)

def subject (text : List UInt8) : Option (ℤ × List UInt8) :=
  let r := splitSign (text.dropWhile isspace)
  if r.2.takeWhile isdigit = [] then none
  else some (signed r.1 (digitsValue (r.2.takeWhile isdigit)), r.2.dropWhile isdigit)

/-- `endptr` is an offset into the text; `erange` when `errno` is set to ERANGE. -/
structure Result where
  val : Int64
  endptr : ℕ
  erange : Bool
  deriving DecidableEq

def strtol (text : List UInt8) : Result :=
  match subject text with
  | none => ⟨0, 0, false⟩
  | some (value, rest) =>
    let endptr := text.length - rest.length
    if value < Int64.minValue.toInt then ⟨Int64.minValue, endptr, true⟩
    else if Int64.maxValue.toInt < value then ⟨Int64.maxValue, endptr, true⟩
    else ⟨Int64.ofInt value, endptr, false⟩

inductive Sign : List UInt8 → Bool → Prop
  | absent : Sign [] false
  | plus : Sign [PLUS] false
  | minus : Sign [MINUS] true

def Numeral (text : List UInt8) (value : ℤ) : Prop :=
  ∃ spaces sign negative digits, text = spaces ++ (sign ++ digits) ∧ (∀ b ∈ spaces, isspace b = true) ∧
    Sign sign negative ∧ digits ≠ [] ∧ (∀ b ∈ digits, isdigit b = true) ∧
    value = signed negative (digitsValue digits)

variable {text spaces sign digits rest : List UInt8} {negative : Bool} {value : ℤ} {b : UInt8}

theorem isdigit_bounds (h : isdigit b = true) : 48 ≤ b.toNat ∧ b.toNat ≤ 57 := by
  simpa [isdigit, UInt8.le_iff_toNat_le] using h

theorem not_isspace_of_isdigit (h : isdigit b = true) : isspace b = false := by
  obtain ⟨hlo, hhi⟩ := isdigit_bounds h
  have hne : b ≠ 32 := by
    rintro rfl
    exact absurd hlo (by decide)
  simp only [isspace, hne, UInt8.le_iff_toNat_le, false_or, decide_eq_false_iff_not]
  rintro ⟨-, hle⟩
  have hle' : b.toNat ≤ 13 := hle
  omega

theorem splitSign_append (hsign : Sign sign negative) (hdigits : ∀ b ∈ digits, isdigit b = true) :
    splitSign (sign ++ digits) = (negative, digits) := by
  cases hsign with
  | absent =>
    cases digits with
    | nil => rfl
    | cons d digits =>
      obtain ⟨hlo, hhi⟩ := isdigit_bounds (hdigits d List.mem_cons_self)
      have hplus : d ≠ PLUS := by
        rintro rfl
        exact absurd hlo (by decide)
      have hminus : d ≠ MINUS := by
        rintro rfl
        exact absurd hlo (by decide)
      simp [splitSign, hplus, hminus]
  | plus => rfl
  | minus => rfl

theorem dropWhile_isspace (hspaces : ∀ b ∈ spaces, isspace b = true) (hsign : Sign sign negative)
    (hne : digits ≠ []) (hdigits : ∀ b ∈ digits, isdigit b = true) :
    (spaces ++ (sign ++ digits)).dropWhile isspace = sign ++ digits := by
  rw [List.dropWhile_append_of_pos hspaces]
  cases hsign with
  | absent =>
    cases digits with
    | nil => exact absurd rfl hne
    | cons d digits =>
      have hd := not_isspace_of_isdigit (hdigits d List.mem_cons_self)
      simp [hd]
  | plus => rfl
  | minus => rfl

theorem Numeral.subject (h : Numeral text value) : subject text = some (value, []) := by
  obtain ⟨spaces, sign, negative, digits, rfl, hspaces, hsign, hne, hdigits, rfl⟩ := h
  have htake : digits.takeWhile isdigit = digits := List.takeWhile_eq_self_iff.mpr hdigits
  have hdrop : digits.dropWhile isdigit = [] := List.dropWhile_eq_nil_iff.mpr hdigits
  rw [Strtol.subject, dropWhile_isspace hspaces hsign hne hdigits, splitSign_append hsign hdigits]
  simp only [htake, hdrop, hne, if_false]

theorem splitSign_eq (text : List UInt8) :
    ∃ sign, Sign sign (splitSign text).1 ∧ text = sign ++ (splitSign text).2 := by
  cases text with
  | nil => exact ⟨[], .absent, rfl⟩
  | cons b rest =>
    rw [splitSign]
    split_ifs with hplus hminus
    · exact ⟨[b], hplus ▸ .plus, rfl⟩
    · exact ⟨[b], hminus ▸ .minus, rfl⟩
    · exact ⟨[], .absent, rfl⟩

theorem exists_numeral (h : subject text = some (value, rest)) :
    ∃ front, front ≠ [] ∧ text = front ++ rest ∧ Numeral front value := by
  unfold subject at h
  obtain ⟨hne, h⟩ := Option.ite_none_left_eq_some.mp h
  obtain ⟨sign, hsign, htext⟩ := splitSign_eq (text.dropWhile isspace)
  cases h
  refine ⟨text.takeWhile isspace ++ (sign ++ (splitSign (text.dropWhile isspace)).2.takeWhile isdigit),
    ?_, ?_, ?_⟩
  · simp [hne]
  · rw [List.append_assoc, List.append_assoc, List.takeWhile_append_dropWhile, ← htext,
      List.takeWhile_append_dropWhile]
  · refine ⟨_, sign, _, _, rfl, ?_, hsign, hne, ?_, rfl⟩
    · intro b hb
      exact List.mem_takeWhile_imp hb
    · intro b hb
      exact List.mem_takeWhile_imp hb

theorem numeral_iff : Numeral text value ↔ subject text = some (value, []) := by
  constructor
  · exact Numeral.subject
  · intro h
    obtain ⟨front, -, rfl, hfront⟩ := exists_numeral h
    rwa [List.append_nil]

theorem Numeral.unique {value' : ℤ} (h : Numeral text value) (h' : Numeral text value') : value = value' := by
  have hboth := h.subject.symm.trans h'.subject
  cases hboth
  rfl

end EmbeddedLinuxTraining.Library.Strtol
