import EmbeddedLinuxTraining.Library.Json

namespace EmbeddedLinuxTraining.Library.Json

open Ascii

variable {s r y : List UInt8} {j : Json} {ms : List (List Char × Json)} {name : List Char} {b : UInt8}

def IsNumeric (b : UInt8) : Prop := 48 ≤ b.toNat ∧ b.toNat ≤ 57 ∨ b ∈ bytes ['-', '+', '.', 'e', 'E']

instance (b : UInt8) : Decidable (IsNumeric b) := inferInstanceAs (Decidable (_ ∨ _))

theorem numeric_digits {ds : List Char} (h : ∀ d ∈ ds, d.isDigit = true) : ∀ b ∈ bytes ds, IsNumeric b := by
  intro b hb
  obtain ⟨d, hd, rfl⟩ := List.mem_map.mp hb
  have hdigit := h d hd
  simp only [Char.isDigit, Bool.and_eq_true, decide_eq_true_eq] at hdigit
  have hrange : 48 ≤ d.toNat ∧ d.toNat ≤ 57 := hdigit
  left
  rw [toNat_byte (by omega)]
  exact hrange

theorem numeric_append {cs ds : List Char} (hcs : ∀ b ∈ bytes cs, IsNumeric b)
    (hds : ∀ b ∈ bytes ds, IsNumeric b) : ∀ b ∈ bytes (cs ++ ds), IsNumeric b := by
  rw [bytes_append]
  intro b hb
  obtain hb | hb := List.mem_append.mp hb
  · exact hcs b hb
  · exact hds b hb

theorem numeric_sign {c : Char} (hc : c ∈ ['-', '+', '.', 'e', 'E']) : ∀ b ∈ bytes [c], IsNumeric b := by
  intro b hb
  rw [List.mem_singleton.mp hb]
  exact .inr (List.mem_map_of_mem hc)

theorem Fraction.numeric {fs ds : List Char} (h : Fraction fs ds) : ∀ b ∈ bytes fs, IsNumeric b := by
  cases h with
  | none =>
    intro b hb
    cases hb
  | some hds => exact numeric_append (numeric_sign (c := '.') (by decide)) (numeric_digits hds.digit)

theorem Exponent.numeric {es : List Char} {e : ℤ} (h : Exponent es e) : ∀ b ∈ bytes es, IsNumeric b := by
  have hmark {c : Char} (hc : c = 'e' ∨ c = 'E') : ∀ b ∈ bytes [c], IsNumeric b := by
    apply numeric_sign
    obtain rfl | rfl := hc <;> decide
  cases h with
  | none =>
    intro b hb
    cases hb
  | plain hc hds => exact numeric_append (hmark hc) (numeric_digits hds.digit)
  | plus hc hds =>
    apply numeric_append (hmark hc)
    exact numeric_append (numeric_sign (c := '+') (by decide)) (numeric_digits hds.digit)
  | minus hc hds =>
    apply numeric_append (hmark hc)
    exact numeric_append (numeric_sign (c := '-') (by decide)) (numeric_digits hds.digit)

theorem Number.numeric {text : List Char} {m e : ℤ} (h : Number text m e) :
    ∀ b ∈ bytes text, IsNumeric b := by
  cases h with
  | positive hi hf he =>
    exact numeric_append (numeric_append (numeric_digits hi.digit) hf.numeric) he.numeric
  | negative hi hf he =>
    apply numeric_append (numeric_sign (c := '-') (by decide))
    exact numeric_append (numeric_append (numeric_digits hi.digit) hf.numeric) he.numeric

theorem head_toDigits (n : ℕ) (h : (Nat.toDigits 10 n).head? = some '0') : Nat.toDigits 10 n = ['0'] := by
  induction n using Nat.strongRecOn with
  | _ n ih =>
    by_cases hn : n < 10
    · rw [Nat.toDigits_of_lt_base hn] at h ⊢
      rw [Option.some.inj h]
    · have hle := Nat.le_of_not_lt hn
      rw [Nat.toDigits_of_base_le (by omega) hle, List.head?_append_of_ne_nil _ Nat.toDigits_ne_nil] at h
      have hzero := ih (n / 10) (Nat.div_lt_self (by omega) (by omega)) h
      have hvalue := congrArg (fun ds => Nat.ofDigitChars 10 ds 0) hzero
      simp only [Nat.ofDigitChars_ten_toDigits] at hvalue
      have hdiv : n / 10 = 0 := hvalue
      omega

theorem integer_toDigits (n : ℕ) : Integer (Nat.toDigits 10 n) := by
  refine ⟨⟨Nat.toDigits_ne_nil, ?_⟩, head_toDigits n⟩
  intro d hd
  exact Nat.isDigit_of_mem_toDigits (by omega) (by omega) hd

theorem number_repr (n : ℤ) : Number n.repr.toList n 0 := by
  cases n with
  | ofNat m =>
    have h := Number.positive (integer_toDigits m) .none .none
    simp only [List.append_nil, Nat.ofDigitChars_ten_toDigits, List.length_nil] at h
    change Number m.repr.toList m 0
    rw [Nat.toList_repr]
    exact h
  | negSucc m =>
    have h := Number.negative (integer_toDigits (m + 1)) .none .none
    simp only [List.append_nil, Nat.ofDigitChars_ten_toDigits, List.length_nil] at h
    change Number ("-" ++ m.succ.repr).toList _ 0
    rw [String.toList_append, Nat.toList_repr]
    exact h

theorem Number.head {text : List Char} {m e : ℤ} (h : Number text m e) :
    ∃ b bs, bytes text = b :: bs ∧ IsNumeric b := by
  have hnumeric := h.numeric
  have hne : text ≠ [] := by
    cases h with
    | positive hi =>
      apply List.append_ne_nil_of_left_ne_nil
      exact List.append_ne_nil_of_left_ne_nil hi.nonempty _
    | negative => exact List.cons_ne_nil _ _
  obtain ⟨c, cs, rfl⟩ := List.exists_cons_of_ne_nil hne
  exact ⟨_, _, rfl, hnumeric _ List.mem_cons_self⟩

theorem Value.of_quote (h : Value (QUOTE :: s) j r) : ∃ cs, j = .string cs ∧ Str s cs r := by
  generalize hinput : QUOTE :: s = input at h
  cases h with
  | string hs =>
    rw [(List.cons.inj hinput).2]
    exact ⟨_, rfl, hs⟩
  | number hn =>
    obtain ⟨b, bs, hbytes, hb⟩ := hn.head
    rw [hbytes] at hinput
    rw [← (List.cons.inj hinput).1] at hb
    exact absurd hb (by decide)
  | null | true | false | emptyArray | array | emptyObject | object =>
    exact absurd (List.cons.inj hinput).1 (by decide)

theorem Value.of_number {text : List Char} {m e : ℤ} (htext : Number text m e) (hb : ¬ IsNumeric b)
    (h : Value (bytes text ++ b :: y) j r) (hr : ∀ b' s', r = b' :: s' → ¬ IsNumeric b') : r = b :: y := by
  obtain ⟨d, ds, hbytes, hd⟩ := htext.head
  have hall := htext.numeric
  generalize hinput : bytes text ++ b :: y = input at h
  cases h with
  | number hn =>
    have hnot : b ∉ bytes _ := fun hmem => hb (hn.numeric b hmem)
    obtain ⟨w, hw, rfl⟩ := append_cut hnot hinput.symm
    cases w with
    | nil => rfl
    | cons b' w =>
      apply absurd _ (hr b' _ rfl)
      apply hall
      rw [hw]
      exact List.mem_append_right _ List.mem_cons_self
  | null | true | false | string | emptyArray | array | emptyObject | object =>
    rw [hbytes] at hinput
    rw [(List.cons.inj hinput).1] at hd
    exact absurd hd (by decide)

def After (s : List UInt8) (ms : List (List Char × Json)) (r : List UInt8) : Prop :=
  (ms = [] ∧ Ws s (RBRACE :: r)) ∨ ∃ s', Ws s (COMMA :: s') ∧ Members s' ms r

theorem After.head (h : After s ms r) : ∃ b' s', s = b' :: s' ∧ (IsSpace b' ∨ b' = RBRACE ∨ b' = COMMA) := by
  obtain ⟨-, hws⟩ | ⟨s', hws, -⟩ := h
  · obtain ⟨b', t, rfl, hb⟩ := hws.head
    exact ⟨b', t, rfl, hb.imp_right .inl⟩
  · obtain ⟨b', t, rfl, hb⟩ := hws.head
    exact ⟨b', t, rfl, hb.imp_right .inr⟩

theorem After.of_comma (h : After (COMMA :: s) ms r) : Members s ms r := by
  have hspace : ¬ IsSpace COMMA := by decide
  obtain ⟨-, hws⟩ | ⟨s', hws, hms⟩ := h
  · exact absurd (List.cons.inj (hws.stop hspace)).1 (by decide)
  · rw [← (List.cons.inj (hws.stop hspace)).2]
    exact hms

theorem Members.of_name (hname : Plain name) (hb : ¬ IsSpace b)
    (h : Members (QUOTE :: (bytes name ++ QUOTE :: COLON :: b :: y)) ms r) :
    ∃ j ms' t, ms = (name, j) :: ms' ∧ Value (b :: y) j t ∧ After t ms' r := by
  have hquote : ¬ IsSpace QUOTE := by decide
  have hcolon : ¬ IsSpace COLON := by decide
  have hread {s₁ s₂ s₃ s₄ : List UInt8} {k : List Char}
      (h₁ : Ws (QUOTE :: (bytes name ++ QUOTE :: COLON :: b :: y)) (QUOTE :: s₁)) (hk : Str s₁ k s₂)
      (h₂ : Ws s₂ (COLON :: s₃)) (h₃ : Ws s₃ s₄) : k = name ∧ s₄ = b :: y := by
    rw [(List.cons.inj (h₁.stop hquote)).2] at hk
    obtain ⟨rfl, rfl⟩ := hk.of_plain hname
    rw [(List.cons.inj (h₂.stop hcolon)).2] at h₃
    exact ⟨rfl, h₃.stop hb⟩
  cases h with
  | last h₁ hk h₂ h₃ hv h₅ =>
    obtain ⟨rfl, rfl⟩ := hread h₁ hk h₂ h₃
    exact ⟨_, [], _, rfl, hv, .inl ⟨rfl, h₅⟩⟩
  | cons h₁ hk h₂ h₃ hv h₅ hms =>
    obtain ⟨rfl, rfl⟩ := hread h₁ hk h₂ h₃
    exact ⟨_, _, _, rfl, hv, .inr ⟨_, h₅, hms⟩⟩

theorem Members.of_string (hname : Plain name)
    (h : Members (QUOTE :: (bytes name ++ QUOTE :: COLON :: QUOTE :: y)) ms r) :
    ∃ cs ms' t, ms = (name, .string cs) :: ms' ∧ Str y cs t ∧ After t ms' r := by
  obtain ⟨j, ms', t, rfl, hv, hafter⟩ := h.of_name hname (by decide)
  obtain ⟨cs, rfl, hs⟩ := hv.of_quote
  exact ⟨cs, ms', t, rfl, hs, hafter⟩

theorem Members.of_plain {value : List Char} (hname : Plain name) (hvalue : Plain value)
    (h : Members (QUOTE :: (bytes name ++ QUOTE :: COLON :: QUOTE :: (bytes value ++ QUOTE :: COMMA :: y)))
      ms r) :
    ∃ ms', ms = (name, .string value) :: ms' ∧ Members y ms' r := by
  obtain ⟨cs, ms', t, rfl, hs, hafter⟩ := h.of_string hname
  obtain ⟨rfl, rfl⟩ := hs.of_plain hvalue
  exact ⟨ms', rfl, hafter.of_comma⟩

theorem Members.of_number {text : List Char} {m e : ℤ} (hname : Plain name) (htext : Number text m e)
    (h : Members (QUOTE :: (bytes name ++ QUOTE :: COLON :: (bytes text ++ COMMA :: y))) ms r) :
    ∃ j ms', ms = (name, j) :: ms' ∧ Members y ms' r := by
  obtain ⟨d, ds, hbytes, hd⟩ := htext.head
  have hspace : ¬ IsSpace d := by
    intro hs
    obtain rfl | rfl | rfl | rfl := hs <;> exact absurd hd (by decide)
  rw [hbytes, List.cons_append] at h
  obtain ⟨j, ms', t, rfl, hv, hafter⟩ := h.of_name hname hspace
  rw [← List.cons_append, ← hbytes] at hv
  have ht : t = COMMA :: y := by
    apply hv.of_number htext (by decide)
    rintro b' s' rfl
    obtain ⟨b'', s'', he, hb⟩ := hafter.head
    obtain ⟨rfl, -⟩ := List.cons.inj he
    obtain (rfl | rfl | rfl | rfl) | rfl | rfl := hb <;> decide
  rw [ht] at hafter
  exact ⟨j, ms', rfl, hafter.of_comma⟩

theorem Text.of_members (h : Text (LBRACE :: QUOTE :: s) (.object ms)) : ∃ r, Members (QUOTE :: s) ms r := by
  obtain ⟨s₁, s₂, hws, hv, -⟩ := h
  rw [hws.stop (by decide)] at hv
  generalize hinput : LBRACE :: QUOTE :: s = input at hv
  cases hv with
  | emptyObject hclose =>
    rw [← (List.cons.inj hinput).2] at hclose
    exact absurd (List.cons.inj (hclose.stop (by decide))).1 (by decide)
  | object hms =>
    rw [(List.cons.inj hinput).2]
    exact ⟨_, hms⟩

theorem Text.mk_members (h : Members s ms []) : Text (LBRACE :: s) (.object ms) :=
  ⟨_, _, .done _, .object h, .done _⟩

theorem Members.mk_cons (hname : Plain name) (hv : Value s j (COMMA :: y)) (hms : Members y ms r) :
    Members (QUOTE :: (bytes name ++ QUOTE :: COLON :: s)) ((name, j) :: ms) r := by
  have hkey := Str.mk_plain hname.2 (COLON :: s)
  rw [octets_bytes hname.1] at hkey
  exact .cons (.done _) hkey (.done _) (.done _) hv (.done _) hms

theorem Members.mk_last (hname : Plain name) (hv : Value s j (RBRACE :: r)) :
    Members (QUOTE :: (bytes name ++ QUOTE :: COLON :: s)) [(name, j)] r := by
  have hkey := Str.mk_plain hname.2 (COLON :: s)
  rw [octets_bytes hname.1] at hkey
  exact .last (.done _) hkey (.done _) (.done _) hv (.done _)

end EmbeddedLinuxTraining.Library.Json
