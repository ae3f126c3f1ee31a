import Mathlib.Algebra.Ring.Int.Defs
import EmbeddedLinuxTraining.Library.Ascii

/-!
The grammar of JSON over bytes in UTF-8. Each relation takes what it derives off the front of a text
and leaves the rest.
-/

namespace EmbeddedLinuxTraining.Library

def octets (cs : List Char) : List UInt8 := cs.flatMap String.utf8EncodeChar

namespace Json

def QUOTE : UInt8 := 34

def BACKSLASH : UInt8 := 92

def COMMA : UInt8 := 44

def COLON : UInt8 := 58

def LBRACE : UInt8 := 123

def RBRACE : UInt8 := 125

def LBRACKET : UInt8 := 91

def RBRACKET : UInt8 := 93

end Json

/-- A number is a mantissa and a power of ten. -/
inductive Json
  | null
  | bool (b : Bool)
  | number (mantissa exponent : ℤ)
  | string (cs : List Char)
  | array (elements : List Json)
  | object (members : List (List Char × Json))

namespace Json

open Ascii

def IsSpace (b : UInt8) : Prop := b = 32 ∨ b = 9 ∨ b = 10 ∨ b = 13

instance (b : UInt8) : Decidable (IsSpace b) := inferInstanceAs (Decidable (_ ∨ _))

inductive Ws : List UInt8 → List UInt8 → Prop
  | done (s : List UInt8) : Ws s s
  | skip {b : UInt8} {s r : List UInt8} : IsSpace b → Ws s r → Ws (b :: s) r

structure Unescaped (c : Char) : Prop where
  control : 32 ≤ c.toNat
  quote : c ≠ '"'
  backslash : c ≠ '\\'

def shortEscapes : List (Char × Char) :=
  [('"', '"'), ('\\', '\\'), ('/', '/'), ('b', Char.ofNat 8), ('f', Char.ofNat 12), ('n', Char.ofNat 10),
    ('r', Char.ofNat 13), ('t', Char.ofNat 9)]

def hexDigit (b : UInt8) : Option ℕ :=
  if 48 ≤ b.toNat ∧ b.toNat ≤ 57 then some (b.toNat - 48)
  else if 65 ≤ b.toNat ∧ b.toNat ≤ 70 then some (b.toNat - 55)
  else if 97 ≤ b.toNat ∧ b.toNat ≤ 102 then some (b.toNat - 87)
  else none

inductive Unit16 : List UInt8 → ℕ → Prop
  | mk {a b c d : UInt8} {i j k l : ℕ} : hexDigit a = some i → hexDigit b = some j → hexDigit c = some k →
      hexDigit d = some l → Unit16 [BACKSLASH, 117, a, b, c, d] (((i * 16 + j) * 16 + k) * 16 + l)

inductive Escape : List UInt8 → Char → Prop
  | short {l c : Char} : (l, c) ∈ shortEscapes → Escape (BACKSLASH :: bytes [l]) c
  | unit {e : List UInt8} {n : ℕ} : Unit16 e n → n < 0xD800 ∨ 0xE000 ≤ n → Escape e (Char.ofNat n)
  | pair {e f : List UInt8} {m n : ℕ} : Unit16 e (0xD800 + m) → m < 0x400 → Unit16 f (0xDC00 + n) → n < 0x400 →
      Escape (e ++ f) (Char.ofNat (0x10000 + m * 0x400 + n))

inductive Str : List UInt8 → List Char → List UInt8 → Prop
  | close (s : List UInt8) : Str (QUOTE :: s) [] s
  | char {c : Char} {s : List UInt8} {cs : List Char} {r : List UInt8} : Unescaped c → Str s cs r →
      Str (String.utf8EncodeChar c ++ s) (c :: cs) r
  | escape {e : List UInt8} {c : Char} {s : List UInt8} {cs : List Char} {r : List UInt8} : Escape e c →
      Str s cs r → Str (e ++ s) (c :: cs) r

structure Digits (ds : List Char) : Prop where
  nonempty : ds ≠ []
  digit : ∀ d ∈ ds, d.isDigit = true

structure Integer (ds : List Char) : Prop extends Digits ds where
  zero : ds.head? = some '0' → ds = ['0']

inductive Fraction : List Char → List Char → Prop
  | none : Fraction [] []
  | some {ds : List Char} : Digits ds → Fraction ('.' :: ds) ds

inductive Exponent : List Char → ℤ → Prop
  | none : Exponent [] 0
  | plain {e : Char} {ds : List Char} : e = 'e' ∨ e = 'E' → Digits ds →
      Exponent (e :: ds) (Nat.ofDigitChars 10 ds 0)
  | plus {e : Char} {ds : List Char} : e = 'e' ∨ e = 'E' → Digits ds →
      Exponent (e :: '+' :: ds) (Nat.ofDigitChars 10 ds 0)
  | minus {e : Char} {ds : List Char} : e = 'e' ∨ e = 'E' → Digits ds →
      Exponent (e :: '-' :: ds) (-Nat.ofDigitChars 10 ds 0)

inductive Number : List Char → ℤ → ℤ → Prop
  | positive {is fs ds es : List Char} {e : ℤ} : Integer is → Fraction fs ds → Exponent es e →
      Number (is ++ fs ++ es) (Nat.ofDigitChars 10 (is ++ ds) 0) (e - ds.length)
  | negative {is fs ds es : List Char} {e : ℤ} : Integer is → Fraction fs ds → Exponent es e →
      Number ('-' :: (is ++ fs ++ es)) (-Nat.ofDigitChars 10 (is ++ ds) 0) (e - ds.length)

mutual

inductive Value : List UInt8 → Json → List UInt8 → Prop
  | null {r : List UInt8} : Value (bytes ['n', 'u', 'l', 'l'] ++ r) .null r
  | true {r : List UInt8} : Value (bytes ['t', 'r', 'u', 'e'] ++ r) (.bool Bool.true) r
  | false {r : List UInt8} : Value (bytes ['f', 'a', 'l', 's', 'e'] ++ r) (.bool Bool.false) r
  | number {text : List Char} {m e : ℤ} {r : List UInt8} : Number text m e →
      Value (bytes text ++ r) (.number m e) r
  | string {s : List UInt8} {cs : List Char} {r : List UInt8} : Str s cs r → Value (QUOTE :: s) (.string cs) r
  | emptyArray {s r : List UInt8} : Ws s (RBRACKET :: r) → Value (LBRACKET :: s) (.array []) r
  | array {s r : List UInt8} {js : List Json} : Elements s js r → Value (LBRACKET :: s) (.array js) r
  | emptyObject {s r : List UInt8} : Ws s (RBRACE :: r) → Value (LBRACE :: s) (.object []) r
  | object {s r : List UInt8} {ms : List (List Char × Json)} : Members s ms r →
      Value (LBRACE :: s) (.object ms) r

inductive Elements : List UInt8 → List Json → List UInt8 → Prop
  | last {s s₁ s₂ r : List UInt8} {j : Json} : Ws s s₁ → Value s₁ j s₂ → Ws s₂ (RBRACKET :: r) →
      Elements s [j] r
  | cons {s s₁ s₂ s₃ r : List UInt8} {j : Json} {js : List Json} : Ws s s₁ → Value s₁ j s₂ →
      Ws s₂ (COMMA :: s₃) → Elements s₃ js r → Elements s (j :: js) r

inductive Members : List UInt8 → List (List Char × Json) → List UInt8 → Prop
  | last {s s₁ s₂ s₃ s₄ s₅ r : List UInt8} {k : List Char} {j : Json} : Ws s (QUOTE :: s₁) → Str s₁ k s₂ →
      Ws s₂ (COLON :: s₃) → Ws s₃ s₄ → Value s₄ j s₅ → Ws s₅ (RBRACE :: r) → Members s [(k, j)] r
  | cons {s s₁ s₂ s₃ s₄ s₅ s₆ r : List UInt8} {k : List Char} {j : Json} {ms : List (List Char × Json)} :
      Ws s (QUOTE :: s₁) → Str s₁ k s₂ → Ws s₂ (COLON :: s₃) → Ws s₃ s₄ → Value s₄ j s₅ →
      Ws s₅ (COMMA :: s₆) → Members s₆ ms r → Members s ((k, j) :: ms) r

end

def Text (s : List UInt8) (j : Json) : Prop := ∃ s₁ s₂, Ws s s₁ ∧ Value s₁ j s₂ ∧ Ws s₂ []

def member (name : List Char) : Json → Option Json
  | .object ms => (ms.find? fun m => m.1 = name).map Prod.snd
  | _ => none

def IsInteger (m e n : ℤ) : Prop := if 0 ≤ e then m * 10 ^ e.toNat = n else m = n * 10 ^ (-e).toNat

theorem utf8EncodeChar_high {c : Char} (h : 128 ≤ c.toNat) :
    ∀ b ∈ String.utf8EncodeChar c, 128 ≤ b.toNat := by
  have hc : c.val.toNat = c.toNat := rfl
  intro b hb
  unfold String.utf8EncodeChar at hb
  simp only [hc] at hb
  split_ifs at hb with h₁ h₂ h₃
  · omega
  all_goals
    simp only [List.mem_cons, List.not_mem_nil, or_false] at hb
  · obtain rfl | rfl := hb <;> rw [UInt8.toNat_ofNat'] <;> omega
  · obtain rfl | rfl | rfl := hb <;> rw [UInt8.toNat_ofNat'] <;> omega
  · obtain rfl | rfl | rfl | rfl := hb <;> rw [UInt8.toNat_ofNat'] <;> omega

theorem utf8EncodeChar_low {c : Char} {b : UInt8} (hb : b ∈ String.utf8EncodeChar c) (hlt : b.toNat < 128) :
    c.toNat = b.toNat ∧ String.utf8EncodeChar c = [b] := by
  have hc : c.toNat < 128 := by
    by_contra hge
    have hhigh := utf8EncodeChar_high (Nat.le_of_not_lt hge) b hb
    omega
  have he := utf8EncodeChar_ascii hc
  rw [he] at hb ⊢
  obtain rfl := List.mem_singleton.mp hb
  exact ⟨(toNat_byte hc).symm, rfl⟩

theorem octets_bytes {cs : List Char} (h : IsAscii cs) : octets cs = bytes cs := flatMap_utf8EncodeChar h

theorem octets_cons (c : Char) (cs : List Char) :
    octets (c :: cs) = String.utf8EncodeChar c ++ octets cs := rfl

theorem Unescaped.byte {c : Char} (h : Unescaped c) {b : UInt8} (hb : b ∈ String.utf8EncodeChar c) :
    32 ≤ b.toNat ∧ b ≠ QUOTE ∧ b ≠ BACKSLASH := by
  by_cases hlt : b.toNat < 128
  · obtain ⟨hc, -⟩ := utf8EncodeChar_low hb hlt
    have hcontrol := h.control
    refine ⟨by omega, ?_, ?_⟩
    · rintro rfl
      exact h.quote (Char.toNat_inj.mp hc)
    · rintro rfl
      exact h.backslash (Char.toNat_inj.mp hc)
  · refine ⟨by omega, ?_, ?_⟩
    · rintro rfl
      exact hlt (by decide)
    · rintro rfl
      exact hlt (by decide)

theorem unescaped_of_bytes {c : Char}
    (h : ∀ b ∈ String.utf8EncodeChar c, 32 ≤ b.toNat ∧ b ≠ QUOTE ∧ b ≠ BACKSLASH) : Unescaped c := by
  by_cases hlt : c.toNat < 128
  · rw [utf8EncodeChar_ascii hlt] at h
    obtain ⟨hcontrol, hquote, hbackslash⟩ := h _ (List.mem_singleton_self _)
    rw [toNat_byte hlt] at hcontrol
    refine ⟨hcontrol, ?_, ?_⟩
    · rintro rfl
      exact hquote rfl
    · rintro rfl
      exact hbackslash rfl
  · refine ⟨by omega, ?_, ?_⟩
    · rintro rfl
      exact hlt (by decide)
    · rintro rfl
      exact hlt (by decide)

theorem Unit16.shape {e : List UInt8} {n : ℕ} (h : Unit16 e n) :
    e.length = 6 ∧ QUOTE ∉ e ∧ ∃ rest, e = BACKSLASH :: rest := by
  have hdigit {b : UInt8} {i : ℕ} (hb : hexDigit b = some i) : QUOTE ≠ b := by
    have hno : hexDigit QUOTE = none := by decide
    rintro rfl
    rw [hno] at hb
    cases hb
  obtain ⟨ha, hb, hc, hd⟩ := h
  refine ⟨rfl, ?_, _, rfl⟩
  simp only [List.mem_cons, List.not_mem_nil, or_false, not_or]
  exact ⟨by decide, by decide, hdigit ha, hdigit hb, hdigit hc, hdigit hd⟩

theorem Escape.shape {e : List UInt8} {c : Char} (h : Escape e c) :
    (String.utf8EncodeChar c).length < e.length ∧ (∃ rest, e = BACKSLASH :: rest) ∧
      (QUOTE ∉ e ∨ e = [BACKSLASH, QUOTE]) := by
  have hfour := Char.utf8Size_le_four c
  rw [← String.length_utf8EncodeChar] at hfour
  cases h with
  | short hmem =>
    simp only [shortEscapes, List.mem_cons, Prod.mk.injEq, List.not_mem_nil, or_false] at hmem
    refine ⟨?_, ⟨_, rfl⟩, ?_⟩
    all_goals
      obtain ⟨rfl, rfl⟩ | ⟨rfl, rfl⟩ | ⟨rfl, rfl⟩ | ⟨rfl, rfl⟩ | ⟨rfl, rfl⟩ | ⟨rfl, rfl⟩ | ⟨rfl, rfl⟩ |
        ⟨rfl, rfl⟩ := hmem <;> decide
  | unit hunit =>
    obtain ⟨hlen, hquote, hhead⟩ := hunit.shape
    exact ⟨by omega, hhead, .inl hquote⟩
  | pair hhigh _ hlow _ =>
    obtain ⟨hlen, hquote, rest, rfl⟩ := hhigh.shape
    obtain ⟨hlen', hquote', -⟩ := hlow.shape
    refine ⟨?_, ⟨_, rfl⟩, .inl ?_⟩
    · rw [List.length_append]
      omega
    · rw [List.mem_append]
      exact not_or.mpr ⟨hquote, hquote'⟩

theorem append_cut {b : UInt8} {c s v y : List UInt8} (hb : b ∉ c) (h : c ++ s = v ++ b :: y) :
    ∃ w, v = c ++ w ∧ s = w ++ b :: y := by
  induction c generalizing v with
  | nil => exact ⟨v, rfl, h⟩
  | cons x c ih =>
    obtain ⟨hne, hc⟩ := List.ne_and_not_mem_of_not_mem_cons hb
    cases v with
    | nil => exact absurd (List.cons.inj h).1.symm hne
    | cons x' v =>
      obtain ⟨rfl, htail⟩ := List.cons.inj h
      obtain ⟨w, rfl, hs⟩ := ih hc htail
      exact ⟨w, rfl, hs⟩

theorem Ws.stop {b : UInt8} {s r : List UInt8} (h : Ws (b :: s) r) (hb : ¬ IsSpace b) : r = b :: s := by
  cases h with
  | done => rfl
  | skip hspace => exact absurd hspace hb

theorem Ws.head {b : UInt8} {s r : List UInt8} (h : Ws s (b :: r)) :
    ∃ b' s', s = b' :: s' ∧ (IsSpace b' ∨ b' = b) := by
  cases h with
  | done => exact ⟨b, r, rfl, .inr rfl⟩
  | skip hspace => exact ⟨_, _, rfl, .inl hspace⟩

theorem Str.length_le {s : List UInt8} {cs : List Char} {r : List UInt8} (h : Str s cs r) :
    ∃ raw, s = raw ++ QUOTE :: r ∧ (octets cs).length ≤ raw.length ∧
      ((octets cs).length = raw.length → raw = octets cs ∧ ∀ c ∈ cs, Unescaped c) := by
  induction h with
  | close s =>
    refine ⟨[], rfl, Nat.le_refl 0, fun _ => ⟨rfl, ?_⟩⟩
    intro c hc
    cases hc
  | @char c s cs r hc _ ih =>
    obtain ⟨raw, rfl, hle, heq⟩ := ih
    refine ⟨String.utf8EncodeChar c ++ raw, (List.append_assoc ..).symm, ?_, fun hlen => ?_⟩
    · rw [octets_cons, List.length_append, List.length_append]
      omega
    · rw [octets_cons, List.length_append, List.length_append] at hlen
      obtain ⟨hraw, hall⟩ := heq (by omega)
      refine ⟨by rw [octets_cons, hraw], ?_⟩
      intro c' hc'
      obtain rfl | hc' := List.mem_cons.mp hc'
      · exact hc
      · exact hall c' hc'
  | @escape e c s cs r he _ ih =>
    obtain ⟨raw, rfl, hle, -⟩ := ih
    obtain ⟨hlt, -⟩ := he.shape
    refine ⟨e ++ raw, (List.append_assoc ..).symm, ?_, fun hlen => ?_⟩
    · rw [octets_cons, List.length_append, List.length_append]
      omega
    · rw [octets_cons, List.length_append, List.length_append] at hlen
      omega

theorem Str.of_quote {s : List UInt8} {cs : List Char} {r : List UInt8} (h : Str (QUOTE :: s) cs r) :
    cs = [] ∧ r = s := by
  generalize hinput : QUOTE :: s = input at h
  cases h with
  | close s' => exact ⟨rfl, (List.cons.inj hinput).2.symm⟩
  | @char c s' cs r hc _ =>
    have hmem : QUOTE ∈ String.utf8EncodeChar c := by
      cases hbytes : String.utf8EncodeChar c with
      | nil => exact absurd hbytes String.utf8EncodeChar_ne_nil
      | cons b bs =>
        rw [hbytes] at hinput
        rw [(List.cons.inj hinput).1]
        exact List.mem_cons_self
    exact absurd rfl (hc.byte hmem).2.1
  | escape he _ =>
    obtain ⟨-, ⟨rest, rfl⟩, -⟩ := he.shape
    exact absurd (List.cons.inj hinput).1 (by decide)

theorem Str.of_byte {b : UInt8} {s : List UInt8} {cs : List Char} {r : List UInt8} (h : Str (b :: s) cs r)
    (hlt : b.toNat < 128) (hquote : b ≠ QUOTE) (hbackslash : b ≠ BACKSLASH) :
    ∃ c cs', cs = c :: cs' ∧ c.toNat = b.toNat ∧ Str s cs' r := by
  generalize hinput : b :: s = input at h
  cases h with
  | close s' => exact absurd (List.cons.inj hinput).1 hquote
  | @char c s' cs r hc hs =>
    have hmem : b ∈ String.utf8EncodeChar c := by
      cases hbytes : String.utf8EncodeChar c with
      | nil => exact absurd hbytes String.utf8EncodeChar_ne_nil
      | cons b' bs =>
        rw [hbytes] at hinput
        rw [(List.cons.inj hinput).1]
        exact List.mem_cons_self
    obtain ⟨hnat, hone⟩ := utf8EncodeChar_low hmem hlt
    rw [hone] at hinput
    rw [(List.cons.inj hinput).2]
    exact ⟨c, cs, rfl, hnat, hs⟩
  | escape he _ =>
    obtain ⟨-, ⟨rest, rfl⟩, -⟩ := he.shape
    exact absurd (List.cons.inj hinput).1 hbackslash

def Plain (cs : List Char) : Prop := IsAscii cs ∧ ∀ c ∈ cs, Unescaped c

theorem plain_of_letters {cs : List Char}
    (h : (cs.all fun c => decide (32 ≤ c.toNat ∧ c.toNat < 128 ∧ c ≠ '"' ∧ c ≠ '\\')) = true) : Plain cs := by
  have hletter (c : Char) (hc : c ∈ cs) := of_decide_eq_true (List.all_eq_true.mp h c hc)
  constructor
  · intro c hc
    exact (hletter c hc).2.1
  · intro c hc
    obtain ⟨hcontrol, -, hquote, hbackslash⟩ := hletter c hc
    exact ⟨hcontrol, hquote, hbackslash⟩

theorem Str.of_plain {name : List Char} (hname : Plain name) {s : List UInt8} {cs : List Char} {r : List UInt8}
    (h : Str (bytes name ++ QUOTE :: s) cs r) : cs = name ∧ r = s := by
  induction name generalizing cs with
  | nil => exact h.of_quote
  | cons c name ih =>
    obtain ⟨hascii, hplain⟩ := hname
    obtain ⟨hc, hrest⟩ := ascii_cons.mp hascii
    obtain ⟨-, hquote, hbackslash⟩ := (hplain c List.mem_cons_self).byte (b := UInt8.ofNat c.toNat) (by
      rw [utf8EncodeChar_ascii hc]
      exact List.mem_singleton_self _)
    have hlt : (UInt8.ofNat c.toNat).toNat < 128 := by
      rw [toNat_byte hc]
      exact hc
    obtain ⟨c', cs', rfl, hnat, hs⟩ := h.of_byte hlt hquote hbackslash
    have hname : Plain name := by
      refine ⟨hrest, ?_⟩
      intro d hd
      exact hplain d (List.mem_cons_of_mem c hd)
    obtain ⟨rfl, rfl⟩ := ih hname hs
    rw [toNat_byte hc] at hnat
    rw [Char.toNat_inj.mp hnat]
    exact ⟨rfl, rfl⟩

theorem Str.mk_plain {cs : List Char} (h : ∀ c ∈ cs, Unescaped c) (s : List UInt8) :
    Str (octets cs ++ QUOTE :: s) cs s := by
  induction cs with
  | nil => exact .close s
  | cons c cs ih =>
    rw [octets_cons, List.append_assoc]
    apply Str.char
    · exact h c List.mem_cons_self
    · apply ih
      intro d hd
      exact h d (List.mem_cons_of_mem c hd)

/-- Where the string ends in a text with two quotation marks: at one before both, at the first, or, when a
backslash stands before the first, at the second. -/
theorem Str.ends {s : List UInt8} {cs : List Char} {r : List UInt8} (h : Str s cs r) {v y : List UInt8}
    (hs : s = v ++ QUOTE :: COMMA :: QUOTE :: y) :
    (∃ v₁ v₂, v = v₁ ++ QUOTE :: v₂ ∧ r = v₂ ++ QUOTE :: COMMA :: QUOTE :: y) ∨
      r = COMMA :: QUOTE :: y ∨ r = y := by
  have hinside {c s v : List UInt8} {r : List UInt8} (hc : QUOTE ∉ c)
      (hs : c ++ s = v ++ QUOTE :: COMMA :: QUOTE :: y)
      (ih : ∀ v, s = v ++ QUOTE :: COMMA :: QUOTE :: y →
        (∃ v₁ v₂, v = v₁ ++ QUOTE :: v₂ ∧ r = v₂ ++ QUOTE :: COMMA :: QUOTE :: y) ∨
          r = COMMA :: QUOTE :: y ∨ r = y) :
      (∃ v₁ v₂, v = v₁ ++ QUOTE :: v₂ ∧ r = v₂ ++ QUOTE :: COMMA :: QUOTE :: y) ∨
        r = COMMA :: QUOTE :: y ∨ r = y := by
    obtain ⟨w, rfl, hw⟩ := append_cut hc hs
    apply (ih w hw).imp_left
    rintro ⟨v₁, v₂, rfl, hr⟩
    exact ⟨c ++ v₁, v₂, (List.append_assoc ..).symm, hr⟩
  induction h generalizing v with
  | close s =>
    cases v with
    | nil => exact .inr (.inl (List.cons.inj hs).2)
    | cons b v =>
      obtain ⟨rfl, rfl⟩ := List.cons.inj hs
      exact .inl ⟨[], v, rfl, rfl⟩
  | char hc _ ih =>
    apply hinside _ hs fun v hv => ih hv
    intro hmem
    exact (hc.byte hmem).2.1 rfl
  | @escape e c s cs r he hrest ih =>
    obtain ⟨-, -, hquote | rfl⟩ := he.shape
    · exact hinside hquote hs fun v hv => ih hv
    · cases v with
      | nil => exact absurd (List.cons.inj hs).1 (by decide)
      | cons b v =>
        obtain ⟨rfl, htail⟩ : BACKSLASH = b ∧ QUOTE :: s = v ++ QUOTE :: COMMA :: QUOTE :: y :=
          List.cons.inj hs
        cases v with
        | nil =>
          -- the backslash has taken the first quotation mark with it
          rw [(List.cons.inj htail).2] at hrest
          obtain ⟨c', cs', -, -, hend⟩ := hrest.of_byte (by decide) (by decide) (by decide)
          exact .inr (.inr hend.of_quote.2)
        | cons b v =>
          obtain ⟨rfl, hcut⟩ : QUOTE = b ∧ s = v ++ QUOTE :: COMMA :: QUOTE :: y := List.cons.inj htail
          apply (ih hcut).imp_left
          rintro ⟨v₁, v₂, rfl, hr⟩
          exact ⟨BACKSLASH :: QUOTE :: v₁, v₂, rfl, hr⟩

theorem Str.verbatim {v y : List UInt8} {cs : List Char} {r : List UInt8}
    (h : Str (v ++ QUOTE :: COMMA :: QUOTE :: y) cs r) (hcs : octets cs = v) :
    r = y ∨ r = COMMA :: QUOTE :: y ∧ ∀ c ∈ cs, Unescaped c := by
  obtain ⟨raw, hraw, hle, heq⟩ := h.length_le
  rw [hcs] at hle heq
  have hlen := congrArg List.length hraw
  simp only [List.length_append, List.length_cons] at hlen
  obtain ⟨v₁, v₂, rfl, rfl⟩ | rfl | rfl := h.ends rfl
  · simp only [List.length_append, List.length_cons] at hlen hle
    omega
  · refine .inr ⟨rfl, (heq ?_).2⟩
    simp only [List.length_cons] at hlen
    omega
  · exact .inl rfl

end Json

end EmbeddedLinuxTraining.Library
