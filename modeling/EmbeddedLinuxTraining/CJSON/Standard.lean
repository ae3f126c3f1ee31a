import EmbeddedLinuxTraining.CJSON.Memory
import EmbeddedLinuxTraining.Library.JsonText

namespace EmbeddedLinuxTraining.CJSON

open Library Library.Ascii Library.Binary64 Library.Json Library.Strtod Telemetry Procedure ParseBuffer

mutual

def tree : Json → CJson
  | .null => .null
  | .bool b => if b then .true else .false
  | .number m e => .number (valueint (decimal m e)) (decimal m e)
  | .string cs => .string (octets cs)
  | .array js => .array (trees js)
  | .object ms => .object (namedTrees ms)

def trees : List Json → List CJson
  | [] => []
  | j :: js => tree j :: trees js

def namedTrees : List (List Char × Json) → List (CString × CJson)
  | [] => []
  | (name, j) :: ms => (cString (octets name), tree j) :: namedTrees ms

end

variable {b b' b'' : ParseBuffer} {s r t : List UInt8} {c : Char} {cs : List Char} {n k : ℕ}

set_option maxRecDepth 4000 in
theorem continuation_byte (x : ℕ) : (x ||| 0x80) &&& 0xBF = x % 64 + 128 := by
  have hall : ∀ y < 256, (y ||| 0x80) &&& 0xBF = y % 64 + 128 := by decide
  have hlow : (x ||| 0x80) &&& 0xBF = (x % 2 ^ 8 ||| 0x80) &&& 0xBF := by
    have hmask : (0xBF : ℕ) = (2 ^ 8 - 1) &&& 0xBF := rfl
    rw [hmask, ← Nat.and_assoc, ← Nat.and_assoc, Nat.and_two_pow_sub_one_eq_mod, Nat.and_two_pow_sub_one_eq_mod,
      Nat.or_mod_two_pow, Nat.or_mod_two_pow, Nat.mod_mod]
  have hmod := hall (x % 2 ^ 8) (Nat.mod_lt _ (by decide))
  rw [hlow]
  omega

theorem first_byte_two : ∀ x < 32, (x ||| 0xC0) &&& 0xFF = x + 0xC0 := by decide

theorem first_byte_three : ∀ x < 16, (x ||| 0xE0) &&& 0xFF = x + 0xE0 := by decide

theorem first_byte_four : ∀ x < 8, (x ||| 0xF0) &&& 0xFF = x + 0xF0 := by decide

theorem utf8Of_char (c : Char) : utf8Of c.toNat = some (String.utf8EncodeChar c) := by
  have hvalue : c.val.toNat = c.toNat := rfl
  have hmax : c.toNat < 0x110000 := by
    have hvalid := c.valid
    unfold UInt32.isValidChar Nat.isValidChar at hvalid
    omega
  unfold utf8Of String.utf8EncodeChar
  simp only [hvalue]
  generalize c.toNat = v at *
  have hshift : v >>> 6 = v / 64 := Nat.shiftRight_eq_div_pow v 6
  have hshift₂ : (v / 64) >>> 6 = v / 4096 := by
    rw [Nat.shiftRight_eq_div_pow, Nat.div_div_eq_div_mul]
  have hshift₃ : (v / 4096) >>> 6 = v / 262144 := by
    rw [Nat.shiftRight_eq_div_pow, Nat.div_div_eq_div_mul]
  by_cases h₁ : v < 0x80
  · have hone : v &&& 0x7F = v := by
      have hmask : v &&& 0x7F = v % 2 ^ 7 := Nat.and_two_pow_sub_one_eq_mod v 7
      omega
    have hle : v ≤ 0x7F := by omega
    simp [h₁, hle, encodeUtf8, utf8Tail, hone]
  have hgt₁ : ¬ v ≤ 0x7F := by omega
  by_cases h₂ : v < 0x800
  · have hle : v ≤ 0x7FF := by omega
    have hfirst := first_byte_two (v / 64) (by omega)
    have hmod : v / 64 % 32 = v / 64 := by omega
    simp only [h₁, h₂, hgt₁, hle, if_true, if_false, encodeUtf8, utf8Tail, hshift, continuation_byte, hfirst, hmod]
    rfl
  have hgt₂ : ¬ v ≤ 0x7FF := by omega
  by_cases h₃ : v < 0x10000
  · have hle : v ≤ 0xFFFF := by omega
    have hfirst := first_byte_three (v / 4096) (by omega)
    have hmod : v / 4096 % 16 = v / 4096 := by omega
    simp only [h₁, h₂, h₃, hgt₁, hgt₂, hle, if_true, if_false, encodeUtf8, utf8Tail, hshift₂, hshift,
      continuation_byte, hfirst, hmod]
    rfl
  · have hgt₃ : ¬ v ≤ 0xFFFF := by omega
    have hle : v ≤ 0x10FFFF := by omega
    have hfirst := first_byte_four (v / 262144) (by omega)
    have hmod : v / 262144 % 8 = v / 262144 := by omega
    simp only [h₁, h₂, h₃, hgt₁, hgt₂, hgt₃, hle, if_true, if_false, encodeUtf8, utf8Tail, hshift₃, hshift₂, hshift,
      continuation_byte, hfirst, hmod]
    rfl

section Strings

variable {content : List UInt8} {p inputEnd : ℕ} {e : List UInt8}

theorem getElem?_of_drop (h : content.drop p = s) (i : ℕ) : content[p + i]? = s[i]? := by
  rw [← h, List.getElem?_drop]

theorem hexDigit_le {x : UInt8} {d : ℕ} (h : hexDigit x = some d) : d < 16 := by
  unfold hexDigit at h
  split_ifs at h <;> cases h <;> omega

theorem parseHex4_unit (he : Unit16 e n) (h : content.drop p = e ++ s) :
    parseHex4 content (p + 2) = some n ∧ n < 0x10000 ∧ content[p]? = some BACKSLASH ∧
      content[p + 1]? = some 117 := by
  obtain ⟨ha, hb, hc, hd⟩ := he
  have hread := getElem?_of_drop h
  have hi := hexDigit_le ha
  have hj := hexDigit_le hb
  have hk := hexDigit_le hc
  have hl := hexDigit_le hd
  refine ⟨?_, by omega, hread 0, hread 1⟩
  have h₂ := hread 2
  have h₃ := hread 3
  have h₄ := hread 4
  have h₅ := hread 5
  simp only [List.cons_append, List.getElem?_cons_succ, List.getElem?_cons_zero] at h₂ h₃ h₄ h₅
  simp [parseHex4, parseHex4From, Nat.add_assoc, h₂, h₃, h₄, h₅, ha, hb, hc, hd, Nat.shiftLeft_eq]

theorem utf8Of_ofNat (h : n < 0xD800 ∨ 0xE000 ≤ n ∧ n < 0x110000) :
    utf8Of n = some (String.utf8EncodeChar (Char.ofNat n)) := by
  have hvalid : n.isValidChar := by
    unfold Nat.isValidChar
    omega
  have hnat : (Char.ofNat n).toNat = n := by
    rw [Char.ofNat, dif_pos hvalid]
    rfl
  rw [← utf8Of_char, hnat]

theorem utf16_unit (he : Unit16 e n) (hn : n < 0xD800 ∨ 0xE000 ≤ n) (h : content.drop p = e ++ s)
    (hend : p + 6 ≤ inputEnd) :
    utf16LiteralToUtf8 content p inputEnd = some (some (String.utf8EncodeChar (Char.ofNat n), 6)) := by
  obtain ⟨hcode, hlt, -, -⟩ := parseHex4_unit he h
  have hshort : ¬ inputEnd - p < 6 := by omega
  have hlow : ¬ (0xDC00 ≤ n ∧ n ≤ 0xDFFF) := by omega
  have hhigh : ¬ (0xD800 ≤ n ∧ n ≤ 0xDBFF) := by omega
  have hutf8 := utf8Of_ofNat (n := n) (by omega)
  simp only [utf16LiteralToUtf8, hshort, hcode, hlow, hhigh, if_false, hutf8, Option.pure_def, Option.bind_eq_bind,
    Option.bind_some, Option.map_some]

theorem codepoint_pair {m : ℕ} (hm : m < 0x400) (hn : n < 0x400) :
    0x10000 + (((0xD800 + m) &&& 0x3FF) <<< 10 ||| ((0xDC00 + n) &&& 0x3FF)) = 0x10000 + m * 0x400 + n := by
  have hfirst : (0xD800 + m) &&& 0x3FF = (0xD800 + m) % 2 ^ 10 := Nat.and_two_pow_sub_one_eq_mod _ 10
  have hsecond : (0xDC00 + n) &&& 0x3FF = (0xDC00 + n) % 2 ^ 10 := Nat.and_two_pow_sub_one_eq_mod _ 10
  have hm' : (0xD800 + m) % 2 ^ 10 = m := by omega
  have hn' : (0xDC00 + n) % 2 ^ 10 = n := by omega
  rw [hfirst, hsecond, hm', hn', ← Nat.shiftLeft_add_eq_or_of_lt (by omega), Nat.shiftLeft_eq]
  omega

theorem utf16_pair {f : List UInt8} {m : ℕ} (he : Unit16 e (0xD800 + m)) (hm : m < 0x400)
    (hf : Unit16 f (0xDC00 + n)) (hn : n < 0x400) (h : content.drop p = e ++ (f ++ s))
    (hend : p + 12 ≤ inputEnd) :
    utf16LiteralToUtf8 content p inputEnd =
      some (some (String.utf8EncodeChar (Char.ofNat (0x10000 + m * 0x400 + n)), 12)) := by
  obtain ⟨hcode, -, -, -⟩ := parseHex4_unit he h
  have hdrop : content.drop (p + 6) = f ++ s := by
    rw [← List.drop_drop, h, ← he.shape.1, List.drop_left]
  obtain ⟨hcode', -, hback, hu⟩ := parseHex4_unit hf hdrop
  have hshort : ¬ inputEnd - p < 6 := by omega
  have hshort' : ¬ inputEnd - (p + 6) < 6 := by omega
  have hlow : ¬ (0xDC00 ≤ 0xD800 + m ∧ 0xD800 + m ≤ 0xDFFF) := by omega
  have hhigh : 0xD800 ≤ 0xD800 + m ∧ 0xD800 + m ≤ 0xDBFF := by omega
  have hsecond : ¬ (0xDC00 + n < 0xDC00 ∨ 0xDFFF < 0xDC00 + n) := by omega
  have hutf8 := utf8Of_ofNat (n := 0x10000 + m * 0x400 + n) (by omega)
  simp only [utf16LiteralToUtf8, hshort, hshort', hcode, hcode', hlow, hhigh, hback, hu, hsecond, ne_eq,
    not_true_eq_false, if_false, and_self, if_true, codepoint_pair hm hn, hutf8, Option.pure_def,
    Option.bind_eq_bind, Option.bind_some, Option.map_some]

theorem escapeSequence_escape (he : Escape e c) (h : content.drop p = e ++ s) (hend : p + e.length ≤ inputEnd) :
    escapeSequence content p inputEnd = some (some (String.utf8EncodeChar c, e.length)) := by
  have hone : ¬ inputEnd - p < 1 := by
    have hshape := he.shape.1
    omega
  cases he with
  | short hmem =>
    have hread := getElem?_of_drop h 1
    simp only [shortEscapes, List.mem_cons, Prod.mk.injEq, List.not_mem_nil, or_false] at hmem
    obtain ⟨rfl, rfl⟩ | ⟨rfl, rfl⟩ | ⟨rfl, rfl⟩ | ⟨rfl, rfl⟩ | ⟨rfl, rfl⟩ | ⟨rfl, rfl⟩ | ⟨rfl, rfl⟩ |
      ⟨rfl, rfl⟩ := hmem
    all_goals
      change content[p + 1]? = some _ at hread
      simp only [escapeSequence, hone, if_false, hread, Option.bind_eq_bind, Option.bind_some]
      rfl
  | unit hunit hn =>
    obtain ⟨-, -, -, hu⟩ := parseHex4_unit hunit h
    rw [hunit.shape.1] at hend ⊢
    simp only [escapeSequence, hone, if_false, hu, Option.bind_eq_bind, Option.bind_some]
    exact utf16_unit hunit hn h hend
  | pair hhigh hm hlow hn =>
    rw [List.append_assoc] at h
    obtain ⟨-, -, -, hu⟩ := parseHex4_unit hhigh h
    rw [List.length_append, hhigh.shape.1, hlow.shape.1] at hend ⊢
    simp only [escapeSequence, hone, if_false, hu, Option.bind_eq_bind, Option.bind_some]
    exact utf16_pair hhigh hm hlow hn h hend

theorem literalEnd_quote (s : List UInt8) : literalEnd (QUOTE :: s) = some (0, 0) := by
  cases s <;> simp [literalEnd]

theorem literalEnd_backslash (x : UInt8) (s : List UInt8) :
    literalEnd (BACKSLASH :: x :: s) = (literalEnd s).map fun r => (r.1 + 2, r.2 + 1) := by
  have hne : BACKSLASH ≠ QUOTE := by decide
  simp [literalEnd, hne]

theorem literalEnd_plain {front : List UInt8} (h : ∀ x ∈ front, x ≠ QUOTE ∧ x ≠ BACKSLASH) {d : ℕ}
    (hs : literalEnd s = some (d, k)) : literalEnd (front ++ s) = some (front.length + d, k) := by
  induction front with
  | nil => rw [List.nil_append, hs, List.length_nil, Nat.zero_add]
  | cons x front ih =>
    obtain ⟨hquote, hback⟩ := h x List.mem_cons_self
    have hrest := ih fun y hy => h y (List.mem_cons_of_mem x hy)
    rw [List.cons_append, List.length_cons]
    cases hcut : front ++ s with
    | nil =>
      rw [hcut] at hrest
      cases hrest
    | cons y u =>
      rw [hcut] at hrest
      simp only [literalEnd, hquote, hback, if_false, hrest, Option.map_some, Option.some.injEq, Prod.mk.injEq,
        and_true]
      omega

theorem hexDigit_plain {x : UInt8} {d : ℕ} (h : hexDigit x = some d) : x ≠ QUOTE ∧ x ≠ BACKSLASH := by
  have hquote : hexDigit QUOTE = none := by decide
  have hback : hexDigit BACKSLASH = none := by decide
  constructor
  all_goals
    rintro rfl
    simp_all

theorem literalEnd_unit (he : Unit16 e n) {d : ℕ} (hs : literalEnd s = some (d, k)) :
    literalEnd (e ++ s) = some (6 + d, k + 1) := by
  obtain @⟨w, x, y, z, _, _, _, _, hw, hx, hy, hz⟩ := he
  have hplain : ∀ b ∈ [w, x, y, z], b ≠ QUOTE ∧ b ≠ BACKSLASH := by
    simp only [List.forall_mem_cons]
    exact ⟨hexDigit_plain hw, hexDigit_plain hx, hexDigit_plain hy, hexDigit_plain hz, by simp⟩
  have hdigits := literalEnd_plain hplain hs
  simp only [List.cons_append, List.nil_append, List.length_cons, List.length_nil] at hdigits ⊢
  rw [literalEnd_backslash, hdigits, Option.map_some]
  simp only [Option.some.injEq, Prod.mk.injEq, and_true]
  omega

theorem literalEnd_escape (he : Escape e c) {d : ℕ} (hs : literalEnd s = some (d, k)) :
    ∃ j, literalEnd (e ++ s) = some (e.length + d, k + j) ∧ (String.utf8EncodeChar c).length + j ≤ e.length := by
  have hfour := Char.utf8Size_le_four c
  rw [← String.length_utf8EncodeChar] at hfour
  have hshape := he.shape.1
  cases he with
  | short hmem =>
    refine ⟨1, ?_, hshape⟩
    change literalEnd (BACKSLASH :: _ :: s) = _
    rw [literalEnd_backslash, hs, Option.map_some]
    simp only [bytes, List.map_cons, List.map_nil, List.length_cons, List.length_nil, Option.some.injEq,
      Prod.mk.injEq, and_true]
    omega
  | unit hunit =>
    refine ⟨1, ?_, hshape⟩
    rw [hunit.shape.1]
    exact literalEnd_unit hunit hs
  | pair hhigh _ hlow =>
    refine ⟨2, ?_, ?_⟩
    · rw [List.append_assoc, List.length_append, hhigh.shape.1, hlow.shape.1,
        literalEnd_unit hhigh (literalEnd_unit hlow hs)]
      simp only [Option.some.injEq, Prod.mk.injEq, and_true]
      omega
    · rw [List.length_append, hhigh.shape.1, hlow.shape.1]
      omega

theorem literalEnd_str (h : Str s cs r) (t : List UInt8) :
    ∃ raw k, s = raw ++ QUOTE :: r ∧ literalEnd (s ++ t) = some (raw.length, k) ∧
      (octets cs).length + k ≤ raw.length := by
  induction h with
  | close s => exact ⟨[], 0, rfl, literalEnd_quote (s ++ t), Nat.le_refl 0⟩
  | @char c s cs r hc _ ih =>
    obtain ⟨raw, k, rfl, hend, hle⟩ := ih
    refine ⟨String.utf8EncodeChar c ++ raw, k, (List.append_assoc ..).symm, ?_, ?_⟩
    · rw [List.append_assoc, List.length_append]
      apply literalEnd_plain _ hend
      intro x hx
      exact (hc.byte hx).2
    · rw [octets_cons, List.length_append, List.length_append]
      omega
  | @escape e c s cs r he _ ih =>
    obtain ⟨raw, k, rfl, hend, hle⟩ := ih
    obtain ⟨j, hj, hle'⟩ := literalEnd_escape he hend
    refine ⟨e ++ raw, k + j, (List.append_assoc ..).symm, ?_, ?_⟩
    · rw [List.append_assoc, List.length_append]
      exact hj
    · rw [octets_cons, List.length_append, List.length_append]
      omega

theorem convert_plain {front : List UInt8} (h : ∀ x ∈ front, x ≠ BACKSLASH) {size : ℕ} {output : List UInt8}
    (hdrop : content.drop p = front ++ s) (hend : p + front.length ≤ inputEnd)
    (hsize : output.length + front.length < size) :
    convert content inputEnd size (n + front.length) output p =
      convert content inputEnd size n (output ++ front) (p + front.length) := by
  induction front generalizing p output with
  | nil => rw [List.append_nil, List.length_nil, Nat.add_zero, Nat.add_zero]
  | cons x front ih =>
    have hx := getElem?_of_drop hdrop 0
    rw [List.length_cons] at hend hsize ⊢
    have hlt : p < inputEnd := by omega
    have hfits : output.length < size := by omega
    have hback := h x List.mem_cons_self
    have hnext : content.drop (p + 1) = front ++ s := by
      rw [← List.drop_drop, hdrop]
      rfl
    have hfits' : (output ++ [x]).length + front.length < size := by
      rw [List.length_append, List.length_singleton]
      omega
    have hstep := ih (fun y hy => h y (List.mem_cons_of_mem x hy)) hnext (by omega) hfits'
    rw [List.append_assoc] at hstep
    change content[p]? = some x at hx
    change convert content inputEnd size (n + front.length + 1) output p = _
    simp only [convert, hlt, if_true, hx, ne_eq, hback, not_false_eq_true, hfits]
    rw [hstep, Nat.add_assoc, Nat.add_comm 1]
    rfl

theorem drop_front {front rest : List UInt8} (h : content.drop p = (front ++ rest) ++ t) :
    content.drop (p + front.length) = rest ++ t := by
  rw [← List.drop_drop, h, List.append_assoc, List.drop_left]

theorem convert_str (h : Str s cs r) {size : ℕ} {output : List UInt8} (hdrop : content.drop p = s ++ t)
    (hend : inputEnd + r.length + 1 = p + s.length) (hn : s.length ≤ n + r.length)
    (hsize : output.length + (octets cs).length < size) :
    convert content inputEnd size n output p = .ok (output ++ octets cs) inputEnd := by
  induction h generalizing p n output with
  | close s =>
    rw [List.length_cons] at hend hn
    obtain ⟨n, rfl⟩ : ∃ n', n = n' + 1 := ⟨n - 1, by omega⟩
    have hp : inputEnd = p := by omega
    have hfits : output.length < size := by omega
    simp only [convert, hp, Nat.lt_irrefl, if_false, hfits, if_true]
    rw [octets, List.flatMap_nil, List.append_nil]
  | @char c s cs r hc hs ih =>
    have hlt := hs.length_lt
    have hnext := drop_front hdrop
    rw [List.length_append] at hend hn
    rw [octets_cons, List.length_append] at hsize
    obtain ⟨n, rfl⟩ : ∃ n', n = n' + (String.utf8EncodeChar c).length :=
      ⟨n - (String.utf8EncodeChar c).length, by omega⟩
    rw [List.append_assoc] at hdrop
    rw [convert_plain (fun x hx => (hc.byte hx).2.2) hdrop (by omega) (by omega), octets_cons,
      ← List.append_assoc]
    apply ih hnext
    · omega
    · omega
    · rw [List.length_append]
      omega
  | @escape e c s cs r he hs ih =>
    have hlt := hs.length_lt
    have hnext := drop_front hdrop
    obtain ⟨hshorter, ⟨rest, hrest⟩, -⟩ := he.shape
    rw [List.length_append] at hend hn
    rw [octets_cons, List.length_append] at hsize
    obtain ⟨n, rfl⟩ : ∃ n', n = n' + 1 := ⟨n - 1, by omega⟩
    have hback : content[p]? = some BACKSLASH := by
      rw [hrest] at hdrop
      exact getElem?_of_drop hdrop 0
    rw [List.append_assoc] at hdrop
    have hin : p < inputEnd := by omega
    have hfits : output.length + (String.utf8EncodeChar c).length ≤ size := by omega
    have hescape : escapeSequence content p inputEnd = some (some (String.utf8EncodeChar c, e.length)) := by
      apply escapeSequence_escape he hdrop
      omega
    simp only [convert, hin, if_true, hback, ne_eq, not_true_eq_false, if_false, hescape, hfits]
    rw [octets_cons, ← List.append_assoc]
    apply ih hnext
    · omega
    · omega
    · rw [List.length_append]
      omega

end Strings

structure UpTo (b : ParseBuffer) (s : List UInt8) (b' : ParseBuffer) : Prop where
  content : b'.content = b.content
  rest : b'.bufferAtOffset = s
  depth : b'.depth = b.depth
  grants : b'.hooks.grants = b.hooks.grants

def Generous (b : ParseBuffer) : Prop := ∀ n, b.hooks.grants n = true

theorem meets_allocate_generous (h : Generous b) {F : ParseBuffer → Prop} {Q : Unit → ParseBuffer → Prop} :
    Meets allocate b F Q ↔ Q () b.allocated := by
  simp only [Meets, allocate, h b.hooks.calls, if_true]

theorem UpTo.refl (h : b.bufferAtOffset = s) : UpTo b s b := ⟨rfl, h, rfl, rfl⟩

theorem UpTo.trans {u : List UInt8} (h : UpTo b s b') (h' : UpTo b' u b'') : UpTo b u b'' := by
  constructor
  · exact h'.content.trans h.content
  · exact h'.rest
  · exact h'.depth.trans h.depth
  · exact h'.grants.trans h.grants

theorem UpTo.generous (h : UpTo b s b') (hb : Generous b) : Generous b' := by
  intro n
  rw [h.grants]
  exact hb n

theorem UpTo.allocated (h : UpTo b s b') : UpTo b s b'.allocated := ⟨h.content, h.rest, h.depth, h.grants⟩

theorem UpTo.deallocate (h : UpTo b s b') : UpTo b s (b'.deallocate n) := ⟨h.content, h.rest, h.depth, h.grants⟩

theorem UpTo.advance {front : List UInt8} (h : UpTo b (front ++ s) b') : UpTo b s (b'.advance front.length) := by
  refine ⟨h.content, ?_, h.depth, h.grants⟩
  change b'.content.drop (b'.offset + front.length) = s
  have hrest : b'.content.drop b'.offset = front ++ s := h.rest
  rw [← List.drop_drop, hrest, List.drop_left]

theorem UpTo.next {x : UInt8} (h : UpTo b (x :: s) b') : UpTo b s (b'.advance 1) :=
  UpTo.advance (show UpTo b ([x] ++ s) b' from h)

theorem length_of_rest (h : b.bufferAtOffset = s) (hs : s ≠ []) : b.offset + s.length = b.length := by
  have hlength := congrArg List.length h
  have hpos := List.length_pos_iff.mpr hs
  rw [bufferAtOffset, List.length_drop] at hlength
  unfold length
  omega

theorem UpTo.leave (h : UpTo b.enter s b') : UpTo b s (b'.leave) := by
  refine ⟨h.content, h.rest, ?_, h.grants⟩
  rw [leave_depth, h.depth]
  rfl

theorem UpTo.stepBack (h : UpTo b s b') (hs : s ≠ []) (hpos : 0 < b'.offset) :
    ∃ x, UpTo b (x :: s) b'.stepBack := by
  have hlength := length_of_rest h.rest hs
  have hlt : b'.offset - 1 < b'.content.length := by
    have hcontent : b'.content.length = b'.length := rfl
    omega
  refine ⟨b'.content[b'.offset - 1], h.content, ?_, h.depth, h.grants⟩
  change b'.content.drop (b'.offset - 1) = _
  rw [List.drop_eq_getElem_cons hlt, Nat.sub_add_cancel hpos]
  exact congrArg _ h.rest

theorem UpTo.next_iff {x y : UInt8} (h : UpTo b (x :: s) b') : b'.bufferAtOffset.head? = some y ↔ x = y := by
  rw [h.rest, List.head?_cons, Option.some.injEq]

theorem meets_first {x : UInt8} (h : b.bufferAtOffset = x :: s) {F : ParseBuffer → Prop}
    {Q : UInt8 → ParseBuffer → Prop} : Meets (byteAt 0) b F Q ↔ Q x b := by
  apply meets_byteAt
  rw [h, List.getElem?_cons_zero]

theorem UpTo.skip {ws : List UInt8} {x : UInt8} (h : UpTo b (ws ++ x :: s) b') (hws : ∀ y ∈ ws, y ≤ 32)
    (hx : 32 < x.toNat) : UpTo b (x :: s) b'.skipWhitespace := by
  have hlength := length_of_rest h.rest (List.append_ne_nil_of_right_ne_nil ws (List.cons_ne_nil x s))
  rw [List.length_append, List.length_cons] at hlength
  have haccess : b'.canAccessAtIndex 0 = true := canAccessAtIndex_iff.mpr (by omega)
  have htake : b'.bufferAtOffset.takeWhile (· ≤ 32) = ws := by
    have hstop : ¬ x ≤ 32 := by
      rw [UInt8.le_iff_toNat_le]
      exact Nat.not_le.mpr hx
    rw [h.rest, List.takeWhile_append_of_pos (by simpa using hws)]
    simp [hstop]
  have hin : b'.offset + ws.length ≠ b'.length := by omega
  have hskip : b'.skipWhitespace = b'.advance ws.length := by
    simp only [skipWhitespace, haccess, Bool.not_true, Bool.false_eq_true, if_false, htake, hin]
    rfl
  rw [hskip]
  exact h.advance

theorem UpTo.ws {x : UInt8} {u : List UInt8} (h : UpTo b (s ++ t) b') (hws : Ws s (x :: u)) (hx : 32 < x.toNat) :
    UpTo b (x :: u ++ t) b'.skipWhitespace := by
  obtain ⟨ws, rfl, hspaces⟩ := hws.spaces
  rw [List.append_assoc] at h
  apply h.skip _ hx
  intro y hy
  obtain rfl | rfl | rfl | rfl := hspaces y hy <;> decide

theorem parseString_str (h : Str s cs r) (hb : b.bufferAtOffset = QUOTE :: (s ++ t)) (hg : Generous b) :
    Meets parseString b (fun _ => False) fun out b' => out = octets cs ∧ UpTo b (r ++ t) b' := by
  obtain ⟨raw, k, rfl, hend, hle⟩ := literalEnd_str h t
  have hdrop : b.content.drop (b.offset + 1) = raw ++ QUOTE :: r ++ t := by
    rw [← List.drop_drop]
    change b.bufferAtOffset.drop 1 = _
    rw [hb]
    rfl
  have hlength := length_of_rest hb (List.cons_ne_nil _ _)
  simp only [List.length_append, List.length_cons] at hlength
  have hconvert : convert b.content (b.offset + 1 + raw.length) (b.offset + 1 + raw.length - b.offset - k + 1)
      (b.length + 1) [] (b.offset + 1) = .ok (octets cs) (b.offset + 1 + raw.length) := by
    apply convert_str h hdrop
    · simp only [List.length_append, List.length_cons]
      omega
    · simp only [List.length_append, List.length_cons]
      omega
    · simp only [List.length_nil]
      omega
  have hliteral : literalEnd (b.content.drop (b.offset + 1)) = some (raw.length, k) := by
    rw [hdrop]
    exact hend
  simp only [parseString, meets_bind, meets_get, meets_first hb, ne_eq, not_true_eq_false, meets_ite,
    false_implies, not_false_eq_true, true_implies, true_and, hliteral, meets_onFail, meets_allocate_generous hg,
    hconvert, meets_modify, meets_pure]
  have hrest : b.content.drop (b.offset + 1 + raw.length + 1) = r ++ t := by
    rw [List.append_assoc] at hdrop
    rw [← List.drop_drop, ← List.drop_drop, hdrop, List.drop_left]
    rfl
  exact ⟨rfl, hrest, rfl, rfl⟩

def Stops (s : List UInt8) : Prop := ∀ x u, s = x :: u → isNumberByte x = false

theorem isNumberByte_of_numeric {x : UInt8} (h : IsNumeric x) : isNumberByte x = true := by
  obtain hdigit | hsign := h
  · have hrange : 48 ≤ x ∧ x ≤ 57 := by simpa [UInt8.le_iff_toNat_le] using hdigit
    simp [isNumberByte, hrange]
  · have hall : (bytes ['-', '+', '.', 'e', 'E']).all isNumberByte = true := by decide
    exact List.all_eq_true.mp hall x hsign

theorem parseNumber_number {text : List Char} {m e : ℤ} {u : List UInt8} (h : Number text m e)
    (hb : b.bufferAtOffset = bytes text ++ u) (hu : Stops u) (hg : Generous b) :
    Meets parseNumber b (fun _ => False) fun item b' =>
      item = .number (valueint (decimal m e)) (decimal m e) ∧ UpTo b u b' := by
  have htext : b.bufferAtOffset.takeWhile isNumberByte = bytes text := by
    rw [hb, List.takeWhile_append_of_pos fun x hx => isNumberByte_of_numeric (h.numeric x hx)]
    cases u with
    | nil => exact List.append_nil _
    | cons x u =>
      have hx := hu x u rfl
      simp [hx]
  simp only [parseNumber, meets_bind, meets_get, meets_allocate_generous hg, htext, strtod_number h, meets_modify,
    meets_pure, List.length_nil, Nat.sub_zero]
  exact ⟨trivial, (UpTo.refl hb).allocated.advance.deallocate⟩

theorem valueint_decimal {m e n : ℤ} (h : IsInteger m e n) :
    valueint (Strtod.decimal m e) = Int32.ofInt (max INT_MIN (min INT_MAX n)) := by
  have hmax : INT_MAX = 2147483647 := rfl
  have hmin : INT_MIN = -2147483648 := rfl
  obtain ⟨j, hj⟩ | ⟨hbig, hfar⟩ := decimal_cases h
  · have hlow : (Extended.finite (n * (2 ^ j : ℕ)) (-j)).atLeast INT_MAX = decide (INT_MAX ≤ n) := by
      simp [Extended.atLeast]
    have hhigh : (Extended.finite (n * (2 ^ j : ℕ)) (-j)).atMost INT_MIN = decide (n ≤ INT_MIN) := by
      simp [Extended.atMost]
    have htrunc : (Extended.finite (n * (2 ^ j : ℕ)) (-j)).trunc = n := by
      simp [Extended.trunc]
    rw [valueint, hj, hlow, hhigh, htrunc]
    simp only [decide_eq_true_eq]
    split_ifs <;> congr 1 <;> omega
  · have hcut : valueint (Strtod.decimal m e) = Int32.ofInt (if n < 0 then INT_MIN else INT_MAX) := by
      obtain hinfinite | ⟨s, k, hlarge, hfinite⟩ := hfar
      · rw [valueint, hinfinite]
        by_cases hn : n < 0 <;> simp [ Extended.atLeast, Extended.atMost, hn]
      · have hs : ((s * 2 ^ k : ℕ) : ℤ) = s * 2 ^ k := by simp
        by_cases hn : n < 0
        · have hlow : ¬ INT_MAX ≤ -(s * 2 ^ k : ℤ) := by omega
          have hhigh : -(s * 2 ^ k : ℤ) ≤ INT_MIN := by omega
          simp [hfinite, valueint, Extended.atLeast, Extended.atMost, Strtol.signed, hn, hlow, hhigh]
        · have hlow : INT_MAX ≤ (s * 2 ^ k : ℤ) := by omega
          simp [hfinite, valueint, Extended.atLeast, Strtol.signed, hn, hlow]
    rw [hcut]
    split_ifs with hn <;> congr 1 <;> omega

theorem stops_ws {x : UInt8} {u : List UInt8} (h : Ws s (x :: u)) (hx : isNumberByte x = false) (t : List UInt8) :
    Stops (s ++ t) := by
  obtain ⟨y, v, rfl, hy⟩ := h.head
  intro y' v' he
  obtain ⟨rfl, -⟩ := List.cons.inj he
  obtain (rfl | rfl | rfl | rfl) | rfl := hy
  · decide
  · decide
  · decide
  · decide
  · exact hx

section Loops

variable {parseValue : Parse CJson} {head : List CJson} {members : List (CString × CJson)} {js : List Json}
  {ms : List (List Char × Json)} {j : Json} {x : UInt8}

/-- What the loops need of `parse_value` where `k` levels are left: it takes the values that nest no deeper
and fails on the others. -/
def Decodes (parseValue : Parse CJson) (k : ℕ) : Prop :=
  ∀ {s r t : List UInt8} {j : Json} {b : ParseBuffer}, Value s j r → Stops (r ++ t) →
    b.bufferAtOffset = s ++ t → Generous b → b.depth + k = CJSON_NESTING_LIMIT →
    Meets parseValue b (fun _ => k < nesting j) fun item b' =>
      nesting j ≤ k ∧ item = tree j ∧ UpTo b (r ++ t) b'

theorem parseElements_elements (hvalue : Decodes parseValue k) (h : Elements s js r)
    (hb : b.bufferAtOffset = x :: (s ++ t)) (hg : Generous b) (hdepth : b.depth + k = CJSON_NESTING_LIMIT)
    (hn : js.length ≤ n) :
    Meets (parseElements parseValue n head) b (fun _ => k < nestingElements js) fun items b' =>
      nestingElements js ≤ k ∧ items = head ++ trees js ∧ UpTo b (RBRACKET :: r ++ t) b' := by
  induction js generalizing s x b head n with
  | nil => cases h
  | cons j js ih =>
    rw [List.length_cons] at hn
    obtain ⟨n, rfl⟩ : ∃ n', n = n' + 1 := ⟨n - 1, by omega⟩
    simp only [nestingElements, parseElements, meets_bind, meets_onFail, meets_allocate_generous hg, meets_modify,
      meets_nextIs, meets_ite, meets_pure]
    have hstart : UpTo b (s ++ t) (b.allocated.advance 1) := (UpTo.refl hb).allocated.next
    -- what one round does, whatever comes after the value
    have hround {s₁ s₂ u : List UInt8} {y : UInt8} (h₁ : Ws s s₁) (hj : Value s₁ j s₂) (h₂ : Ws s₂ (y :: u))
        (hy : isNumberByte y = false) (hspace : 32 < y.toNat) :
        Meets parseValue (b.allocated.advance 1).skipWhitespace (fun _ => k < nesting j) fun item b' =>
          nesting j ≤ k ∧ item = tree j ∧ UpTo b (y :: u ++ t) b'.skipWhitespace := by
      obtain ⟨z, v, rfl, hz, -⟩ := hj.head
      have hread := hstart.ws h₁ hz
      apply (hvalue hj (stops_ws h₂ hy t) hread.rest (hread.generous hg) (by rw [hread.depth, hdepth])).mono
      · exact fun _ hdeep => hdeep
      · rintro item b₁ ⟨hfits, hitem, hread₁⟩
        exact ⟨hfits, hitem, (hread.trans hread₁).ws h₂ hspace⟩
    cases h with
    | last h₁ hj h₂ =>
      apply (hround h₁ hj h₂ (by decide) (by decide)).mono
      · exact fun _ hdeep => Nat.lt_of_lt_of_le hdeep (Nat.le_max_left _ _)
      · rintro item b₁ ⟨hfits, rfl, hread⟩
        have hnext : ¬ b₁.skipWhitespace.bufferAtOffset.head? = some COMMA := by
          rw [List.cons_append] at hread
          rw [hread.next_iff]
          decide
        simp only [hnext, decide_false, Bool.false_eq_true, false_implies, not_false_eq_true, true_implies, true_and]
        exact ⟨Nat.max_le.mpr ⟨hfits, Nat.zero_le _⟩, rfl, hread⟩
    | cons h₁ hj h₂ hjs =>
      apply (hround h₁ hj h₂ (by decide) (by decide)).mono
      · exact fun _ hdeep => Nat.lt_of_lt_of_le hdeep (Nat.le_max_left _ _)
      · rintro item b₁ ⟨hfits, rfl, hread⟩
        rw [List.cons_append] at hread
        have hnext := hread.next_iff.mpr (Eq.refl COMMA)
        simp only [hnext, decide_true, true_implies, not_true_eq_false, false_implies, and_true]
        apply (ih hjs hread.rest (hread.generous hg) (by rw [hread.depth, hdepth]) (by omega)).mono
        · exact fun _ hdeep => Nat.lt_of_lt_of_le hdeep (Nat.le_max_right _ _)
        · rintro items b₂ ⟨hfits₂, rfl, hread₂⟩
          refine ⟨Nat.max_le.mpr ⟨hfits, hfits₂⟩, ?_, hread.trans hread₂⟩
          rw [trees, List.append_assoc, List.singleton_append]

theorem Elements.start (h : Elements s (j :: js) r) :
    ∃ y u, Ws s (y :: u) ∧ Elements (y :: u) (j :: js) r ∧ 32 < y.toNat ∧ y ≠ RBRACKET := by
  cases h with
  | last h₁ hj h₂ =>
    obtain ⟨y, u, rfl, hspace, hy⟩ := hj.head
    exact ⟨y, u, h₁, .last (.done _) hj h₂, hspace, hy⟩
  | cons h₁ hj h₂ hjs =>
    obtain ⟨y, u, rfl, hspace, hy⟩ := hj.head
    exact ⟨y, u, h₁, .cons (.done _) hj h₂ hjs, hspace, hy⟩

theorem skipWhitespace_pos (hle : b.offset ≤ b.length) (hpos : 0 < b.offset) : 0 < b.skipWhitespace.offset := by
  obtain ⟨offset, hskip, hle', -⟩ := skipWhitespace_offset hle
  rw [hskip]
  exact Nat.lt_of_lt_of_le hpos hle'

theorem parseArray_deep (h : CJSON_NESTING_LIMIT ≤ b.depth) {F : ParseBuffer → Prop} {Q : CJson → ParseBuffer → Prop} :
    Meets (parseArray parseValue) b F Q ↔ F b := by
  simp only [parseArray, meets_bind, meets_get, meets_ite, meets_fail, h, true_implies, not_true_eq_false,
    false_implies, and_true]

theorem parseObject_deep (h : CJSON_NESTING_LIMIT ≤ b.depth) {F : ParseBuffer → Prop} {Q : CJson → ParseBuffer → Prop} :
    Meets (parseObject parseValue) b F Q ↔ F b := by
  simp only [parseObject, meets_bind, meets_get, meets_ite, meets_fail, h, true_implies, not_true_eq_false,
    false_implies, and_true]

theorem parseArray_elements (hvalue : Decodes parseValue k) (h : Elements s (j :: js) r)
    (hb : b.bufferAtOffset = LBRACKET :: (s ++ t)) (hg : Generous b)
    (hdepth : b.depth + (k + 1) = CJSON_NESTING_LIMIT) :
    Meets (parseArray parseValue) b (fun _ => k < nestingElements (j :: js)) fun item b' =>
      nestingElements (j :: js) ≤ k ∧ item = .array (trees (j :: js)) ∧ UpTo b (r ++ t) b' := by
  obtain ⟨y, u, hws, hstart, hspace, hy⟩ := Elements.start h
  have hb' : b.enter.bufferAtOffset = LBRACKET :: (s ++ t) := hb
  have hlimit : ¬ CJSON_NESTING_LIMIT ≤ b.depth := by omega
  have hlength := length_of_rest hb (List.cons_ne_nil _ _)
  have hopen : UpTo b.enter (y :: u ++ t) (b.enter.advance 1).skipWhitespace := (UpTo.refl hb').next.ws hws hspace
  have hempty : ¬ (b.enter.advance 1).skipWhitespace.bufferAtOffset.head? = some RBRACKET := by
    rw [List.cons_append] at hopen
    rw [hopen.next_iff]
    exact hy
  have haccess : (b.enter.advance 1).skipWhitespace.canAccessAtIndex 0 = true := by
    have hin := length_of_rest hopen.rest (List.cons_ne_nil _ _)
    rw [List.length_append, List.length_cons] at hin
    rw [canAccessAtIndex_iff]
    omega
  obtain ⟨x, hback⟩ := hopen.stepBack (List.cons_ne_nil _ _) (skipWhitespace_pos (by
    rw [List.length_cons] at hlength
    simp only [advance_offset, enter_offset, length_advance, length_enter]
    omega) (Nat.succ_pos _))
  simp only [parseArray, meets_bind, meets_get, meets_ite, meets_fail, meets_modify, meets_pure, meets_nextIs,
    meets_first hb', ne_eq, not_true_eq_false, false_implies, not_false_eq_true, true_implies, true_and, hlimit,
    hempty, decide_false, Bool.false_eq_true, haccess, Bool.not_true]
  have hcount := Elements.length_lt hstart
  have hin := length_of_rest hopen.rest (List.cons_ne_nil _ _)
  rw [List.length_append] at hin
  apply (parseElements_elements hvalue hstart hback.rest (hback.generous hg) (by
    rw [hback.depth, enter_depth]
    omega) (by
    rw [length_stepBack]
    omega)).mono
  · exact fun _ hdeep => hdeep
  · rintro items b₁ ⟨hfits, rfl, hread⟩
    have hclose := hback.trans hread
    rw [List.cons_append] at hclose
    simp only [hclose.next_iff.mpr (Eq.refl RBRACKET), decide_true, Bool.not_true, Bool.false_eq_true,
      false_implies, not_false_eq_true, true_implies, true_and]
    exact ⟨hfits, rfl, hclose.leave.next⟩

theorem parseArray_empty (h : Ws s (RBRACKET :: r)) (hb : b.bufferAtOffset = LBRACKET :: (s ++ t))
    (hdepth : b.depth < CJSON_NESTING_LIMIT) :
    Meets (parseArray parseValue) b (fun _ => False) fun item b' => item = .array [] ∧ UpTo b (r ++ t) b' := by
  have hb' : b.enter.bufferAtOffset = LBRACKET :: (s ++ t) := hb
  have hlimit : ¬ CJSON_NESTING_LIMIT ≤ b.depth := by omega
  have hopen : UpTo b.enter (RBRACKET :: r ++ t) (b.enter.advance 1).skipWhitespace :=
    (UpTo.refl hb').next.ws h (by decide)
  rw [List.cons_append] at hopen
  have hempty := hopen.next_iff.mpr (Eq.refl RBRACKET)
  simp only [parseArray, meets_bind, meets_get, meets_ite, meets_fail, meets_modify, meets_pure, meets_nextIs,
    meets_first hb', ne_eq, not_true_eq_false, false_implies, not_false_eq_true, true_implies, true_and, hlimit,
    hempty, decide_true, and_true]
  exact hopen.leave.next

theorem parseMembers_members (hvalue : Decodes parseValue k) (h : Members s ms r)
    (hb : b.bufferAtOffset = x :: (s ++ t)) (hg : Generous b) (hdepth : b.depth + k = CJSON_NESTING_LIMIT)
    (hn : ms.length ≤ n) :
    Meets (parseMembers parseValue n members) b (fun _ => k < nestingMembers ms) fun items b' =>
      nestingMembers ms ≤ k ∧ items = members ++ namedTrees ms ∧ UpTo b (RBRACE :: r ++ t) b' := by
  induction ms generalizing s x b members n with
  | nil => cases h
  | cons m ms ih =>
    obtain ⟨name, j⟩ := m
    rw [List.length_cons] at hn
    obtain ⟨n, rfl⟩ : ∃ n', n = n' + 1 := ⟨n - 1, by omega⟩
    have hstart : UpTo b (s ++ t) (b.allocated.advance 1) := (UpTo.refl hb).allocated.next
    have haccess : b.allocated.canAccessAtIndex 1 = true := by
      have hlength := length_of_rest hb (List.cons_ne_nil _ _)
      have hmembers := Members.length_lt h
      simp only [List.length_cons, List.length_append] at hlength hmembers
      exact canAccessAtIndex_iff.mpr (by
        change b.offset + 1 < b.length
        omega)
    simp only [nestingMembers, parseMembers, meets_bind, meets_onFail, meets_allocate_generous hg, meets_modify,
      meets_nextIs, meets_ite, meets_pure, meets_get, meets_fail, haccess, Bool.not_true, Bool.false_eq_true,
      false_implies, not_false_eq_true, true_implies, true_and]
    -- what one round does, whatever comes after the value
    have hround {s₁ s₂ s₃ s₄ s₅ u : List UInt8} {y : UInt8} (h₁ : Ws s (QUOTE :: s₁)) (hname : Str s₁ name s₂)
        (h₂ : Ws s₂ (COLON :: s₃)) (h₃ : Ws s₃ s₄) (hj : Value s₄ j s₅) (h₄ : Ws s₅ (y :: u))
        (hy : isNumberByte y = false) (hspace : 32 < y.toNat) :
        Meets parseString (b.allocated.advance 1).skipWhitespace (fun _ => False) fun out b₁ =>
          out = octets name ∧ b₁.skipWhitespace.bufferAtOffset.head? = some COLON ∧
            Meets parseValue (b₁.skipWhitespace.advance 1).skipWhitespace (fun _ => k < nesting j) fun item b' =>
              nesting j ≤ k ∧ item = tree j ∧ UpTo b (y :: u ++ t) b'.skipWhitespace := by
      have hread := hstart.ws h₁ (by decide)
      rw [List.cons_append] at hread
      apply (parseString_str hname hread.rest (hread.generous hg)).mono
      · exact fun _ hf => hf
      rintro out b₁ ⟨rfl, hread₁⟩
      have hcolon := (hread.trans hread₁).ws h₂ (by decide)
      rw [List.cons_append] at hcolon
      refine ⟨rfl, hcolon.next_iff.mpr rfl, ?_⟩
      obtain ⟨z, v, rfl, hz, -⟩ := hj.head
      have hread₂ := hcolon.next.ws h₃ hz
      apply (hvalue hj (stops_ws h₄ hy t) hread₂.rest (hread₂.generous hg) (by rw [hread₂.depth, hdepth])).mono
      · exact fun _ hdeep => hdeep
      · rintro item b₂ ⟨hfits, hitem, hread₃⟩
        exact ⟨hfits, hitem, (hread₂.trans hread₃).ws h₄ hspace⟩
    cases h with
    | last h₁ hname h₂ h₃ hj h₄ =>
      apply (hround h₁ hname h₂ h₃ hj h₄ (by decide) (by decide)).mono
      · exact fun _ hf => hf.elim
      rintro out b₁ ⟨rfl, hcolon, hitem⟩
      simp only [hcolon, decide_true, Bool.not_true, Bool.false_eq_true, false_implies, not_false_eq_true,
        true_implies, true_and]
      apply hitem.mono
      · exact fun _ hdeep => Nat.lt_of_lt_of_le hdeep (Nat.le_max_left _ _)
      rintro item b₂ ⟨hfits, rfl, hread⟩
      have hnext : ¬ b₂.skipWhitespace.bufferAtOffset.head? = some COMMA := by
        rw [List.cons_append] at hread
        rw [hread.next_iff]
        decide
      simp only [hnext, decide_false, Bool.false_eq_true, false_implies, not_false_eq_true, true_implies, true_and]
      exact ⟨Nat.max_le.mpr ⟨hfits, Nat.zero_le _⟩, rfl, hread⟩
    | cons h₁ hname h₂ h₃ hj h₄ hms =>
      apply (hround h₁ hname h₂ h₃ hj h₄ (by decide) (by decide)).mono
      · exact fun _ hf => hf.elim
      rintro out b₁ ⟨rfl, hcolon, hitem⟩
      simp only [hcolon, decide_true, Bool.not_true, Bool.false_eq_true, false_implies, not_false_eq_true,
        true_implies, true_and]
      apply hitem.mono
      · exact fun _ hdeep => Nat.lt_of_lt_of_le hdeep (Nat.le_max_left _ _)
      rintro item b₂ ⟨hfits, rfl, hread⟩
      rw [List.cons_append] at hread
      simp only [hread.next_iff.mpr (Eq.refl COMMA), decide_true, true_implies, not_true_eq_false, false_implies,
        and_true]
      apply (ih hms hread.rest (hread.generous hg) (by rw [hread.depth, hdepth]) (by omega)).mono
      · exact fun _ hdeep => Nat.lt_of_lt_of_le hdeep (Nat.le_max_right _ _)
      · rintro items b₃ ⟨hfits₃, rfl, hread₃⟩
        refine ⟨Nat.max_le.mpr ⟨hfits, hfits₃⟩, ?_, hread.trans hread₃⟩
        rw [namedTrees, List.append_assoc, List.singleton_append]

theorem Members.start (h : Members s ms r) :
    ∃ u, Ws s (QUOTE :: u) ∧ Members (QUOTE :: u) ms r := by
  cases h with
  | last h₁ hname h₂ h₃ hj h₄ => exact ⟨_, h₁, .last (.done _) hname h₂ h₃ hj h₄⟩
  | cons h₁ hname h₂ h₃ hj h₄ hms => exact ⟨_, h₁, .cons (.done _) hname h₂ h₃ hj h₄ hms⟩

theorem parseObject_members (hvalue : Decodes parseValue k) (h : Members s ms r)
    (hb : b.bufferAtOffset = LBRACE :: (s ++ t)) (hg : Generous b)
    (hdepth : b.depth + (k + 1) = CJSON_NESTING_LIMIT) :
    Meets (parseObject parseValue) b (fun _ => k < nestingMembers ms) fun item b' =>
      nestingMembers ms ≤ k ∧ item = .object (namedTrees ms) ∧ UpTo b (r ++ t) b' := by
  obtain ⟨u, hws, hstart⟩ := Members.start h
  have hb' : b.enter.bufferAtOffset = LBRACE :: (s ++ t) := hb
  have hfirst := (UpTo.refl hb').next_iff.mpr (Eq.refl LBRACE)
  have hlimit : ¬ CJSON_NESTING_LIMIT ≤ b.depth := by omega
  have hlength := length_of_rest hb (List.cons_ne_nil _ _)
  have hopen : UpTo b.enter (QUOTE :: u ++ t) (b.enter.advance 1).skipWhitespace :=
    (UpTo.refl hb').next.ws hws (by decide)
  have hempty : ¬ (b.enter.advance 1).skipWhitespace.bufferAtOffset.head? = some RBRACE := by
    rw [List.cons_append] at hopen
    rw [hopen.next_iff]
    decide
  have hin := length_of_rest hopen.rest (List.cons_ne_nil _ _)
  rw [List.length_append, List.length_cons] at hin
  have haccess : (b.enter.advance 1).skipWhitespace.canAccessAtIndex 0 = true := by
    rw [canAccessAtIndex_iff]
    omega
  obtain ⟨x, hback⟩ := hopen.stepBack (List.cons_ne_nil _ _) (skipWhitespace_pos (by
    rw [List.length_cons] at hlength
    simp only [advance_offset, enter_offset, length_advance, length_enter]
    omega) (Nat.succ_pos _))
  simp only [parseObject, meets_bind, meets_get, meets_ite, meets_fail, meets_modify, meets_pure, meets_nextIs,
    hfirst, decide_true, Bool.not_true, Bool.false_eq_true, false_implies, not_false_eq_true, true_implies, true_and,
    hlimit, hempty, decide_false, haccess]
  have hcount := Members.length_lt hstart
  rw [List.length_cons] at hcount
  apply (parseMembers_members hvalue hstart hback.rest (hback.generous hg) (by
    rw [hback.depth, enter_depth]
    omega) (by
    rw [length_stepBack]
    omega)).mono
  · exact fun _ hdeep => hdeep
  · rintro items b₁ ⟨hfits, rfl, hread⟩
    have hclose := hback.trans hread
    rw [List.cons_append] at hclose
    simp only [hclose.next_iff.mpr (Eq.refl RBRACE), decide_true, Bool.not_true, Bool.false_eq_true, false_implies,
      not_false_eq_true, true_implies, true_and]
    exact ⟨hfits, rfl, hclose.leave.next⟩

theorem parseObject_empty (h : Ws s (RBRACE :: r)) (hb : b.bufferAtOffset = LBRACE :: (s ++ t))
    (hdepth : b.depth < CJSON_NESTING_LIMIT) :
    Meets (parseObject parseValue) b (fun _ => False) fun item b' => item = .object [] ∧ UpTo b (r ++ t) b' := by
  have hb' : b.enter.bufferAtOffset = LBRACE :: (s ++ t) := hb
  have hfirst := (UpTo.refl hb').next_iff.mpr (Eq.refl LBRACE)
  have hlimit : ¬ CJSON_NESTING_LIMIT ≤ b.depth := by omega
  have hopen : UpTo b.enter (RBRACE :: r ++ t) (b.enter.advance 1).skipWhitespace :=
    (UpTo.refl hb').next.ws h (by decide)
  rw [List.cons_append] at hopen
  have hempty := hopen.next_iff.mpr (Eq.refl RBRACE)
  simp only [parseObject, meets_bind, meets_get, meets_ite, meets_fail, meets_modify, meets_pure, meets_nextIs,
    hfirst, decide_true, Bool.not_true, Bool.false_eq_true, false_implies, not_false_eq_true, true_implies, true_and,
    hlimit, hempty, not_true_eq_false, and_true]
  exact hopen.leave.next

end Loops

theorem take_ne {x c : UInt8} {u cs : List UInt8} (h : x ≠ c) : (x :: u).take (n + 1) ≠ c :: cs := by
  rw [List.take_succ_cons]
  intro he
  exact h (List.cons.inj he).1

theorem meets_parseValue {x : UInt8} (hb : b.bufferAtOffset = x :: s) (hn : x ≠ 110) (hf : x ≠ 102)
    (ht : x ≠ 116) {F : ParseBuffer → Prop} {Q : CJson → ParseBuffer → Prop} :
    Meets (parseValue (n + 1)) b F Q ↔
      (x = QUOTE → Meets parseString b F fun out b' => Q (.string out) b') ∧
      (x ≠ QUOTE → (x = 45 ∨ 48 ≤ x ∧ x ≤ 57 → Meets parseNumber b F Q) ∧
        (¬ (x = 45 ∨ 48 ≤ x ∧ x ≤ 57) → (x = LBRACKET → Meets (parseArray (parseValue n)) b F Q) ∧
          (x ≠ LBRACKET → (x = LBRACE → Meets (parseObject (parseValue n)) b F Q) ∧ (x ≠ LBRACE → F b)))) := by
  have hlength := length_of_rest hb (List.cons_ne_nil _ _)
  rw [List.length_cons] at hlength
  have haccess : b.canAccessAtIndex 0 = true := canAccessAtIndex_iff.mpr (by omega)
  have hnull : ¬ (b.canRead 4 = true ∧ b.bufferAtOffset.take 4 = ascii ['n', 'u', 'l', 'l']) := by
    rw [hb]
    exact fun h => take_ne hn h.2
  have hfalse : ¬ (b.canRead 5 = true ∧ b.bufferAtOffset.take 5 = ascii ['f', 'a', 'l', 's', 'e']) := by
    rw [hb]
    exact fun h => take_ne hf h.2
  have htrue : ¬ (b.canRead 4 = true ∧ b.bufferAtOffset.take 4 = ascii ['t', 'r', 'u', 'e']) := by
    rw [hb]
    exact fun h => take_ne ht h.2
  simp only [parseValue, meets_bind, meets_get, meets_ite, hnull, hfalse, htrue, haccess, Bool.not_true,
    Bool.false_eq_true, false_implies, not_false_eq_true, true_implies, true_and, meets_first hb, meets_pure,
    meets_fail, ne_eq]

theorem take_literal (name : List UInt8) {u : List UInt8} (hb : b.bufferAtOffset = name ++ u) (hne : name ≠ []) :
    b.canRead name.length = true ∧ b.bufferAtOffset.take name.length = name := by
  have hlength := length_of_rest hb (List.append_ne_nil_of_left_ne_nil hne u)
  rw [List.length_append] at hlength
  refine ⟨canRead_iff.mpr (by omega), ?_⟩
  rw [hb, List.take_left]

theorem Number.first {text : List Char} {m e : ℤ} (h : Number text m e) :
    ∃ x u, bytes text = x :: u ∧ (x = 45 ∨ 48 ≤ x ∧ x ≤ 57) := by
  cases h with
  | positive hi =>
    obtain ⟨d, ds, rfl⟩ := List.exists_cons_of_ne_nil hi.nonempty
    obtain ⟨hdigit, -⟩ := isdigit_byte (hi.digit d List.mem_cons_self)
    exact ⟨_, _, rfl, .inr (of_decide_eq_true hdigit)⟩
  | negative => exact ⟨_, _, rfl, .inl rfl⟩

theorem parseValue_number {text : List Char} {m e : ℤ} {u : List UInt8} (h : Number text m e)
    (hb : b.bufferAtOffset = bytes text ++ u) (hu : Stops u) (hg : Generous b) :
    Meets (parseValue (n + 1)) b (fun _ => False) fun item b' =>
      item = .number (valueint (decimal m e)) (decimal m e) ∧ UpTo b u b' := by
  obtain ⟨x, v, htext, hx⟩ := Number.first h
  have hne : ∀ y : UInt8, isNumberByte y = false → x ≠ y := by
    rintro y hy rfl
    have hyes : isNumberByte x = true := by
      obtain rfl | hdigit := hx
      · decide
      · simp [isNumberByte, hdigit]
    rw [hy] at hyes
    cases hyes
  have hb' : b.bufferAtOffset = x :: (v ++ u) := by rw [hb, htext, List.cons_append]
  rw [meets_parseValue hb' (hne 110 (by decide)) (hne 102 (by decide)) (hne 116 (by decide))]
  refine ⟨fun hquote => absurd hquote (hne QUOTE (by decide)), fun _ => ⟨fun _ => ?_, fun hno => absurd hx hno⟩⟩
  exact parseNumber_number h hb hu hg

theorem parseValue_value (hinner : ∀ k, n = k + 1 → Decodes (parseValue n) k) :
    Decodes (parseValue (n + 1)) n := by
  intro s r t j b h hstops hb hg hdepth
  cases h with
  | null =>
    rw [List.append_assoc] at hb
    have hnull : b.canRead 4 = true ∧ b.bufferAtOffset.take 4 = ascii ['n', 'u', 'l', 'l'] :=
      take_literal _ hb (by decide)
    simp only [parseValue, meets_bind, meets_get, meets_ite, hnull, and_self, true_implies, meets_modify, meets_pure,
      not_true_eq_false, false_implies, and_true]
    exact ⟨Nat.zero_le n, rfl, (UpTo.refl hb).advance⟩
  | true =>
    rw [List.append_assoc] at hb
    have htrue : b.canRead 4 = true ∧ b.bufferAtOffset.take 4 = ascii ['t', 'r', 'u', 'e'] :=
      take_literal _ hb (by decide)
    have hnull : ¬ (b.canRead 4 = true ∧ b.bufferAtOffset.take 4 = ascii ['n', 'u', 'l', 'l']) := by
      rw [hb]
      exact fun h => take_ne (by decide) h.2
    have hfalse : ¬ (b.canRead 5 = true ∧ b.bufferAtOffset.take 5 = ascii ['f', 'a', 'l', 's', 'e']) := by
      rw [hb]
      exact fun h => take_ne (by decide) h.2
    simp only [parseValue, meets_bind, meets_get, meets_ite, hnull, hfalse, not_false_eq_true, false_implies,
      true_implies, meets_modify, meets_pure, true_and]
    simp only [htrue, and_self, true_implies, not_true_eq_false, false_implies, and_true]
    exact ⟨Nat.zero_le n, rfl, (UpTo.refl hb).advance⟩
  | false =>
    rw [List.append_assoc] at hb
    have hfalse : b.canRead 5 = true ∧ b.bufferAtOffset.take 5 = ascii ['f', 'a', 'l', 's', 'e'] :=
      take_literal _ hb (by decide)
    have hnull : ¬ (b.canRead 4 = true ∧ b.bufferAtOffset.take 4 = ascii ['n', 'u', 'l', 'l']) := by
      rw [hb]
      exact fun h => take_ne (by decide) h.2
    simp only [parseValue, meets_bind, meets_get, meets_ite, hnull, not_false_eq_true, false_implies, hfalse, and_self,
      true_implies, meets_modify, meets_pure, not_true_eq_false, and_true, true_and]
    exact ⟨Nat.zero_le n, rfl, (UpTo.refl hb).advance⟩
  | number hn =>
    apply (parseValue_number hn (List.append_assoc _ r t ▸ hb) hstops hg).mono
    · exact fun _ hf => hf.elim
    · rintro item b' ⟨rfl, hread⟩
      exact ⟨Nat.zero_le n, rfl, hread⟩
  | string hs =>
    rw [meets_parseValue hb (by decide) (by decide) (by decide)]
    refine ⟨fun _ => ?_, fun hno => absurd rfl hno⟩
    apply (parseString_str hs hb hg).mono
    · exact fun _ hf => hf.elim
    · rintro out b' ⟨rfl, hread⟩
      exact ⟨Nat.zero_le n, rfl, hread⟩
  | emptyArray hws =>
    rw [meets_parseValue hb (by decide) (by decide) (by decide)]
    refine ⟨fun hno => absurd hno (by decide), fun _ => ⟨fun hno => absurd hno (by decide), fun _ => ?_⟩⟩
    refine ⟨fun _ => ?_, fun hno => absurd rfl hno⟩
    by_cases hlimit : CJSON_NESTING_LIMIT ≤ b.depth
    · rw [parseArray_deep hlimit, nesting]
      omega
    · apply (parseArray_empty hws hb (Nat.not_le.mp hlimit)).mono
      · exact fun _ hf => hf.elim
      · rintro item b' ⟨rfl, hread⟩
        refine ⟨?_, rfl, hread⟩
        rw [nesting, nestingElements]
        omega
  | @array _ _ js hes =>
    rw [meets_parseValue hb (by decide) (by decide) (by decide)]
    refine ⟨fun hno => absurd hno (by decide), fun _ => ⟨fun hno => absurd hno (by decide), fun _ => ?_⟩⟩
    refine ⟨fun _ => ?_, fun hno => absurd rfl hno⟩
    cases js with
    | nil => cases hes
    | cons j js =>
      cases n with
      | zero =>
        rw [parseArray_deep (Nat.le_of_eq hdepth.symm)]
        exact Nat.succ_pos _
      | succ k =>
        apply (parseArray_elements (hinner k rfl) hes hb hg hdepth).mono
        · exact fun _ hdeep => Nat.succ_lt_succ hdeep
        · rintro item b' ⟨hfits, rfl, hread⟩
          exact ⟨Nat.succ_le_succ hfits, rfl, hread⟩
  | emptyObject hws =>
    rw [meets_parseValue hb (by decide) (by decide) (by decide)]
    refine ⟨fun hno => absurd hno (by decide), fun _ => ⟨fun hno => absurd hno (by decide), fun _ => ?_⟩⟩
    refine ⟨fun hno => absurd hno (by decide), fun _ => ⟨fun _ => ?_, fun hno => absurd rfl hno⟩⟩
    by_cases hlimit : CJSON_NESTING_LIMIT ≤ b.depth
    · rw [parseObject_deep hlimit, nesting]
      omega
    · apply (parseObject_empty hws hb (Nat.not_le.mp hlimit)).mono
      · exact fun _ hf => hf.elim
      · rintro item b' ⟨rfl, hread⟩
        refine ⟨?_, rfl, hread⟩
        rw [nesting, nestingMembers]
        omega
  | object hms =>
    rw [meets_parseValue hb (by decide) (by decide) (by decide)]
    refine ⟨fun hno => absurd hno (by decide), fun _ => ⟨fun hno => absurd hno (by decide), fun _ => ?_⟩⟩
    refine ⟨fun hno => absurd hno (by decide), fun _ => ⟨fun _ => ?_, fun hno => absurd rfl hno⟩⟩
    cases n with
    | zero =>
      rw [parseObject_deep (Nat.le_of_eq hdepth.symm)]
      exact Nat.succ_pos _
    | succ k =>
      apply (parseObject_members (hinner k rfl) hms hb hg hdepth).mono
      · exact fun _ hdeep => Nat.succ_lt_succ hdeep
      · rintro item b' ⟨hfits, rfl, hread⟩
        exact ⟨Nat.succ_le_succ hfits, rfl, hread⟩

theorem parseValue_decodes (n : ℕ) : Decodes (parseValue (n + 1)) n := by
  induction n with
  | zero =>
    apply parseValue_value
    intro k hk
    cases hk
  | succ n ih =>
    apply parseValue_value
    intro k hk
    rw [← Nat.succ.inj hk]
    exact ih

def BOM : List UInt8 := [0xEF, 0xBB, 0xBF]

theorem skipWhitespace_end {ws : List UInt8} (h : b.bufferAtOffset = ws ++ [0]) (hws : ∀ y ∈ ws, y ≤ 32) :
    b.skipWhitespace.bufferAtOffset = [0] := by
  have hlength := length_of_rest h (List.append_ne_nil_of_right_ne_nil ws (List.cons_ne_nil 0 []))
  rw [List.length_append, List.length_singleton] at hlength
  have haccess : b.canAccessAtIndex 0 = true := canAccessAtIndex_iff.mpr (by omega)
  have hall : ∀ y ∈ ws ++ [0], decide (y ≤ 32) = true := by
    intro y hy
    obtain hy | hy := List.mem_append.mp hy
    · exact decide_eq_true (hws y hy)
    · rw [List.mem_singleton.mp hy]
      decide
  have htake : (b.bufferAtOffset.takeWhile (· ≤ 32)).length = ws.length + 1 := by
    rw [h, List.takeWhile_eq_self_iff.mpr hall, List.length_append, List.length_singleton]
  have hend : b.offset + (ws.length + 1) = b.length := by omega
  have hskip : b.skipWhitespace = b.advance ws.length := by
    simp only [skipWhitespace, haccess, Bool.not_true, Bool.false_eq_true, if_false, htake, hend, if_true]
    rw [← hend]
    rfl
  rw [hskip]
  exact ((UpTo.refl h).advance).rest

theorem skipUtf8Bom_plain {x : UInt8} (h : b.bufferAtOffset = x :: s) (hx : x ≠ 0xEF) : b.skipUtf8Bom = b := by
  unfold skipUtf8Bom
  rw [if_neg]
  rintro ⟨-, hbom⟩
  rw [h] at hbom
  exact take_ne hx hbom

theorem UpTo.bom {front text : List UInt8} {x : UInt8} (hfront : front = [] ∨ front = BOM)
    (hx : x ≠ 0xEF) (h : UpTo b (front ++ (x :: text ++ [0])) b') : UpTo b (x :: text ++ [0]) b'.skipUtf8Bom := by
  obtain rfl | rfl := hfront
  · rw [skipUtf8Bom_plain h.rest hx]
    exact h
  · have hlength := length_of_rest h.rest (List.append_ne_nil_of_right_ne_nil _ (List.cons_ne_nil _ _))
    simp only [BOM, List.length_append, List.length_cons, List.length_nil] at hlength
    have hbom : b'.canAccessAtIndex 4 = true ∧ b'.bufferAtOffset.take 3 = [0xEF, 0xBB, 0xBF] := by
      rw [canAccessAtIndex_iff, h.rest]
      exact ⟨by omega, rfl⟩
    unfold skipUtf8Bom
    rw [if_pos hbom]
    exact h.advance

theorem Text.first {text : List UInt8} {j : Json} (h : Text text j) : ∃ x u, text = x :: u ∧ x ≠ 0xEF := by
  obtain ⟨s₁, s₂, hws, hj, -⟩ := h
  have hvalue : ∃ x u, s₁ = x :: u ∧ x ≠ 0xEF := by
    cases hj with
    | number hn =>
      obtain ⟨x, u, htext, hx⟩ := Number.first hn
      rw [htext]
      refine ⟨x, _, rfl, ?_⟩
      rintro rfl
      exact absurd hx (by decide)
    | null | true | false | string | emptyArray | array | emptyObject | object =>
      exact ⟨_, _, rfl, by decide⟩
  obtain ⟨x, u, rfl, hx⟩ := hvalue
  obtain ⟨y, v, rfl, hy⟩ := hws.head
  refine ⟨y, v, rfl, ?_⟩
  obtain (rfl | rfl | rfl | rfl) | rfl := hy
  · decide
  · decide
  · decide
  · decide
  · exact hx

theorem parseRoot_text {front text : List UInt8} {j : Json} (hfront : front = [] ∨ front = BOM) (h : Text text j)
    (requireNullTerminated : Bool) (hb : b.bufferAtOffset = front ++ (text ++ [0])) (hzero : b.depth = 0)
    (hg : Generous b) :
    Meets (parseRoot requireNullTerminated) b (fun _ => CJSON_NESTING_LIMIT < nesting j) fun item _ =>
      nesting j ≤ CJSON_NESTING_LIMIT ∧ item = tree j := by
  obtain ⟨x, u, rfl, hx⟩ := Text.first h
  obtain ⟨s₁, s₂, hws, hj, hend⟩ := h
  obtain ⟨y, v, rfl, hy, -⟩ := hj.head
  have hstart := (((UpTo.refl hb).allocated.bom hfront hx).ws hws hy)
  obtain ⟨ws, hs₂, hspaces⟩ := hend.spaces
  rw [List.append_nil] at hs₂
  subst hs₂
  have hspaces' : ∀ z ∈ s₂, z ≤ 32 := by
    intro z hz
    obtain rfl | rfl | rfl | rfl := hspaces z hz <;> decide
  have hstops : Stops (s₂ ++ [0]) := by
    intro z w he
    cases s₂ with
    | nil =>
      obtain ⟨rfl, -⟩ := List.cons.inj he
      decide
    | cons z' s₂ =>
      obtain ⟨rfl, -⟩ := List.cons.inj he
      obtain rfl | rfl | rfl | rfl := hspaces z' List.mem_cons_self <;> decide
  simp only [parseRoot, meets_bind, meets_allocate_generous hg, meets_modify, meets_onFail, meets_ite, meets_nextIs,
    meets_fail, meets_pure]
  apply (parseValue_decodes _ hj hstops hstart.rest (hstart.generous hg) (by
    rw [hstart.depth, hzero, Nat.zero_add])).mono
  · exact fun _ hdeep => hdeep
  · rintro item b₁ ⟨hfits, rfl, hread⟩
    have hzero := skipWhitespace_end hread.rest hspaces'
    refine ⟨fun _ => ⟨?_, fun _ => ⟨hfits, rfl⟩⟩, fun _ => ⟨hfits, rfl⟩⟩
    rw [hzero]
    simp

def itemNamed (name : List Char) : Json → Option Json
  | .object ms => (ms.find? fun m => m.1.takeWhile (· ≠ NUL) = name).map Prod.snd
  | _ => none

theorem cString_octets (cs : List Char) : cString (octets cs) = octets (cs.takeWhile (· ≠ NUL)) :=
  octets_takeWhile cs

theorem find_namedTrees (name : List Char) (ms : List (List Char × Json)) :
    ((namedTrees ms).find? fun m => m.1 = octets name).map Prod.snd =
      ((ms.find? fun m => m.1.takeWhile (· ≠ NUL) = name).map Prod.snd).map tree := by
  induction ms with
  | nil => rfl
  | cons m ms ih =>
    obtain ⟨k, j⟩ := m
    have hkey : cString (octets k) = octets name ↔ k.takeWhile (· ≠ NUL) = name := by
      rw [cString_octets]
      exact ⟨octets_injective, congrArg octets⟩
    by_cases hk : k.takeWhile (· ≠ NUL) = name
    · rw [namedTrees, List.find?_cons_of_pos (by simpa using hkey.mpr hk),
        List.find?_cons_of_pos (by simpa using hk)]
      rfl
    · rw [namedTrees, List.find?_cons_of_neg (by simpa using mt hkey.mp hk),
        List.find?_cons_of_neg (by simpa using hk), ih]

theorem getObjectItem_tree (name : List Char) (j : Json) :
    (tree j).getObjectItem (octets name) = (itemNamed name j).map tree := by
  cases j with
  | object ms => exact find_namedTrees name ms
  | bool b => cases b <;> rfl
  | null | number | string | array => rfl

section Text

variable {grants : ℕ → Bool} {front text : List UInt8} {j : Json}

theorem start_text (hg : ∀ n, grants n = true) (hfront : front = [] ∨ front = BOM) (h : Text text j)
    (requireNullTerminated : Bool) :
    Meets (parseRoot requireNullTerminated) ⟨front ++ text ++ [0], 0, 0, ⟨grants, 0, 0⟩⟩
      (fun _ => CJSON_NESTING_LIMIT < nesting j) fun item _ =>
        nesting j ≤ CJSON_NESTING_LIMIT ∧ item = tree j := by
  have hgenerous : Generous ⟨front ++ text ++ [0], 0, 0, ⟨grants, 0, 0⟩⟩ := hg
  exact parseRoot_text hfront h requireNullTerminated (List.append_assoc front text [0]) rfl hgenerous

theorem parse_text (hg : ∀ n, grants n = true) (hfront : front = [] ∨ front = BOM) (h : Text text j)
    (hdepth : nesting j ≤ CJSON_NESTING_LIMIT) (requireNullTerminated : Bool) :
    ∃ hooks, cJSONParseWithOpts grants (front ++ text) requireNullTerminated = some ⟨.ok (tree j), hooks⟩ := by
  have hmeets := start_text hg hfront h requireNullTerminated
  have hne : ¬ (front ++ text ++ [0]).length = 0 := by simp
  rw [cJSONParseWithOpts, cJSONParseWithLengthOpts, if_neg hne]
  simp only [Meets] at hmeets
  split at hmeets
  · exact hmeets.elim
  · omega
  · rename_i item buffer hok
    rw [hok, hmeets.2]
    exact ⟨_, rfl⟩

theorem parse_deep (hg : ∀ n, grants n = true) (hfront : front = [] ∨ front = BOM) (h : Text text j)
    (hdepth : CJSON_NESTING_LIMIT < nesting j) (requireNullTerminated : Bool) :
    ∃ position hooks,
      cJSONParseWithOpts grants (front ++ text) requireNullTerminated = some ⟨.error position, hooks⟩ := by
  have hmeets := start_text hg hfront h requireNullTerminated
  have hne : ¬ (front ++ text ++ [0]).length = 0 := by simp
  rw [cJSONParseWithOpts, cJSONParseWithLengthOpts, if_neg hne]
  simp only [Meets] at hmeets
  split at hmeets
  · exact hmeets.elim
  · rename_i buffer hfail
    rw [hfail]
    exact ⟨_, _, rfl⟩
  · omega

end Text

/-- A JSON text, with or without a byte order mark in front, is parsed to the tree of its value if it nests
1000 deep at most, and refused otherwise. -/
theorem parse_standard (grants : ℕ → Bool) (hg : ∀ n, grants n = true) (front text : List UInt8)
    (hfront : front = [] ∨ front = BOM) (j : Json) (h : Text text j) (requireNullTerminated : Bool) :
    ∃ root hooks, cJSONParseWithOpts grants (front ++ text) requireNullTerminated = some ⟨root, hooks⟩ ∧
      (nesting j ≤ CJSON_NESTING_LIMIT → root = .ok (tree j)) ∧
      (CJSON_NESTING_LIMIT < nesting j → ∃ position, root = .error position) := by
  by_cases hdepth : nesting j ≤ CJSON_NESTING_LIMIT
  · obtain ⟨hooks, hparse⟩ := parse_text hg hfront h hdepth requireNullTerminated
    exact ⟨_, hooks, hparse, fun _ => rfl, fun hdeep => absurd hdepth (Nat.not_le.mpr hdeep)⟩
  · obtain ⟨position, hooks, hparse⟩ := parse_deep hg hfront h (Nat.not_le.mp hdepth) requireNullTerminated
    exact ⟨_, hooks, hparse, fun hfits => absurd hfits hdepth, fun _ => ⟨position, rfl⟩⟩

theorem parse_standard_one :
    ∃ root hooks, cJSONParseWithOpts (fun _ => true) (BOM ++ [91, 49, 93]) true = some ⟨root, hooks⟩ ∧
      (nesting (.array [.number 1 0]) ≤ CJSON_NESTING_LIMIT → root = .ok (tree (.array [.number 1 0]))) ∧
      (CJSON_NESTING_LIMIT < nesting (.array [.number 1 0]) → ∃ position, root = .error position) := by
  have hone : Value [49, 93] (.number 1 0) [93] := Value.number (r := [93]) (number_repr 1)
  have htext : Text [91, 49, 93] (.array [.number 1 0]) :=
    ⟨_, _, .done _, .array (.last (.done _) hone (.done _)), .done _⟩
  exact parse_standard _ (fun _ => rfl) BOM [91, 49, 93] (.inr rfl) _ htext true

end EmbeddedLinuxTraining.CJSON
