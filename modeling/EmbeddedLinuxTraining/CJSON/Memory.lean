import Mathlib.Data.Bool.Count
import EmbeddedLinuxTraining.CJSON.Program

namespace EmbeddedLinuxTraining.CJSON

open Library Library.Binary64 Library.Json Library.Strtod Telemetry Procedure ParseBuffer

variable {b b' b'' : ParseBuffer} {c : UInt8} {i k n : ℕ} {F : ParseBuffer → Prop}

theorem meets_byteAt {Q : UInt8 → ParseBuffer → Prop} (h : b.bufferAtOffset[i]? = some c) :
    Meets (byteAt i) b F Q ↔ Q c b := by
  rw [bufferAtOffset, List.getElem?_drop] at h
  simp only [Meets, byteAt, h]

theorem canAccessAtIndex_iff : b.canAccessAtIndex i = true ↔ b.offset + i < b.length := by
  simp [canAccessAtIndex]

@[simp] theorem meets_nextIs {Q : Bool → ParseBuffer → Prop} :
    Meets (nextIs c) b F Q ↔ Q (b.bufferAtOffset.head? = some c) b := by
  simp only [nextIs, meets_bind, meets_get, meets_ite, canAccessAtIndex_iff]
  cases hrest : b.bufferAtOffset with
  | nil =>
    have hle : ¬ b.offset + 0 < b.length := Nat.not_lt.mpr (List.drop_eq_nil_iff.mp hrest)
    simp only [hle]
    simp
  | cons x rest =>
    have hlt : b.offset + 0 < b.length := by
      by_contra hle
      have hnil : b.bufferAtOffset = [] := List.drop_eq_nil_iff.mpr (Nat.not_lt.mp hle)
      rw [hrest] at hnil
      cases hnil
    have hbyte : b.bufferAtOffset[0]? = some x := by rw [hrest, List.getElem?_cons_zero]
    simp only [hlt, meets_byteAt hbyte]
    simp

theorem meets_allocate {Q : Unit → ParseBuffer → Prop} (hfail : F b.refused) (hok : Q () b.allocated) :
    Meets allocate b F Q := by
  simp only [Meets, allocate]
  split_ifs
  · exact hok
  · exact hfail

structure Within (b b' : ParseBuffer) : Prop where
  content : b'.content = b.content
  inside : b'.offset ≤ b.length

structure Read (n : ℕ) (b b' : ParseBuffer) : Prop extends Within b b' where
  depth : b'.depth = b.depth
  before : b.offset ≤ b'.offset
  live : b'.hooks.live = b.hooks.live + n

structure Freed (n : ℕ) (b b' : ParseBuffer) : Prop extends Within b b' where
  live : b'.hooks.live + n = b.hooks.live

theorem Within.length (h : Within b b') : b'.length = b.length := congrArg List.length h.content

@[simp] theorem length_advance (n : ℕ) (b : ParseBuffer) : (b.advance n).length = b.length := rfl

@[simp] theorem length_stepBack (b : ParseBuffer) : b.stepBack.length = b.length := rfl

@[simp] theorem length_enter (b : ParseBuffer) : b.enter.length = b.length := rfl

@[simp] theorem length_skipWhitespace (b : ParseBuffer) : b.skipWhitespace.length = b.length := by
  unfold skipWhitespace
  split_ifs <;> rfl

theorem skipWhitespace_offset (h : b.offset ≤ b.length) :
    ∃ offset, b.skipWhitespace = { b with offset := offset } ∧ b.offset ≤ offset ∧ offset ≤ b.length ∧
      (b.offset < b.length → offset < b.length) := by
  unfold skipWhitespace
  by_cases hlt : b.offset < b.length
  · have hspaces := (List.takeWhile_prefix (l := b.bufferAtOffset) (· ≤ 32)).length_le
    have hrest : b.bufferAtOffset.length = b.length - b.offset := List.length_drop
    simp only [canAccessAtIndex, Nat.add_zero, hlt, decide_true, Bool.not_true, Bool.false_eq_true, if_false]
    refine ⟨_, rfl, ?_, ?_, ?_⟩
    · split_ifs <;> omega
    · split_ifs <;> omega
    · intro _
      split_ifs <;> omega
  · refine ⟨b.offset, ?_, Nat.le_refl _, h, fun hlt' => absurd hlt' hlt⟩
    simp [canAccessAtIndex, hlt]

theorem skipWhitespace_lt (h : b.offset < b.length) : b.skipWhitespace.offset < b.length := by
  obtain ⟨offset, hskip, -, -, hlt⟩ := skipWhitespace_offset (Nat.le_of_lt h)
  rw [hskip]
  exact hlt h

theorem Read.refl (h : b.offset ≤ b.length) : Read 0 b b := ⟨⟨rfl, h⟩, rfl, Nat.le_refl _, rfl⟩

theorem Read.trans (h : Read n b b') (h' : Read k b' b'') : Read (n + k) b b'' := by
  constructor
  · constructor
    · rw [h'.content, h.content]
    · rw [← h.length]
      exact h'.inside
  · rw [h'.depth, h.depth]
  · exact Nat.le_trans h.before h'.before
  · rw [h'.live, h.live, Nat.add_assoc]

theorem Read.skip (h : Read n b b') : Read n b b'.skipWhitespace := by
  obtain ⟨offset, hskip, hle, hin, -⟩ := skipWhitespace_offset (h.length ▸ h.inside)
  rw [hskip]
  constructor
  · exact ⟨h.content, h.length ▸ hin⟩
  · exact h.depth
  · exact Nat.le_trans h.before hle
  · exact h.live

theorem Read.advance (h : Read n b b') (hlt : b'.offset < b'.length) : Read n b (b'.advance 1) := by
  constructor
  · exact ⟨h.content, h.length ▸ hlt⟩
  · exact h.depth
  · exact Nat.le_succ_of_le h.before
  · exact h.live

theorem Read.allocated (h : Read n b b') : Read (n + 1) b b'.allocated := by
  constructor
  · exact ⟨h.content, h.inside⟩
  · exact h.depth
  · exact h.before
  · simp [h.live, Nat.add_assoc]

theorem Freed.deallocate {m : ℕ} (h : Read n b b') (hs : Freed m b' b'') (j : ℕ) (hk : k + n = m + j)
    (hlive : k ≤ b.hooks.live) : Freed k b (b''.deallocate j) := by
  have hlive₁ := h.live
  have hlive₂ := hs.live
  constructor
  · constructor
    · exact hs.content.trans h.content
    · exact h.length ▸ hs.inside
  · simp only [deallocate_hooks_live]
    omega

theorem Read.deallocate (h : Read n b b') (j : ℕ) (hk : k + n = j) (hlive : k ≤ b.hooks.live) :
    Freed k b (b'.deallocate j) := by
  apply Freed.deallocate h _ j (m := 0)
  · omega
  · exact hlive
  · exact ⟨⟨rfl, h.length ▸ h.inside⟩, rfl⟩

theorem Read.freed {m : ℕ} (h : Read n b b') (hs : Freed m b' b'') (hk : k + n = m) : Freed k b b'' := by
  have hlive₁ := h.live
  have hlive₂ := hs.live
  constructor
  · constructor
    · exact hs.content.trans h.content
    · exact h.length ▸ hs.inside
  · omega

theorem parseNumber_meets (h : b.offset ≤ b.length) :
    Meets parseNumber b (Freed 0 b) fun item b' => Read (blocks item) b b' := by
  have htext := (List.takeWhile_prefix (l := b.bufferAtOffset) isNumberByte).length_le
  have hrest : b.bufferAtOffset.length = b.length - b.offset := List.length_drop
  simp only [parseNumber, meets_bind, meets_get]
  apply meets_allocate
  · exact ⟨⟨rfl, h⟩, rfl⟩
  · cases hnumber : strtod (b.bufferAtOffset.takeWhile isNumberByte) with
    | none =>
      simp only [meets_bind, meets_modify, meets_fail]
      constructor
      · exact ⟨rfl, h⟩
      · simp
    | some r =>
      have hlt := length_strtod hnumber
      simp only [meets_bind, meets_modify, meets_pure]
      constructor
      · constructor
        · rfl
        · simp only [deallocate_offset, advance_offset, allocated_offset]
          omega
      · rfl
      · simp only [deallocate_offset, advance_offset, allocated_offset]
        exact Nat.le_add_right _ _
      · simp [blocks]

/-- What stands between quotation marks; the mark is at each backslash that the scan skips. -/
inductive Literal : List UInt8 → List Bool → Prop
  | nil : Literal [] []
  | plain {x : UInt8} {raw : List UInt8} {ms : List Bool} : x ≠ BACKSLASH → Literal raw ms →
      Literal (x :: raw) (false :: ms)
  | escape {x : UInt8} {raw : List UInt8} {ms : List Bool} : Literal raw ms →
      Literal (BACKSLASH :: x :: raw) (true :: false :: ms)

def room (ms : List Bool) (i : ℕ) : ℕ := (ms.drop i).count false

section Literal

variable {raw : List UInt8} {ms : List Bool}

theorem Literal.length (h : Literal raw ms) : ms.length = raw.length := by
  induction h with
  | nil => rfl
  | plain _ _ ih => simp [ih]
  | escape _ ih => simp [ih]

theorem Literal.marked (h : Literal raw ms) (hi : ms[i]? = some true) :
    raw[i]? = some BACKSLASH ∧ ms[i + 1]? = some false := by
  induction h generalizing i with
  | nil => simp at hi
  | plain _ _ ih =>
    cases i with
    | zero => simp at hi
    | succ i => exact ih hi
  | escape _ ih =>
    match i with
    | 0 => exact ⟨rfl, rfl⟩
    | 1 => simp at hi
    | i + 2 => exact ih hi

theorem Literal.unmarked (h : Literal raw ms) (hi : raw[i]? = some c) (hc : c ≠ BACKSLASH) :
    ms[i]? = some false := by
  have hlt : i < ms.length := by
    rw [h.length]
    exact (List.getElem?_eq_some_iff.mp hi).1
  cases hm : ms[i] with
  | false => rw [List.getElem?_eq_getElem hlt, hm]
  | true =>
    have hmark : ms[i]? = some true := by rw [List.getElem?_eq_getElem hlt, hm]
    have hback := (h.marked hmark).1
    rw [hi] at hback
    exact absurd (Option.some.inj hback) hc

theorem room_unmarked (h : ms[i]? = some false) : room ms i = room ms (i + 1) + 1 := by
  obtain ⟨hlt, hget⟩ := List.getElem?_eq_some_iff.mp h
  rw [room, List.drop_eq_getElem_cons hlt, hget, List.count_cons_self, room]

theorem room_le (ms : List Bool) (i k : ℕ) : room ms (i + k) ≤ room ms i := by
  rw [room, ← List.drop_drop, room]
  exact (List.drop_sublist k _).count_le false

theorem Literal.room_two (h : Literal raw ms) (hi : i < raw.length) : room ms (i + 2) + 1 ≤ room ms i := by
  have hlt : i < ms.length := by
    rw [h.length]
    exact hi
  have hle : room ms (i + 2) ≤ room ms (i + 1) := room_le ms (i + 1) 1
  have hle' := room_le ms i 1
  cases hm : ms[i] with
  | false =>
    have hstep := room_unmarked (List.getElem?_eq_some_iff.mpr ⟨hlt, hm⟩)
    omega
  | true =>
    have hstep : room ms (i + 1) = room ms (i + 2) + 1 :=
      room_unmarked (h.marked (List.getElem?_eq_some_iff.mpr ⟨hlt, hm⟩)).2
    omega

theorem Literal.room_run (h : Literal raw ms) (hk : ∀ j < k, ∃ x, raw[i + j]? = some x ∧ x ≠ BACKSLASH) :
    room ms i = room ms (i + k) + k := by
  induction k with
  | zero => rfl
  | succ k ih =>
    obtain ⟨x, hx, hne⟩ := hk k (Nat.lt_succ_self k)
    have hstep := room_unmarked (h.unmarked hx hne)
    have hrest := ih fun j hj => hk j (Nat.lt_succ_of_lt hj)
    rw [Nat.add_assoc] at hstep
    omega

theorem room_zero (h : Literal raw ms) : room ms 0 + ms.count true = raw.length := by
  rw [← h.length, room, List.drop_zero]
  exact List.count_false_add_count_true ms

theorem literalEnd_spec {s : List UInt8} (h : literalEnd s = some (n, k)) :
    ∃ raw rest ms, s = raw ++ QUOTE :: rest ∧ raw.length = n ∧ Literal raw ms ∧ ms.count true = k := by
  fun_induction literalEnd s generalizing n k with
  | case1 => cases h
  | case2 =>
    cases h
    exact ⟨[], [], [], rfl, rfl, .nil, rfl⟩
  | case3 => cases h
  | case4 c rest =>
    cases h
    exact ⟨[], c :: rest, [], rfl, rfl, .nil, rfl⟩
  | case5 c rest _ ih =>
    obtain ⟨r, hr, he⟩ := Option.map_eq_some_iff.mp h
    cases he
    obtain ⟨raw, rest', ms, rfl, hlen, hraw, hcount⟩ := ih hr
    refine ⟨BACKSLASH :: c :: raw, rest', true :: false :: ms, rfl, ?_, .escape hraw, ?_⟩
    · simp [hlen]
    · simp [hcount]
  | case6 b c rest _ hb ih =>
    obtain ⟨r, hr, he⟩ := Option.map_eq_some_iff.mp h
    cases he
    obtain ⟨raw, rest', ms, hs, hlen, hraw, hcount⟩ := ih hr
    refine ⟨b :: raw, rest', false :: ms, ?_, ?_, .plain hb hraw, ?_⟩
    · rw [hs]
      rfl
    · simp [hlen]
    · simp [hcount]

theorem parseHex4From_spec {content : List UInt8} (input h : ℕ) (hread : input + k ≤ content.length) :
    ∃ v, parseHex4From content k input h = some v ∧
      (v ≠ 0 → ∀ j < k, ∃ x, content[input + j]? = some x ∧ x ≠ BACKSLASH) := by
  induction k generalizing input h with
  | zero => exact ⟨h, rfl, fun _ j hj => absurd hj (Nat.not_lt_zero j)⟩
  | succ k ih =>
    have hlt : input < content.length := by omega
    have hget : content[input]? = some content[input] := List.getElem?_eq_getElem hlt
    cases hdigit : hexDigit content[input] with
    | none => exact ⟨0, by simp [parseHex4From, hget, hdigit], fun hne => absurd rfl hne⟩
    | some d =>
      obtain ⟨v, hv, hall⟩ := ih (input + 1) (if 0 < k then (h + d) <<< 4 else h + d) (by omega)
      refine ⟨v, by simp [parseHex4From, hget, hdigit, hv], ?_⟩
      intro hne j hj
      cases j with
      | zero =>
        refine ⟨_, hget, ?_⟩
        intro hback
        have hno : hexDigit BACKSLASH = none := by decide
        rw [hback, hno] at hdigit
        cases hdigit
      | succ j =>
        rw [Nat.add_comm j 1, ← Nat.add_assoc]
        exact hall hne j (by omega)

theorem length_utf8Tail (position codepoint : ℕ) (tail : List UInt8) :
    (utf8Tail position codepoint tail).2.length = position + tail.length := by
  induction position generalizing codepoint tail with
  | zero => simp [utf8Tail]
  | succ position ih =>
    rw [utf8Tail, ih, List.length_cons]
    omega

theorem length_encodeUtf8 {codepoint utf8Length mark : ℕ} (h : 0 < utf8Length) :
    (encodeUtf8 codepoint utf8Length mark).length = utf8Length := by
  have htail := length_utf8Tail (utf8Length - 1) codepoint []
  simp only [List.length_nil] at htail
  simp only [encodeUtf8]
  split_ifs <;> simp only [List.length_cons, htail] <;> omega

theorem length_utf8Of {codepoint : ℕ} {out : List UInt8} (h : utf8Of codepoint = some out) :
    out.length ≤ 4 ∧ (codepoint = 0 → out.length = 1) := by
  unfold utf8Of at h
  split_ifs at h
  all_goals
    cases h
    rw [length_encodeUtf8 (by omega)]
    omega

def Fits (raw : List UInt8) (ms : List Bool) (i : ℕ) (r : Option (Option (List UInt8 × ℕ))) : Prop :=
  ∃ s, r = some s ∧ ∀ out n, s = some (out, n) →
    0 < n ∧ i + n ≤ raw.length + 1 ∧ room ms (i + n) + out.length ≤ room ms i

variable {content rest : List UInt8} {start : ℕ}

theorem getElem?_raw (hcontent : content.drop start = raw ++ QUOTE :: rest) (hi : i ≤ raw.length) :
    content[start + i]? = (raw ++ [QUOTE])[i]? ∧ start + i < content.length := by
  have hlength := congrArg List.length hcontent
  simp only [List.length_drop, List.length_append, List.length_cons] at hlength
  constructor
  · rw [← List.getElem?_drop, hcontent, List.append_cons]
    apply List.getElem?_append_left
    simp
    omega
  · omega

theorem exists_byte (hcontent : content.drop start = raw ++ QUOTE :: rest) (hi : i ≤ start + raw.length) :
    ∃ x, content[i]? = some x := by
  have hlt := (getElem?_raw hcontent (Nat.le_refl raw.length)).2
  exact ⟨_, List.getElem?_eq_getElem (Nat.lt_of_le_of_lt hi hlt)⟩

theorem Fits.failed (raw : List UInt8) (ms : List Bool) (i : ℕ) : Fits raw ms i (some none) :=
  ⟨none, rfl, by rintro out n ⟨⟩⟩

theorem utf8Of_fits {codepoint : ℕ} (hraw : Literal raw ms) (hk : 2 ≤ k) (hi : i + k ≤ raw.length)
    (hdigits : codepoint ≠ 0 → room ms (i + k) + 4 ≤ room ms i) :
    Fits raw ms i (some ((utf8Of codepoint).map (·, k))) := by
  refine ⟨_, rfl, ?_⟩
  intro out n h
  obtain ⟨out', hout, he⟩ := Option.map_eq_some_iff.mp h
  cases he
  obtain ⟨hfour, hone⟩ := length_utf8Of hout
  have htwo := hraw.room_two (i := i) (by omega)
  obtain ⟨j, rfl⟩ : ∃ j, k = 2 + j := ⟨k - 2, by omega⟩
  have hle : room ms (i + (2 + j)) ≤ room ms (i + 2) := by
    rw [← Nat.add_assoc]
    exact room_le ms (i + 2) j
  refine ⟨by omega, by omega, ?_⟩
  by_cases hzero : codepoint = 0
  · have hlen := hone hzero
    omega
  · have hroom := hdigits hzero
    omega

theorem parseHex4_spec (hcontent : content.drop start = raw ++ QUOTE :: rest) (hraw : Literal raw ms)
    (hi : i + 6 ≤ raw.length) :
    ∃ v, parseHex4 content (start + i + 2) = some v ∧ (v ≠ 0 → room ms (i + 6) + 4 ≤ room ms i) := by
  have hlt := (getElem?_raw hcontent hi).2
  have hread : start + i + 2 + 4 ≤ content.length := by omega
  obtain ⟨v, hv, hall⟩ := parseHex4From_spec (start + i + 2) 0 hread
  refine ⟨v, hv, ?_⟩
  intro hne
  have hrun : room ms (i + 2) = room ms (i + 2 + 4) + 4 := by
    apply hraw.room_run
    intro j hj
    obtain ⟨x, hx, hback⟩ := hall hne j hj
    refine ⟨x, ?_, hback⟩
    have hindex : start + i + 2 + j = start + (i + 2 + j) := by omega
    rw [hindex, (getElem?_raw hcontent (by omega)).1, List.getElem?_append_left (by omega)] at hx
    exact hx
  have hle := room_le ms i 2
  have hsix : room ms (i + 2 + 4) = room ms (i + 6) := rfl
  omega

theorem utf16LiteralToUtf8_fits (hcontent : content.drop start = raw ++ QUOTE :: rest) (hraw : Literal raw ms)
    (hi : i < raw.length) :
    Fits raw ms i (utf16LiteralToUtf8 content (start + i) (start + raw.length)) := by
  unfold utf16LiteralToUtf8
  by_cases hshort : start + raw.length - (start + i) < 6
  · simp only [hshort, if_true]
    exact .failed raw ms i
  have hsix : i + 6 ≤ raw.length := by omega
  obtain ⟨firstCode, hfirst, hroom⟩ := parseHex4_spec hcontent hraw hsix
  simp only [hshort, if_false, hfirst, Option.pure_def, Option.bind_eq_bind, Option.bind_some]
  by_cases hlow : 0xDC00 ≤ firstCode ∧ firstCode ≤ 0xDFFF
  · simp only [hlow, and_self, if_true]
    exact .failed raw ms i
  simp only [hlow, if_false]
  by_cases hpair : 0xD800 ≤ firstCode ∧ firstCode ≤ 0xDBFF
  · simp only [hpair, and_self, if_true]
    by_cases hend : start + raw.length - (start + i + 6) < 6
    · simp only [hend, if_true]
      exact .failed raw ms i
    have htwelve : i + 6 + 6 ≤ raw.length := by omega
    obtain ⟨x, hx⟩ := exists_byte hcontent (i := start + i + 6) (by omega)
    obtain ⟨y, hy⟩ := exists_byte hcontent (i := start + i + 6 + 1) (by omega)
    obtain ⟨secondCode, hsecond, -⟩ := parseHex4_spec hcontent hraw htwelve
    rw [← Nat.add_assoc start] at hsecond
    have hfits : room ms (i + 12) + 4 ≤ room ms i := by
      have hle : room ms (i + 12) ≤ room ms (i + 6) := room_le ms (i + 6) 6
      have hfirst := hroom (by omega)
      omega
    simp only [hend, if_false, hx, hy, hsecond, Option.bind_some]
    split_ifs
    · exact .failed raw ms i
    · exact .failed raw ms i
    · exact .failed raw ms i
    · exact utf8Of_fits hraw (by omega) htwelve fun _ => hfits
  · simp only [hpair, if_false]
    exact utf8Of_fits hraw (by omega) hsix hroom

theorem short_fits (hraw : Literal raw ms) (hi : i < raw.length) (x : UInt8) :
    Fits raw ms i (some (some ([x], 2))) := by
  refine ⟨_, rfl, ?_⟩
  rintro out n ⟨⟩
  exact ⟨by omega, by omega, hraw.room_two hi⟩

theorem escapeSequence_fits (hcontent : content.drop start = raw ++ QUOTE :: rest) (hraw : Literal raw ms)
    (hi : i < raw.length) : Fits raw ms i (escapeSequence content (start + i) (start + raw.length)) := by
  obtain ⟨x, hx⟩ := exists_byte hcontent (i := start + i + 1) (by omega)
  have hone : ¬ start + raw.length - (start + i) < 1 := by omega
  simp only [escapeSequence, hone, if_false, hx, Option.pure_def, Option.bind_eq_bind, Option.bind_some]
  split_ifs
  · exact short_fits hraw hi 8
  · exact short_fits hraw hi 12
  · exact short_fits hraw hi 10
  · exact short_fits hraw hi 13
  · exact short_fits hraw hi 9
  · exact short_fits hraw hi x
  · exact utf16LiteralToUtf8_fits hcontent hraw hi
  · exact .failed raw ms i

theorem convert_meets (hcontent : content.drop start = raw ++ QUOTE :: rest) (hraw : Literal raw ms) {size : ℕ}
    {output : List UInt8} (hi : i ≤ raw.length + 1) (hn : raw.length + 1 < n + i)
    (hroom : room ms i + output.length < size) :
    Meets (convert content (start + raw.length) size n output) (start + i) (fun p => p ≤ start + raw.length)
      fun _ _ => True := by
  induction n generalizing i output with
  | zero => omega
  | succ n ih =>
    have hsize : output.length < size := by omega
    simp only [Meets, convert]
    by_cases hlt : start + i < start + raw.length
    · have hi' : i < raw.length := by omega
      obtain ⟨x, hx⟩ := exists_byte hcontent (i := start + i) (by omega)
      simp only [hlt, if_true, hx, hsize]
      by_cases hback : x = BACKSLASH
      · obtain ⟨r, hr, hfits⟩ := escapeSequence_fits hcontent hraw hi'
        simp only [hback, ne_eq, not_true_eq_false, if_false, hr]
        cases r with
        | none => exact Nat.le_of_lt hlt
        | some r =>
          obtain ⟨out, len⟩ := r
          obtain ⟨hpos, hle, hout⟩ := hfits out len rfl
          have hsize' : output.length + out.length ≤ size := by omega
          simp only [hsize', if_true]
          rw [Nat.add_assoc]
          apply ih hle (by omega)
          rw [List.length_append]
          omega
      · rw [(getElem?_raw hcontent (by omega)).1, List.getElem?_append_left hi'] at hx
        have hstep := room_unmarked (hraw.unmarked hx hback)
        simp only [hback, ne_eq, not_false_eq_true, if_true]
        rw [Nat.add_assoc]
        apply ih (by omega) (by omega)
        rw [List.length_append, List.length_singleton]
        omega
    · simp only [hlt, if_false, hsize, if_true]

end Literal

theorem parseString_meets (h : b.offset < b.length) :
    Meets parseString b (Freed 0 b) fun _ b' => Read 1 b b' := by
  obtain ⟨x, rest, hrest⟩ : ∃ x rest, b.bufferAtOffset = x :: rest := by
    apply List.exists_cons_of_ne_nil
    rw [bufferAtOffset, ne_eq, List.drop_eq_nil_iff]
    exact Nat.not_le.mpr h
  have hbyte : b.bufferAtOffset[0]? = some x := by rw [hrest, List.getElem?_cons_zero]
  simp only [parseString, meets_bind, meets_get, meets_byteAt hbyte, meets_ite, meets_modify, meets_fail]
  have hfreed : Freed 0 b (b.advance 1) := ⟨⟨rfl, h⟩, rfl⟩
  constructor
  · intro _
    exact hfreed
  · intro _
    cases hend : literalEnd (b.content.drop (b.offset + 1)) with
    | none => exact hfreed
    | some r =>
      obtain ⟨distance, skippedBytes⟩ := r
      obtain ⟨raw, rest', ms, hcontent, rfl, hraw, rfl⟩ := literalEnd_spec hend
      have hlt := (getElem?_raw hcontent (Nat.le_refl raw.length)).2
      have hroom := room_zero hraw
      have hmarks := ms.count_le_length (a := true)
      have hconvert : Meets (convert b.content (b.offset + 1 + raw.length)
          (b.offset + 1 + raw.length - b.offset - ms.count true + 1) (b.length + 1) []) (b.offset + 1)
          (fun p => p ≤ b.offset + 1 + raw.length) fun _ _ => True := by
        apply convert_meets hcontent hraw (i := 0)
        · omega
        · have hlength : b.length = b.content.length := rfl
          omega
        · rw [List.length_nil]
          omega
      simp only [meets_bind, meets_onFail]
      apply meets_allocate
      · exact ⟨⟨rfl, h⟩, rfl⟩
      · simp only [Meets] at hconvert
        split at hconvert
        · exact hconvert.elim
        · rename_i p hp
          simp only [hp, meets_bind, meets_modify, meets_fail]
          constructor
          · constructor
            · rfl
            · exact Nat.le_of_lt (Nat.lt_of_le_of_lt hconvert hlt)
          · simp
        · rename_i output p hp
          simp only [hp, meets_bind, meets_modify, meets_pure]
          constructor
          · constructor
            · rfl
            · exact hlt
          · rfl
          · change b.offset ≤ b.offset + 1 + raw.length + 1
            omega
          · rfl

theorem arrayBlocks_concat (head : List CJson) (item : CJson) :
    arrayBlocks (head ++ [item]) = arrayBlocks head + (1 + blocks item) := by
  induction head with
  | nil => simp [arrayBlocks]
  | cons first rest ih =>
    rw [List.cons_append, arrayBlocks, arrayBlocks, ih]
    omega

theorem objectBlocks_concat (head : List (CString × CJson)) (name : CString) (item : CJson) :
    objectBlocks (head ++ [(name, item)]) = objectBlocks head + (2 + blocks item) := by
  induction head with
  | nil => simp [objectBlocks]
  | cons first rest ih =>
    obtain ⟨name', item'⟩ := first
    rw [List.cons_append, objectBlocks, objectBlocks, ih]
    omega

theorem offset_of_next (h : b.bufferAtOffset.head? = some c) : b.offset < b.length := by
  by_contra hle
  rw [bufferAtOffset, List.drop_eq_nil_iff.mpr (Nat.not_lt.mp hle)] at h
  cases h

section Loops

variable {parseValue : Parse CJson} {depth : ℕ}

def Tidy (parseValue : Parse CJson) (depth : ℕ) : Prop :=
  ∀ b : ParseBuffer, b.offset ≤ b.length → b.depth = depth →
    Meets parseValue b (Freed 0 b) fun item b' => Read (blocks item) b b'

theorem parseElements_meets (hvalue : Tidy parseValue depth) {head : List CJson} (h : b.offset < b.length)
    (hdepth : b.depth = depth) (hn : b.length ≤ n + b.offset) (hlive : arrayBlocks head ≤ b.hooks.live) :
    Meets (parseElements parseValue n head) b (Freed (arrayBlocks head) b) fun items b' =>
      ∃ k, arrayBlocks items = arrayBlocks head + k ∧ Read k b b' := by
  induction n generalizing b head with
  | zero => omega
  | succ n ih =>
    simp only [parseElements, meets_bind, meets_onFail, meets_modify, meets_nextIs]
    have hb := Read.refl (Nat.le_of_lt h)
    apply meets_allocate
    · apply Freed.deallocate hb (m := 0)
      · exact ⟨⟨rfl, Nat.le_of_lt h⟩, rfl⟩
      · omega
      · exact hlive
    have hnew := (hb.allocated.advance h).skip
    apply (hvalue _ (hnew.length ▸ hnew.inside) (hnew.depth.trans hdepth)).mono
    · intro b₁ h₁
      apply h₁.deallocate hnew
      · omega
      · exact hlive
    · intro item b₁ h₁
      have hread := (hnew.trans h₁).skip
      simp only [meets_ite, meets_pure]
      constructor
      · intro hnext
        have hbefore := ((Read.refl (b := b.allocated.advance 1) h).skip.trans h₁).skip.before
        simp only [advance_offset, allocated_offset] at hbefore
        have hlength := hread.length
        have hblocks := arrayBlocks_concat head item
        have hlive₁ := hread.live
        apply (ih (offset_of_next (of_decide_eq_true hnext)) (hread.depth.trans hdepth) (by omega)
          (by omega)).mono
        · intro s hs
          apply hread.freed hs
          omega
        · rintro items s ⟨k, hk, hs⟩
          refine ⟨_, ?_, hread.trans hs⟩
          omega
      · intro _
        refine ⟨_, arrayBlocks_concat head item, ?_⟩
        rw [← Nat.zero_add 1]
        exact hread

theorem Read.stepBack (h : Read n (b.advance 1) b') : Read n b b'.stepBack := by
  have hbefore := h.before
  simp only [advance_offset] at hbefore
  constructor
  · refine ⟨h.content, ?_⟩
    exact Nat.le_trans (Nat.sub_le _ _) h.inside
  · exact h.depth
  · rw [stepBack_offset]
    omega
  · exact h.live

theorem Read.leave (h : Read n b.enter b') (hlt : b'.offset < b'.length) : Read n b (b'.leave.advance 1) := by
  have hread := h.advance hlt
  constructor
  · exact ⟨hread.content, hread.inside⟩
  · simp [h.depth]
  · exact hread.before
  · exact hread.live

theorem Freed.of_enter (h : Freed n b.enter b') : Freed n b b' := ⟨⟨h.content, h.inside⟩, h.live⟩

theorem Read.stopped (h : Read 0 b b') : Freed 0 b b' :=
  ⟨⟨h.content, h.inside⟩, h.live⟩

theorem parseArray_meets (hvalue : depth < CJSON_NESTING_LIMIT → Tidy parseValue (depth + 1))
    (h : b.offset < b.length) (hdepth : b.depth = depth) :
    Meets (parseArray parseValue) b (Freed 0 b) fun item b' => Read (blocks item) b b' := by
  have hentered := Read.refl (b := b.enter) (Nat.le_of_lt h)
  have hfirst := (Read.refl (b := b.enter.advance 1) h).skip
  obtain ⟨x, hx⟩ : ∃ x, b.enter.bufferAtOffset[0]? = some x := by
    rw [bufferAtOffset, List.getElem?_drop]
    exact ⟨_, List.getElem?_eq_getElem h⟩
  simp only [parseArray, meets_bind, meets_get, meets_ite, meets_fail, meets_modify, meets_pure, meets_nextIs,
    meets_byteAt hx, length_stepBack, length_skipWhitespace, length_advance, length_enter]
  refine ⟨fun _ => (Read.refl (Nat.le_of_lt h)).stopped, fun hlimit => ?_⟩
  refine ⟨fun _ => hentered.stopped.of_enter, fun _ => ?_⟩
  refine ⟨fun hnext => ?_, fun _ => ?_⟩
  · exact (hentered.advance h).skip.leave (offset_of_next (of_decide_eq_true hnext))
  refine ⟨fun _ => hfirst.stepBack.stopped.of_enter, fun haccess => ?_⟩
  simp only [Bool.not_eq_true, Bool.not_eq_false', canAccessAtIndex_iff, length_skipWhitespace, length_advance,
    length_enter] at haccess
  have hback := hfirst.stepBack
  have hlt : (b.enter.advance 1).skipWhitespace.stepBack.offset < b.length := by
    rw [stepBack_offset]
    omega
  apply (parseElements_meets (hvalue (by omega)) _ _ _ _).mono
  · intro s hs
    exact (hback.freed hs rfl).of_enter
  · rintro items s ⟨k, hk, hs⟩
    have hread := hback.trans hs
    have hblocks : blocks (.array items) = 0 + k := by
      rw [blocks, hk, arrayBlocks]
    constructor
    · intro _
      apply Freed.of_enter
      apply hread.deallocate
      · rw [hk, arrayBlocks]
        omega
      · exact Nat.zero_le _
    · intro hnext
      rw [hblocks]
      apply hread.leave
      apply offset_of_next (c := RBRACKET)
      simpa using hnext
  · simpa using hlt
  · exact hback.depth.trans (congrArg Nat.succ hdepth)
  · simp
  · exact Nat.zero_le _

theorem parseMembers_meets (hvalue : Tidy parseValue depth) {head : List (CString × CJson)}
    (h : b.offset < b.length) (hdepth : b.depth = depth) (hn : b.length ≤ n + b.offset)
    (hlive : objectBlocks head ≤ b.hooks.live) :
    Meets (parseMembers parseValue n head) b (Freed (objectBlocks head) b) fun members b' =>
      ∃ k, objectBlocks members = objectBlocks head + k ∧ Read k b b' := by
  induction n generalizing b head with
  | zero => omega
  | succ n ih =>
    simp only [parseMembers, meets_bind, meets_onFail, meets_modify, meets_nextIs, meets_get, meets_ite, meets_fail,
      meets_pure]
    have hb := Read.refl (Nat.le_of_lt h)
    apply meets_allocate
    · apply Freed.deallocate hb (m := 0)
      · exact ⟨⟨rfl, Nat.le_of_lt h⟩, rfl⟩
      · omega
      · exact hlive
    constructor
    · intro _
      apply hb.allocated.deallocate
      · omega
      · exact hlive
    intro haccess
    simp only [Bool.not_eq_true, Bool.not_eq_false', canAccessAtIndex_iff] at haccess
    have hnew := (hb.allocated.advance h).skip
    have hin : (b.allocated.advance 1).skipWhitespace.offset < (b.allocated.advance 1).skipWhitespace.length := by
      rw [length_skipWhitespace]
      exact skipWhitespace_lt haccess
    apply (parseString_meets hin).mono
    · intro s hs
      apply hs.deallocate hnew
      · omega
      · exact hlive
    intro name b₁ h₁
    have hname := (hnew.trans h₁).skip
    constructor
    · intro _
      apply hname.deallocate
      · omega
      · exact hlive
    intro hcolon
    have hlt : b₁.skipWhitespace.offset < b₁.skipWhitespace.length := by
      apply offset_of_next (c := COLON)
      simpa using hcolon
    have hvalueStart := (hname.advance hlt).skip
    apply (hvalue _ (hvalueStart.length ▸ hvalueStart.inside) (hvalueStart.depth.trans hdepth)).mono
    · intro s hs
      apply hs.deallocate hvalueStart
      · omega
      · exact hlive
    intro item b₂ h₂
    have hread := (hvalueStart.trans h₂).skip
    have hblocks := objectBlocks_concat head (cString name) item
    constructor
    · intro hnext
      have hstart := Read.refl (b := b.allocated.advance 1) h
      have hbefore := ((((hstart.skip.trans h₁).skip.advance hlt).skip.trans h₂).skip).before
      simp only [advance_offset, allocated_offset] at hbefore
      have hlength := hread.length
      have hlive₁ := hread.live
      apply (ih (offset_of_next (of_decide_eq_true hnext)) (hread.depth.trans hdepth) (by omega) (by omega)).mono
      · intro s hs
        apply hread.freed hs
        omega
      · rintro members s ⟨k, hk, hs⟩
        refine ⟨_, ?_, hread.trans hs⟩
        omega
    · intro _
      refine ⟨_, hblocks, ?_⟩
      have hsum : 0 + 1 + 1 + blocks item = 2 + blocks item := by omega
      rw [← hsum]
      exact hread

theorem parseObject_meets (hvalue : depth < CJSON_NESTING_LIMIT → Tidy parseValue (depth + 1))
    (h : b.offset < b.length) (hdepth : b.depth = depth) :
    Meets (parseObject parseValue) b (Freed 0 b) fun item b' => Read (blocks item) b b' := by
  have hentered := Read.refl (b := b.enter) (Nat.le_of_lt h)
  have hfirst := (Read.refl (b := b.enter.advance 1) h).skip
  simp only [parseObject, meets_bind, meets_get, meets_ite, meets_fail, meets_modify, meets_pure, meets_nextIs,
    length_stepBack, length_skipWhitespace, length_advance, length_enter]
  refine ⟨fun _ => (Read.refl (Nat.le_of_lt h)).stopped, fun hlimit => ?_⟩
  refine ⟨fun _ => hentered.stopped.of_enter, fun _ => ?_⟩
  refine ⟨fun hnext => ?_, fun _ => ?_⟩
  · exact (hentered.advance h).skip.leave (offset_of_next (of_decide_eq_true hnext))
  refine ⟨fun _ => hfirst.stepBack.stopped.of_enter, fun haccess => ?_⟩
  simp only [Bool.not_eq_true, Bool.not_eq_false', canAccessAtIndex_iff, length_skipWhitespace, length_advance,
    length_enter] at haccess
  have hback := hfirst.stepBack
  have hlt : (b.enter.advance 1).skipWhitespace.stepBack.offset < b.length := by
    rw [stepBack_offset]
    omega
  apply (parseMembers_meets (hvalue (by omega)) _ _ _ _).mono
  · intro s hs
    exact (hback.freed hs rfl).of_enter
  · rintro members s ⟨k, hk, hs⟩
    have hread := hback.trans hs
    have hblocks : blocks (.object members) = 0 + k := by
      rw [blocks, hk, objectBlocks]
    constructor
    · intro _
      apply Freed.of_enter
      apply hread.deallocate
      · rw [hk, objectBlocks]
        omega
      · exact Nat.zero_le _
    · intro hnext
      rw [hblocks]
      apply hread.leave
      apply offset_of_next (c := RBRACE)
      simpa using hnext
  · simpa using hlt
  · exact hback.depth.trans (congrArg Nat.succ hdepth)
  · simp
  · exact Nat.zero_le _

end Loops

theorem Read.literal (n : ℕ) (h : b.offset + n ≤ b.length) : Read 0 b (b.advance n) :=
  ⟨⟨rfl, h⟩, rfl, Nat.le_add_right _ _, rfl⟩

theorem canRead_iff : b.canRead n = true ↔ b.offset + n ≤ b.length := by
  simp [canRead]

theorem parseValue_tidy {depth : ℕ} (h : CJSON_NESTING_LIMIT < n + depth) (hle : depth ≤ CJSON_NESTING_LIMIT) :
    Tidy (parseValue n) depth := by
  induction n generalizing depth with
  | zero => omega
  | succ n ih =>
    intro b hin hdepth
    have hinner : depth < CJSON_NESTING_LIMIT → Tidy (parseValue n) (depth + 1) := by
      intro hlt
      apply ih <;> omega
    simp only [parseValue, meets_bind, meets_get, meets_ite, meets_fail, meets_modify, meets_pure, canRead_iff]
    refine ⟨fun hnull => .literal 4 hnull.1, fun _ => ?_⟩
    refine ⟨fun hfalse => .literal 5 hfalse.1, fun _ => ?_⟩
    refine ⟨fun htrue => .literal 4 htrue.1, fun _ => ?_⟩
    refine ⟨fun _ => (Read.refl hin).stopped, fun haccess => ?_⟩
    have hlt : b.offset < b.length := by simpa [canAccessAtIndex_iff] using haccess
    have hbyte : b.bufferAtOffset[0]? = some b.content[b.offset] := by
      rw [bufferAtOffset, List.getElem?_drop]
      exact List.getElem?_eq_getElem hlt
    rw [meets_byteAt hbyte]
    refine ⟨fun _ => parseString_meets hlt, fun _ => ?_⟩
    refine ⟨fun _ => parseNumber_meets hin, fun _ => ?_⟩
    refine ⟨fun _ => parseArray_meets hinner hlt hdepth, fun _ => ?_⟩
    refine ⟨fun _ => parseObject_meets hinner hlt hdepth, fun _ => ?_⟩
    exact (Read.refl hin).stopped

theorem Read.bom (h : Read n b b') : Read n b b'.skipUtf8Bom := by
  unfold skipUtf8Bom
  split_ifs with hbom
  · have hlt := canAccessAtIndex_iff.mp hbom.1
    constructor
    · refine ⟨h.content, ?_⟩
      rw [advance_offset, ← h.length]
      omega
    · exact h.depth
    · exact Nat.le_add_right_of_le h.before
    · exact h.live
  · exact h

theorem parseRoot_meets (requireNullTerminated : Bool) (hoffset : b.offset ≤ b.length) (hdepth : b.depth = 0) :
    Meets (parseRoot requireNullTerminated) b (Freed 0 b) fun item b' => Read (1 + blocks item) b b' := by
  have hb := Read.refl hoffset
  simp only [parseRoot, meets_bind, meets_onFail, meets_modify]
  apply meets_allocate
  · exact ⟨⟨rfl, hoffset⟩, rfl⟩
  have hroot := hb.allocated.bom.skip
  have htidy : Tidy (parseValue (CJSON_NESTING_LIMIT + 1)) 0 := by
    apply parseValue_tidy <;> omega
  apply (htidy _ (hroot.length ▸ hroot.inside) (hroot.depth.trans hdepth)).mono
  · intro s hs
    apply hs.deallocate hroot
    · omega
    · exact Nat.zero_le _
  · intro item s hs
    have hread := hroot.trans hs
    rw [Nat.zero_add] at hread
    simp only [meets_ite, meets_bind, meets_modify, meets_nextIs, meets_fail, meets_pure]
    refine ⟨fun _ => ⟨fun _ => ?_, fun _ => hread.skip⟩, fun _ => hread⟩
    apply hread.skip.deallocate
    · omega
    · exact Nat.zero_le _

section Entry

variable {grants : ℕ → Bool} {value : List UInt8} {requireNullTerminated : Bool} {hooks : Hooks}

theorem start_meets (grants : ℕ → Bool) (value : List UInt8) (requireNullTerminated : Bool) :
    let b : ParseBuffer := ⟨value, 0, 0, ⟨grants, 0, 0⟩⟩
    Meets (parseRoot requireNullTerminated) b (Freed 0 b) fun item b' => Read (1 + blocks item) b b' :=
  parseRoot_meets requireNullTerminated (Nat.zero_le _) rfl

theorem parse_ends (grants : ℕ → Bool) (value : List UInt8) (requireNullTerminated : Bool) :
    ∃ root hooks, cJSONParseWithLengthOpts grants value requireNullTerminated = some ⟨root, hooks⟩ := by
  have hmeets := start_meets grants value requireNullTerminated
  simp only [Meets] at hmeets
  unfold cJSONParseWithLengthOpts
  split_ifs
  · exact ⟨_, _, rfl⟩
  · split at hmeets
    · exact hmeets.elim
    · rename_i buffer hfail
      exact ⟨_, _, by rw [hfail]⟩
    · rename_i item buffer hok
      exact ⟨_, _, by rw [hok]⟩

theorem parse_error {position : ℕ}
    (h : cJSONParseWithLengthOpts grants value requireNullTerminated = some ⟨.error position, hooks⟩) :
    hooks.live = 0 ∧ position ≤ value.length - 1 := by
  unfold cJSONParseWithLengthOpts at h
  split_ifs at h with hempty
  · cases h
    exact ⟨rfl, Nat.zero_le _⟩
  · split at h
    · cases h
    · rename_i buffer hfail
      cases h
      have hfreed := (start_meets grants value requireNullTerminated).fail hfail
      refine ⟨hfreed.live, ?_⟩
      have hlength : buffer.length = value.length := hfreed.length
      unfold errorPosition
      split_ifs <;> omega
    · cases h

theorem parse_ok {item : CJson}
    (h : cJSONParseWithLengthOpts grants value requireNullTerminated = some ⟨.ok item, hooks⟩) :
    hooks.live = 1 + blocks item := by
  unfold cJSONParseWithLengthOpts at h
  split_ifs at h with hempty
  · cases h
  split at h
  · cases h
  · cases h
  · rename_i item' buffer hok
    cases h
    have hread := (start_meets grants value requireNullTerminated).ok hok
    rw [hread.live]
    exact Nat.zero_add _

end Entry

/-- Whatever the text and whichever allocations fail: the parser ends, never reads or writes outside, and
leaves the blocks of the tree that it returns, or none and an error inside of the text. -/
theorem parse_tidy (grants : ℕ → Bool) (value : List UInt8) (requireNullTerminated : Bool) :
    ∃ root hooks, cJSONParseWithLengthOpts grants value requireNullTerminated = some ⟨root, hooks⟩ ∧
      (∀ item, root = .ok item → hooks.live = 1 + blocks item) ∧
      ∀ position, root = .error position → hooks.live = 0 ∧ position ≤ value.length - 1 := by
  obtain ⟨root, hooks, h⟩ := parse_ends grants value requireNullTerminated
  refine ⟨root, hooks, h, ?_, ?_⟩
  · rintro item rfl
    exact parse_ok h
  · rintro position rfl
    exact parse_error h

end EmbeddedLinuxTraining.CJSON
