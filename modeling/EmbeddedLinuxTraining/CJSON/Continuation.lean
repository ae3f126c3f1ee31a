import EmbeddedLinuxTraining.CJSON.Standard

namespace EmbeddedLinuxTraining.CJSON

open Library Library.Json Library.Strtod Telemetry Procedure ParseBuffer

variable {b t : ParseBuffer} {text rest content content' : List UInt8} {x : UInt8} {i k n n' : ℕ}

@[simps]
def longer (text rest : List UInt8) (b : ParseBuffer) : ParseBuffer := { b with content := text ++ rest ++ [0] }

theorem longer_advance : (longer text rest b).advance n = longer text rest (b.advance n) := rfl

theorem longer_allocated : (longer text rest b).allocated = longer text rest b.allocated := rfl

theorem longer_enter : (longer text rest b).enter = longer text rest b.enter := rfl

structure Inside (text : List UInt8) (b : ParseBuffer) : Prop where
  content : b.content = text ++ [0]
  offset : b.offset < text.length

structure AtEnd (text : List UInt8) (b : ParseBuffer) : Prop where
  content : b.content = text ++ [0]
  offset : b.offset = text.length

/-- What is left of the text goes on with a number, or is nothing. -/
structure Spent (text : List UInt8) (b : ParseBuffer) : Prop where
  content : b.content = text ++ [0]
  numeric : ∀ x ∈ text.drop b.offset, isNumberByte x = true

theorem allocate_eq_ok {u : Unit} :
    allocate b = .ok u t ↔ b.hooks.grants b.hooks.calls = true ∧ t = b.allocated := by
  simp only [allocate]
  split_ifs with h <;> simp [h, eq_comm]

theorem byteAt_eq_ok : byteAt i b = .ok x t ↔ b.content[b.offset + i]? = some x ∧ t = b := by
  simp only [byteAt]
  cases b.content[b.offset + i]? <;> simp [eq_comm]

theorem nextIs_eq_ok {r : Bool} : nextIs x b = .ok r t ↔ r = decide (b.bufferAtOffset.head? = some x) ∧ t = b := by
  have h : Meets (nextIs x) b (fun _ => False) fun r t => r = decide (b.bufferAtOffset.head? = some x) ∧ t = b := by
    rw [meets_nextIs]
    exact ⟨rfl, rfl⟩
  cases hm : nextIs x b with
  | undefined => simp only [Meets, hm] at h
  | fail => simp only [Meets, hm] at h
  | ok r' t' =>
    obtain ⟨rfl, rfl⟩ := h.ok hm
    simp [eq_comm]

theorem Inside.bytes (h : Inside text b) (rest : List UInt8) :
    ∃ y u, text.drop b.offset = y :: u ∧ b.bufferAtOffset = y :: (u ++ [0]) ∧
      (longer text rest b).bufferAtOffset = y :: (u ++ (rest ++ [0])) := by
  obtain ⟨y, u, hdrop⟩ : ∃ y u, text.drop b.offset = y :: u := by
    apply List.exists_cons_of_ne_nil
    rw [ne_eq, List.drop_eq_nil_iff]
    exact Nat.not_le.mpr h.offset
  refine ⟨y, u, hdrop, ?_, ?_⟩
  · rw [bufferAtOffset, h.content, List.drop_append_of_le_length (Nat.le_of_lt h.offset), hdrop]
    rfl
  · rw [bufferAtOffset, longer_content, longer_offset, List.append_assoc,
      List.drop_append_of_le_length (Nat.le_of_lt h.offset), hdrop]
    rfl

theorem Inside.head (h : Inside text b) (rest : List UInt8) :
    (longer text rest b).bufferAtOffset.head? = b.bufferAtOffset.head? := by
  obtain ⟨y, u, -, hb, hlonger⟩ := h.bytes rest
  rw [hb, hlonger]
  rfl

theorem Inside.length_le (h : Inside text b) (rest : List UInt8) : b.length ≤ (longer text rest b).length := by
  simp [ParseBuffer.length, h.content]

theorem Inside.access (h : Inside text b) (rest : List UInt8) : (longer text rest b).canAccessAtIndex 0 = true := by
  have hlt := h.offset
  simp only [canAccessAtIndex_iff, ParseBuffer.length, longer_content, longer_offset, List.length_append]
  omega

theorem AtEnd.bytes (h : AtEnd text b) : b.bufferAtOffset = [0] := by
  rw [bufferAtOffset, h.content, h.offset, List.drop_left]

theorem AtEnd.spent (h : AtEnd text b) : Spent text b := by
  refine ⟨h.content, ?_⟩
  rw [h.offset, List.drop_length]
  intro x hx
  cases hx

theorem Spent.next (h : Spent text b) (hx : isNumberByte x = false) (hzero : x ≠ 0) :
    ¬ b.bufferAtOffset.head? = some x := by
  rw [bufferAtOffset, h.content, List.drop_append]
  cases hdrop : text.drop b.offset with
  | nil =>
    intro hhead
    rw [List.nil_append] at hhead
    have hmem := List.mem_of_mem_drop (List.mem_of_mem_head? hhead)
    exact hzero (List.mem_singleton.mp hmem)
  | cons y u =>
    intro hhead
    cases hhead
    have hy := h.numeric x (hdrop ▸ List.mem_cons_self)
    rw [hx] at hy
    cases hy

/-- At the end of the text, or before: the two buffers skip the same spaces unless the text ends with them. -/
theorem skip_level (hcontent : b.content = text ++ [0]) (hle : b.offset ≤ text.length) (rest : List UInt8) :
    Inside text b.skipWhitespace ∧ (longer text rest b).skipWhitespace = longer text rest b.skipWhitespace ∨
      AtEnd text b.skipWhitespace := by
  have hlength : b.length = text.length + 1 := by
    rw [ParseBuffer.length, hcontent, List.length_append, List.length_singleton]
  have hlonger : (longer text rest b).length = text.length + rest.length + 1 := by
    simp [ParseBuffer.length]
    omega
  have hbytes : b.bufferAtOffset = text.drop b.offset ++ [0] := by
    rw [bufferAtOffset, hcontent, List.drop_append_of_le_length hle]
  have hbytes' : (longer text rest b).bufferAtOffset = text.drop b.offset ++ (rest ++ [0]) := by
    rw [bufferAtOffset, longer_content, longer_offset, List.append_assoc, List.drop_append_of_le_length hle]
  have haccess : b.canAccessAtIndex 0 = true := canAccessAtIndex_iff.mpr (by omega)
  have haccess' : (longer text rest b).canAccessAtIndex 0 = true :=
    canAccessAtIndex_iff.mpr (by rw [longer_offset]; omega)
  have hdrop : (text.drop b.offset).length = text.length - b.offset := List.length_drop
  have hspaces := (List.takeWhile_prefix (l := text.drop b.offset) (· ≤ 32)).length_le
  by_cases hall : ((text.drop b.offset).takeWhile (· ≤ 32)).length = (text.drop b.offset).length
  · right
    simp only [skipWhitespace, haccess, Bool.not_true, Bool.false_eq_true, if_false, hbytes, List.takeWhile_append,
      hall, if_true]
    have hzero : ([0] : List UInt8).takeWhile (· ≤ 32) = [0] := by decide
    have hend : b.offset + (text.drop b.offset ++ ([0] : List UInt8).takeWhile (· ≤ 32)).length = b.length := by
      rw [hzero, List.length_append, List.length_singleton]
      omega
    refine ⟨hcontent, ?_⟩
    rw [hend, if_pos rfl, hlength]
    rfl
  · left
    have hne : ¬ b.offset + ((text.drop b.offset).takeWhile (· ≤ 32)).length = b.length := by omega
    have hne' : ¬ b.offset + ((text.drop b.offset).takeWhile (· ≤ 32)).length = (longer text rest b).length := by omega
    simp only [skipWhitespace, haccess, haccess', Bool.not_true, Bool.false_eq_true, if_false, hbytes, hbytes',
      List.takeWhile_append, hall, longer_offset, hne, hne']
    refine ⟨⟨hcontent, ?_⟩, rfl⟩
    change b.offset + _ < text.length
    omega

theorem Inside.skip (h : Inside text b) (rest : List UInt8) :
    Inside text b.skipWhitespace ∧ (longer text rest b).skipWhitespace = longer text rest b.skipWhitespace ∨
      AtEnd text b.skipWhitespace := skip_level h.content (Nat.le_of_lt h.offset) rest

theorem AtEnd.skip (h : AtEnd text b) : AtEnd text b.skipWhitespace := by
  obtain ⟨hinside, -⟩ | hend := skip_level h.content (Nat.le_of_eq h.offset) []
  · have hlt := hinside.offset
    obtain ⟨offset, hskip, hle, -⟩ := skipWhitespace_offset (b := b) (by
      rw [ParseBuffer.length, h.content, List.length_append, h.offset]
      exact Nat.le_add_right _ _)
    have hoffset := h.offset
    rw [hskip] at hlt
    change offset < text.length at hlt
    omega
  · exact hend

theorem Spent.skip (h : Spent text b) : Spent text b.skipWhitespace := by
  by_cases hle : b.offset ≤ b.length
  · obtain ⟨offset, hskip, hbefore, -⟩ := skipWhitespace_offset hle
    rw [hskip]
    refine ⟨h.content, ?_⟩
    intro x hx
    apply h.numeric
    obtain ⟨k, rfl⟩ := Nat.exists_eq_add_of_le hbefore
    rw [← List.drop_drop] at hx
    exact List.mem_of_mem_drop hx
  · have hno : b.canAccessAtIndex 0 = false := by
      rw [← Bool.not_eq_true, canAccessAtIndex_iff]
      omega
    simp only [skipWhitespace, hno, Bool.not_false, if_true]
    exact h

theorem getElem?_longer (hi : i < text.length) : (text ++ rest ++ [0])[i]? = (text ++ [0])[i]? := by
  rw [List.append_assoc, List.getElem?_append_left hi, List.getElem?_append_left hi]

theorem literalEnd_step (hquote : x ≠ QUOTE) (hback : x ≠ BACKSLASH) (s : List UInt8) :
    literalEnd (x :: s) = (literalEnd s).map fun r => (r.1 + 1, r.2) := by
  cases s with
  | nil => simp [literalEnd, hquote]
  | cons y s => simp [literalEnd, hquote, hback]

theorem literalEnd_append {s : List UInt8} {r : ℕ × ℕ} (h : literalEnd (s ++ [0]) = some r) (u : List UInt8) :
    r.1 < s.length ∧ literalEnd (s ++ u) = some r := by
  induction hn : s.length using Nat.strongRecOn generalizing s r with
  | ind n ih =>
    subst hn
    cases s with
    | nil => cases h
    | cons x s =>
      rw [List.cons_append] at h ⊢
      by_cases hquote : x = QUOTE
      · subst hquote
        rw [literalEnd_quote] at h ⊢
        cases h
        exact ⟨Nat.succ_pos _, rfl⟩
      by_cases hback : x = BACKSLASH
      · subst hback
        cases s with
        | nil => cases h
        | cons y s =>
          rw [List.cons_append, literalEnd_backslash] at h ⊢
          obtain ⟨r', hr', rfl⟩ := Option.map_eq_some_iff.mp h
          obtain ⟨hlt, hend⟩ := ih s.length (Nat.lt_succ_of_lt (Nat.lt_succ_self _)) hr' rfl
          rw [hend]
          exact ⟨Nat.add_lt_add_right hlt 2, rfl⟩
      · rw [literalEnd_step hquote hback] at h ⊢
        obtain ⟨r', hr', rfl⟩ := Option.map_eq_some_iff.mp h
        obtain ⟨hlt, hend⟩ := ih s.length (Nat.lt_succ_self _) hr' rfl
        rw [hend]
        exact ⟨Nat.add_lt_add_right hlt 1, rfl⟩

theorem parseHex4From_congr {input v : ℕ} (h : ∀ i < input + k, content'[i]? = content[i]?) :
    parseHex4From content' k input v = parseHex4From content k input v := by
  induction k generalizing input v with
  | zero => rfl
  | succ k ih =>
    simp only [parseHex4From, h input (by omega)]
    have hnext : ∀ v, parseHex4From content' k (input + 1) v = parseHex4From content k (input + 1) v := by
      intro v
      exact ih fun i hi => h i (by omega)
    simp only [hnext]

theorem utf16LiteralToUtf8_congr {input inputEnd : ℕ} (h : ∀ i ≤ inputEnd, content'[i]? = content[i]?) :
    utf16LiteralToUtf8 content' input inputEnd = utf16LiteralToUtf8 content input inputEnd := by
  unfold utf16LiteralToUtf8
  by_cases hshort : inputEnd - input < 6
  · simp only [hshort, if_true]
  have hfirst : parseHex4 content' (input + 2) = parseHex4 content (input + 2) :=
    parseHex4From_congr fun i hi => h i (by omega)
  by_cases hend : inputEnd - (input + 6) < 6
  · simp only [hshort, if_false, hfirst, hend, if_true]
  have hsecond : parseHex4 content' (input + 6 + 2) = parseHex4 content (input + 6 + 2) :=
    parseHex4From_congr fun i hi => h i (by omega)
  have hback := h (input + 6) (by omega)
  have hletter := h (input + 6 + 1) (by omega)
  simp only [hshort, if_false, hfirst, hend, hsecond, hback, hletter]

theorem escapeSequence_congr {input inputEnd : ℕ} (h : ∀ i ≤ inputEnd, content'[i]? = content[i]?) :
    escapeSequence content' input inputEnd = escapeSequence content input inputEnd := by
  unfold escapeSequence
  by_cases hshort : inputEnd - input < 1
  · simp only [hshort, if_true]
  · simp only [hshort, if_false, h (input + 1) (by omega), utf16LiteralToUtf8_congr h]

theorem convert_congr {inputEnd size p q : ℕ} {output out : List UInt8}
    (h : ∀ i ≤ inputEnd, content'[i]? = content[i]?) (hn : n ≤ n')
    (hok : convert content inputEnd size n output p = .ok out q) :
    convert content' inputEnd size n' output p = .ok out q := by
  induction n generalizing n' output p with
  | zero => cases hok
  | succ n ih =>
    obtain ⟨n', rfl⟩ : ∃ k, n' = k + 1 := ⟨n' - 1, by omega⟩
    simp only [convert] at hok ⊢
    by_cases hlt : p < inputEnd
    · simp only [hlt, if_true, h p (Nat.le_of_lt hlt), escapeSequence_congr h] at hok ⊢
      split at hok
      · cases hok
      · split_ifs at hok ⊢
        · exact ih (by omega) hok
        · split at hok
          · cases hok
          · cases hok
          · split_ifs at hok ⊢
            exact ih (by omega) hok
    · simpa only [hlt, if_false] using hok

theorem parseString_eq_ok {out : List UInt8} :
    parseString b = .ok out t ↔ b.content[b.offset]? = some QUOTE ∧ ∃ distance skippedBytes p,
      literalEnd (b.content.drop (b.offset + 1)) = some (distance, skippedBytes) ∧
      b.hooks.grants b.hooks.calls = true ∧
      convert b.content (b.offset + 1 + distance) (b.offset + 1 + distance - b.offset - skippedBytes + 1)
        (b.length + 1) [] (b.offset + 1) = .ok out p ∧
      t = { b.allocated with offset := b.offset + 1 + distance + 1 } := by
  simp only [parseString, bind_eq_ok, get_eq_ok, byteAt_eq_ok, ite_eq_ok, modify_eq_ok, fail_eq_ok, and_assoc,
    exists_and_left, exists_eq_left, false_and, ne_eq, not_not, Nat.add_zero]
  constructor
  · rintro ⟨a, hbyte, hother, hrest⟩
    by_cases ha : a = QUOTE
    · subst ha
      refine ⟨hbyte, ?_⟩
      have hmatch := hrest rfl
      cases hend : literalEnd (b.content.drop (b.offset + 1)) with
      | none => simp [hend, bind_eq_ok, fail_eq_ok] at hmatch
      | some r =>
        obtain ⟨distance, skippedBytes⟩ := r
        simp only [hend, bind_eq_ok, onFail_eq_ok, allocate_eq_ok, and_assoc, exists_and_left,
          exists_eq_left, exists_const] at hmatch
        obtain ⟨hgrants, hmatch⟩ := hmatch
        refine ⟨distance, skippedBytes, rfl, hgrants, ?_⟩
        cases hconvert : convert b.content (b.offset + 1 + distance)
            (b.offset + 1 + distance - b.offset - skippedBytes + 1) (b.length + 1) [] (b.offset + 1) with
        | undefined =>
          rw [hconvert] at hmatch
          cases hmatch
        | fail p => simp [hconvert, bind_eq_ok, fail_eq_ok] at hmatch
        | ok output p =>
          simp only [hconvert, bind_eq_ok, modify_eq_ok, pure_eq_ok, exists_eq_left, exists_const] at hmatch
          obtain ⟨rfl, rfl⟩ := hmatch
          exact ⟨p, rfl, rfl⟩
    · obtain ⟨-, -, -, hfalse⟩ := hother ha
      exact hfalse.elim
  · rintro ⟨hbyte, distance, skippedBytes, hend, hgrants, p, hconvert, rfl⟩
    refine ⟨QUOTE, hbyte, fun hne => absurd rfl hne, fun _ => ?_⟩
    simp only [hend, bind_eq_ok, onFail_eq_ok, allocate_eq_ok, and_assoc, exists_and_left, exists_eq_left, hconvert,
      modify_eq_ok, pure_eq_ok, exists_const, and_true]
    exact hgrants

theorem parseNumber_eq_ok {item : CJson} :
    parseNumber b = .ok item t ↔ b.hooks.grants b.hooks.calls = true ∧ ∃ value r,
      strtod (b.bufferAtOffset.takeWhile isNumberByte) = some (value, r) ∧
      item = .number (valueint value) value ∧
      t = (b.allocated.advance ((b.bufferAtOffset.takeWhile isNumberByte).length - r.length)).deallocate 1 := by
  simp only [parseNumber, bind_eq_ok, get_eq_ok, allocate_eq_ok, and_assoc, exists_and_left, exists_eq_left]
  cases strtod (b.bufferAtOffset.takeWhile isNumberByte) with
  | none => simp [bind_eq_ok, fail_eq_ok]
  | some r =>
    obtain ⟨value, r⟩ := r
    simp [bind_eq_ok, modify_eq_ok, pure_eq_ok]

theorem parseString_longer {out : List UInt8} (h : Inside text b) (hok : parseString b = .ok out t)
    (rest : List UInt8) :
    (t.content = text ++ [0] ∧ t.offset ≤ text.length) ∧
      parseString (longer text rest b) = .ok out (longer text rest t) := by
  obtain ⟨hbyte, distance, skippedBytes, p, hend, hgrants, hconvert, rfl⟩ := parseString_eq_ok.mp hok
  have hlt := h.offset
  have hdrop : b.content.drop (b.offset + 1) = text.drop (b.offset + 1) ++ [0] := by
    rw [h.content, List.drop_append_of_le_length h.offset]
  have hdrop' : (text ++ rest ++ [0]).drop (b.offset + 1) = text.drop (b.offset + 1) ++ (rest ++ [0]) := by
    rw [List.append_assoc, List.drop_append_of_le_length h.offset]
  rw [hdrop] at hend
  obtain ⟨hdistance, hend'⟩ := literalEnd_append hend (rest ++ [0])
  rw [List.length_drop] at hdistance
  constructor
  · refine ⟨h.content, ?_⟩
    change b.offset + 1 + distance + 1 ≤ text.length
    dsimp only at hdistance
    omega
  · apply parseString_eq_ok.mpr
    refine ⟨?_, distance, skippedBytes, p, ?_, hgrants, ?_, rfl⟩
    · rw [longer_content, longer_offset, getElem?_longer hlt, ← h.content]
      exact hbyte
    · rw [longer_content, longer_offset, hdrop']
      exact hend'
    · rw [h.content] at hconvert
      apply convert_congr _ _ hconvert
      · intro i hi
        exact getElem?_longer (by dsimp only at hdistance; omega)
      · simp [ParseBuffer.length, h.content]

theorem inside_or_end (hcontent : b.content = text ++ [0]) (hle : b.offset ≤ text.length) :
    Inside text b ∨ AtEnd text b := by
  obtain hlt | heq := Nat.lt_or_eq_of_le hle
  · exact .inl ⟨hcontent, hlt⟩
  · exact .inr ⟨hcontent, heq⟩

/-- The two buffers are read to the same number, or the text is at its end and what is left of it would go on with
the number. -/
theorem parseNumber_longer {item : CJson} (h : Inside text b) (hok : parseNumber b = .ok item t) (rest : List UInt8) :
    (t.content = text ++ [0] ∧ t.offset ≤ text.length ∧
        parseNumber (longer text rest b) = .ok item (longer text rest t)) ∨
      (Spent text t ∧ ∃ m d m' d' t', item = .number m d ∧
        parseNumber (longer text rest b) = .ok (.number m' d') t') := by
  obtain ⟨hgrants, value, r, hstrtod, rfl, rfl⟩ := parseNumber_eq_ok.mp hok
  obtain ⟨y, u, hdrop, hbytes, hlonger⟩ := h.bytes rest
  have hlength : (y :: u).length = text.length - b.offset := by rw [← hdrop, List.length_drop]
  have hzero : ([0] : List UInt8).takeWhile isNumberByte = [] := by decide
  rw [← List.cons_append] at hbytes hlonger
  have htoken : b.bufferAtOffset.takeWhile isNumberByte = (y :: u).takeWhile isNumberByte := by
    rw [hbytes, List.takeWhile_append]
    split_ifs with hall
    · rw [hzero, List.append_nil]
      exact (List.takeWhile_prefix (l := y :: u) isNumberByte).eq_of_length hall |>.symm
    · rfl
  have hspan := (List.takeWhile_prefix (l := y :: u) isNumberByte).length_le
  by_cases hall : ((y :: u).takeWhile isNumberByte).length = (y :: u).length
  · right
    have hnumeric := (List.takeWhile_prefix (l := y :: u) isNumberByte).eq_of_length hall
    constructor
    · refine ⟨h.content, ?_⟩
      intro x hx
      simp only [deallocate_offset, advance_offset, allocated_offset] at hx
      rw [← List.drop_drop, hdrop] at hx
      have hmem := List.mem_of_mem_drop hx
      rw [← hnumeric] at hmem
      exact List.mem_takeWhile_imp hmem
    · have htoken' : (longer text rest b).bufferAtOffset.takeWhile isNumberByte =
          (y :: u) ++ (rest ++ [0]).takeWhile isNumberByte := by
        rw [hlonger, List.takeWhile_append, if_pos hall]
      rw [htoken, hnumeric] at hstrtod
      have hsome : strtod (y :: u) ≠ none := by
        rw [hstrtod]
        exact Option.some_ne_none _
      obtain ⟨⟨value', r'⟩, hstrtod'⟩ := Option.ne_none_iff_exists'.mp
        (strtod_append hsome ((rest ++ [0]).takeWhile isNumberByte))
      refine ⟨_, _, _, _, _, rfl, parseNumber_eq_ok.mpr ⟨hgrants, value', r', ?_, rfl, rfl⟩⟩
      rw [htoken']
      exact hstrtod'
  · left
    have htoken' : (longer text rest b).bufferAtOffset.takeWhile isNumberByte = (y :: u).takeWhile isNumberByte := by
      rw [hlonger, List.takeWhile_append, if_neg hall]
    refine ⟨h.content, ?_, parseNumber_eq_ok.mpr ⟨hgrants, value, r, ?_, rfl, ?_⟩⟩
    · simp only [deallocate_offset, advance_offset, allocated_offset, htoken]
      have hlt := h.offset
      omega
    · rw [htoken', ← htoken]
      exact hstrtod
    · rw [htoken', htoken]
      rfl

section Loops

variable {parseValue : Parse CJson} {item : CJson} {head items : List CJson} {members members' : List (CString × CJson)}

structure Extends (text rest : List UInt8) (parseValue : Parse CJson) : Prop where
  inside : ∀ {b t item}, Inside text b → parseValue b = .ok item t →
    (t.content = text ++ [0] ∧ t.offset ≤ text.length ∧
        parseValue (longer text rest b) = .ok item (longer text rest t)) ∨
      (Spent text t ∧ ∃ m d m' d' t', item = .number m d ∧
        parseValue (longer text rest b) = .ok (.number m' d') t')
  atEnd : ∀ {b t item}, AtEnd text b → parseValue b ≠ .ok item t

theorem Extends.skip (hvalue : Extends text rest parseValue) (h : Inside text b)
    (hok : parseValue b.skipWhitespace = .ok item t) :
    (Inside text t.skipWhitespace ∧ parseValue (longer text rest b).skipWhitespace = .ok item (longer text rest t) ∧
        (longer text rest t).skipWhitespace = longer text rest t.skipWhitespace) ∨ Spent text t.skipWhitespace := by
  obtain ⟨hinside, hskip⟩ | hend := h.skip rest
  · rw [hskip]
    obtain ⟨hcontent, hle, hlonger⟩ | ⟨hspent, -⟩ := hvalue.inside hinside hok
    · obtain ⟨hinside', hskip'⟩ | hend := skip_level hcontent hle rest
      · exact .inl ⟨hinside', hlonger, hskip'⟩
      · exact .inr hend.spent
    · exact .inr hspent.skip
  · exact absurd hok (hvalue.atEnd hend)

theorem parseElements_eq_ok :
    parseElements parseValue (n + 1) head b = .ok items t ↔ b.hooks.grants b.hooks.calls = true ∧ ∃ item u,
      parseValue (b.allocated.advance 1).skipWhitespace = .ok item u ∧
      (u.skipWhitespace.bufferAtOffset.head? = some COMMA →
        parseElements parseValue n (head ++ [item]) u.skipWhitespace = .ok items t) ∧
      (¬ u.skipWhitespace.bufferAtOffset.head? = some COMMA → items = head ++ [item] ∧ t = u.skipWhitespace) := by
  simp only [parseElements, bind_eq_ok, onFail_eq_ok, allocate_eq_ok, modify_eq_ok, nextIs_eq_ok, ite_eq_ok,
    pure_eq_ok, and_assoc, exists_and_left, exists_eq_left, exists_const, decide_eq_true_eq]

theorem parseElements_atEnd (hvalue : Extends text rest parseValue) (h : AtEnd text (b.advance 1)) :
    parseElements parseValue n head b ≠ .ok items t := by
  intro hok
  cases n with
  | zero => cases hok
  | succ n =>
    obtain ⟨-, item, u, hitem, -⟩ := parseElements_eq_ok.mp hok
    have hend : AtEnd text (b.allocated.advance 1) := ⟨h.content, h.offset⟩
    exact hvalue.atEnd hend.skip hitem

theorem parseElements_longer (hvalue : Extends text rest parseValue) (h : Inside text (b.advance 1)) (hn : n ≤ n')
    (hok : parseElements parseValue n head b = .ok items t) :
    (Inside text t ∧ parseElements parseValue n' head (longer text rest b) = .ok items (longer text rest t)) ∨
      Spent text t := by
  induction n generalizing n' b head with
  | zero => cases hok
  | succ n ih =>
    obtain ⟨n', rfl⟩ : ∃ k, n' = k + 1 := ⟨n' - 1, by omega⟩
    obtain ⟨hgrants, item, u, hitem, hcomma, hlast⟩ := parseElements_eq_ok.mp hok
    have hinside : Inside text (b.allocated.advance 1) := ⟨h.content, h.offset⟩
    obtain ⟨hnext, hlonger, hskip⟩ | hspent := hvalue.skip hinside hitem
    · by_cases hc : u.skipWhitespace.bufferAtOffset.head? = some COMMA
      · obtain hinside' | hend := inside_or_end (b := u.skipWhitespace.advance 1) hnext.content hnext.offset
        · obtain ⟨ht, htail⟩ | hspent := ih hinside' (Nat.le_of_succ_le_succ hn) (hcomma hc)
          · refine .inl ⟨ht, parseElements_eq_ok.mpr ⟨hgrants, item, longer text rest u, hlonger, ?_, ?_⟩⟩
            · intro _
              rw [hskip]
              exact htail
            · intro hno
              rw [hskip, hnext.head] at hno
              exact absurd hc hno
          · exact .inr hspent
        · exact absurd (hcomma hc) (parseElements_atEnd hvalue hend)
      · obtain ⟨rfl, rfl⟩ := hlast hc
        refine .inl ⟨hnext, parseElements_eq_ok.mpr ⟨hgrants, item, longer text rest u, hlonger, ?_, ?_⟩⟩
        · intro hyes
          rw [hskip, hnext.head] at hyes
          exact absurd hyes hc
        · intro _
          exact ⟨rfl, hskip.symm⟩
    · obtain ⟨rfl, rfl⟩ := hlast (hspent.next (by decide) (by decide))
      exact .inr hspent

theorem parseArray_eq_ok :
    parseArray parseValue b = .ok item t ↔ ¬ CJSON_NESTING_LIMIT ≤ b.depth ∧ b.content[b.offset]? = some LBRACKET ∧
      ((b.enter.advance 1).skipWhitespace.bufferAtOffset.head? = some RBRACKET →
        item = .array [] ∧ t = (b.enter.advance 1).skipWhitespace.leave.advance 1) ∧
      (¬ (b.enter.advance 1).skipWhitespace.bufferAtOffset.head? = some RBRACKET →
        (b.enter.advance 1).skipWhitespace.canAccessAtIndex 0 = true ∧ ∃ head u,
          parseElements parseValue (b.enter.advance 1).skipWhitespace.stepBack.length []
            (b.enter.advance 1).skipWhitespace.stepBack = .ok head u ∧
          u.bufferAtOffset.head? = some RBRACKET ∧ item = .array head ∧ t = u.leave.advance 1) := by
  simp only [parseArray, bind_eq_ok, get_eq_ok, byteAt_eq_ok, modify_eq_ok, nextIs_eq_ok, ite_eq_ok, fail_eq_ok,
    pure_eq_ok, and_assoc, exists_and_left, exists_eq_left, exists_const, decide_eq_true_eq, false_and, and_false,
    exists_false, refused_iff, needed_iff, ne_eq, not_not, Bool.not_eq_true', ← Bool.not_eq_true]
  constructor
  · rintro ⟨hdepth, a, hbyte, rfl, hrest⟩
    exact ⟨hdepth, hbyte, hrest⟩
  · rintro ⟨hdepth, hbyte, hrest⟩
    exact ⟨hdepth, _, hbyte, rfl, hrest⟩

theorem stepBack_advance (h : 0 < b.offset) : b.stepBack.advance 1 = b := by
  obtain ⟨content, offset, depth, hooks⟩ := b
  simp only [stepBack, advance, ParseBuffer.mk.injEq, true_and, and_true]
  exact Nat.sub_add_cancel h

theorem Inside.open (h : Inside text b) (rest : List UInt8) :
    0 < (b.enter.advance 1).skipWhitespace.offset ∧
      (Inside text (b.enter.advance 1).skipWhitespace ∧
          (longer text rest (b.enter.advance 1)).skipWhitespace =
            longer text rest (b.enter.advance 1).skipWhitespace ∨
        AtEnd text (b.enter.advance 1).skipWhitespace) := by
  have hle : (b.enter.advance 1).offset ≤ (b.enter.advance 1).length := by
    have hlt := h.offset
    rw [ParseBuffer.length, advance_content, enter_content, h.content, List.length_append, advance_offset,
      enter_offset]
    omega
  exact ⟨skipWhitespace_pos hle (Nat.succ_pos _), skip_level (b := b.enter.advance 1) h.content h.offset rest⟩

theorem parseArray_longer (hvalue : Extends text rest parseValue) (h : Inside text b)
    (hok : parseArray parseValue b = .ok item t) :
    t.content = text ++ [0] ∧ t.offset ≤ text.length ∧
      parseArray parseValue (longer text rest b) = .ok item (longer text rest t) := by
  obtain ⟨hdepth, hbyte, hempty, helements⟩ := parseArray_eq_ok.mp hok
  have hbyte' : (longer text rest b).content[(longer text rest b).offset]? = some LBRACKET := by
    rw [longer_content, longer_offset, getElem?_longer h.offset, ← h.content]
    exact hbyte
  obtain ⟨hpos, ⟨hinside, hskip⟩ | hend⟩ := h.open rest
  · by_cases hclose : (b.enter.advance 1).skipWhitespace.bufferAtOffset.head? = some RBRACKET
    · obtain ⟨rfl, rfl⟩ := hempty hclose
      refine ⟨hinside.content, hinside.offset, ?_⟩
      rw [parseArray_eq_ok, longer_enter, longer_advance, hskip, hinside.head]
      exact ⟨hdepth, hbyte', fun _ => ⟨rfl, rfl⟩, fun hno => absurd hclose hno⟩
    · obtain ⟨-, head, u, hhead, hnext, rfl, rfl⟩ := helements hclose
      have hstart := hinside
      rw [← stepBack_advance hpos] at hstart
      obtain ⟨hu, helements'⟩ | hspent := parseElements_longer hvalue hstart (hinside.length_le rest) hhead
      · refine ⟨hu.content, hu.offset, ?_⟩
        rw [parseArray_eq_ok, longer_enter, longer_advance, hskip, hinside.head]
        refine ⟨hdepth, hbyte', fun hyes => absurd hyes hclose, fun _ => ⟨?_, head, _, helements', ?_, rfl, rfl⟩⟩
        · exact hinside.access rest
        · rw [hu.head]
          exact hnext
      · exact absurd hnext (hspent.next (by decide) (by decide))
  · obtain ⟨-, head, u, hhead, -⟩ := helements (hend.spent.next (by decide) (by decide))
    have hback := stepBack_advance hpos
    rw [← hback] at hend
    exact absurd hhead (parseElements_atEnd hvalue hend)

theorem parseString_atEnd {out : List UInt8} (h : AtEnd text b) : parseString b ≠ .ok out t := by
  intro hok
  have hbyte := (parseString_eq_ok.mp hok).1
  rw [h.content, h.offset, List.getElem?_append_right (Nat.le_refl _), Nat.sub_self] at hbyte
  cases hbyte

theorem parseMembers_eq_ok :
    parseMembers parseValue (n + 1) members b = .ok members' t ↔ b.hooks.grants b.hooks.calls = true ∧
      b.allocated.canAccessAtIndex 1 = true ∧
      ∃ name u, parseString (b.allocated.advance 1).skipWhitespace = .ok name u ∧
      u.skipWhitespace.bufferAtOffset.head? = some COLON ∧ ∃ item v,
      parseValue (u.skipWhitespace.advance 1).skipWhitespace = .ok item v ∧
      (v.skipWhitespace.bufferAtOffset.head? = some COMMA →
        parseMembers parseValue n (members ++ [(cString name, item)]) v.skipWhitespace = .ok members' t) ∧
      (¬ v.skipWhitespace.bufferAtOffset.head? = some COMMA →
        members' = members ++ [(cString name, item)] ∧ t = v.skipWhitespace) := by
  simp only [parseMembers, bind_eq_ok, onFail_eq_ok, allocate_eq_ok, modify_eq_ok, nextIs_eq_ok, ite_eq_ok,
    pure_eq_ok, get_eq_ok, fail_eq_ok, and_assoc, exists_and_left, exists_eq_left, exists_const, decide_eq_true_eq,
    false_and, and_false, exists_false, needed_iff, not_not, Bool.not_eq_true', ← Bool.not_eq_true]

theorem parseMembers_atEnd (h : AtEnd text (b.advance 1)) :
    parseMembers parseValue n members b ≠ .ok members' t := by
  intro hok
  cases n with
  | zero => cases hok
  | succ n =>
    obtain ⟨-, -, name, u, hname, -⟩ := parseMembers_eq_ok.mp hok
    have hend : AtEnd text (b.allocated.advance 1) := ⟨h.content, h.offset⟩
    exact parseString_atEnd hend.skip hname

theorem name_longer {name : List UInt8} (h : Inside text b) (hok : parseString b.skipWhitespace = .ok name t)
    (hcolon : t.skipWhitespace.bufferAtOffset.head? = some COLON) (rest : List UInt8) :
    Inside text t.skipWhitespace ∧ parseString (longer text rest b).skipWhitespace = .ok name (longer text rest t) ∧
      (longer text rest t).skipWhitespace = longer text rest t.skipWhitespace := by
  obtain ⟨hinside, hskip⟩ | hend := h.skip rest
  · obtain ⟨⟨hcontent, hle⟩, hlonger⟩ := parseString_longer hinside hok rest
    rw [hskip]
    obtain ⟨hinside', hskip'⟩ | hend := skip_level hcontent hle rest
    · exact ⟨hinside', hlonger, hskip'⟩
    · rw [hend.bytes] at hcolon
      cases hcolon
  · exact absurd hok (parseString_atEnd hend)

theorem parseMembers_longer (hvalue : Extends text rest parseValue) (h : Inside text (b.advance 1)) (hn : n ≤ n')
    (hok : parseMembers parseValue n members b = .ok members' t) :
    (Inside text t ∧ parseMembers parseValue n' members (longer text rest b) = .ok members' (longer text rest t)) ∨
      Spent text t := by
  induction n generalizing n' b members with
  | zero => cases hok
  | succ n ih =>
    obtain ⟨n', rfl⟩ : ∃ k, n' = k + 1 := ⟨n' - 1, by omega⟩
    obtain ⟨hgrants, haccess, name, u, hname, hcolon, item, v, hitem, hcomma, hlast⟩ := parseMembers_eq_ok.mp hok
    have hinside : Inside text (b.allocated.advance 1) := ⟨h.content, h.offset⟩
    have haccess' : (longer text rest b).allocated.canAccessAtIndex 1 = true := by
      have hlonger := hinside.access rest
      rwa [canAccessAtIndex_iff] at hlonger ⊢
    obtain ⟨hu, hname', hskip⟩ := name_longer hinside hname hcolon rest
    obtain hu' | hend := inside_or_end (b := u.skipWhitespace.advance 1) hu.content hu.offset
    · have hcolon' : (longer text rest u).skipWhitespace.bufferAtOffset.head? = some COLON := by
        rw [hskip, hu.head]
        exact hcolon
      obtain ⟨hnext, hlonger, hskip'⟩ | hspent := hvalue.skip hu' hitem
      · have hitem' : parseValue ((longer text rest u).skipWhitespace.advance 1).skipWhitespace =
            .ok item (longer text rest v) := by
          rw [hskip]
          exact hlonger
        by_cases hc : v.skipWhitespace.bufferAtOffset.head? = some COMMA
        · obtain hinside' | hend := inside_or_end (b := v.skipWhitespace.advance 1) hnext.content hnext.offset
          · obtain ⟨ht, htail⟩ | hspent := ih hinside' (Nat.le_of_succ_le_succ hn) (hcomma hc)
            · refine .inl ⟨ht, parseMembers_eq_ok.mpr ⟨hgrants, haccess', name, _, hname', hcolon', item, _, hitem',
                ?_, ?_⟩⟩
              · intro _
                rw [hskip']
                exact htail
              · intro hno
                rw [hskip', hnext.head] at hno
                exact absurd hc hno
            · exact .inr hspent
          · exact absurd (hcomma hc) (parseMembers_atEnd hend)
        · obtain ⟨rfl, rfl⟩ := hlast hc
          refine .inl ⟨hnext, parseMembers_eq_ok.mpr ⟨hgrants, haccess', name, _, hname', hcolon', item, _, hitem',
            ?_, ?_⟩⟩
          · intro hyes
            rw [hskip', hnext.head] at hyes
            exact absurd hyes hc
          · intro _
            exact ⟨rfl, hskip'.symm⟩
      · obtain ⟨rfl, rfl⟩ := hlast (hspent.next (by decide) (by decide))
        exact .inr hspent
    · exact absurd hitem (hvalue.atEnd hend.skip)

theorem parseObject_eq_ok :
    parseObject parseValue b = .ok item t ↔ ¬ CJSON_NESTING_LIMIT ≤ b.depth ∧
      b.enter.bufferAtOffset.head? = some LBRACE ∧
      ((b.enter.advance 1).skipWhitespace.bufferAtOffset.head? = some RBRACE →
        item = .object [] ∧ t = (b.enter.advance 1).skipWhitespace.leave.advance 1) ∧
      (¬ (b.enter.advance 1).skipWhitespace.bufferAtOffset.head? = some RBRACE →
        (b.enter.advance 1).skipWhitespace.canAccessAtIndex 0 = true ∧ ∃ members u,
          parseMembers parseValue (b.enter.advance 1).skipWhitespace.stepBack.length []
            (b.enter.advance 1).skipWhitespace.stepBack = .ok members u ∧
          u.bufferAtOffset.head? = some RBRACE ∧ item = .object members ∧ t = u.leave.advance 1) := by
  simp only [parseObject, bind_eq_ok, get_eq_ok, modify_eq_ok, nextIs_eq_ok, ite_eq_ok, fail_eq_ok,
    pure_eq_ok, and_assoc, exists_and_left, exists_eq_left, exists_const, decide_eq_true_eq, false_and, and_false,
    exists_false, refused_iff, needed_iff, not_not, Bool.not_eq_true', ← Bool.not_eq_true]

theorem parseObject_longer (hvalue : Extends text rest parseValue) (h : Inside text b)
    (hok : parseObject parseValue b = .ok item t) :
    t.content = text ++ [0] ∧ t.offset ≤ text.length ∧
      parseObject parseValue (longer text rest b) = .ok item (longer text rest t) := by
  obtain ⟨hdepth, hbyte, hempty, hmembers⟩ := parseObject_eq_ok.mp hok
  have hbyte' : (longer text rest b.enter).bufferAtOffset.head? = some LBRACE := by
    have henter : Inside text b.enter := ⟨h.content, h.offset⟩
    rw [henter.head]
    exact hbyte
  obtain ⟨hpos, ⟨hinside, hskip⟩ | hend⟩ := h.open rest
  · by_cases hclose : (b.enter.advance 1).skipWhitespace.bufferAtOffset.head? = some RBRACE
    · obtain ⟨rfl, rfl⟩ := hempty hclose
      refine ⟨hinside.content, hinside.offset, ?_⟩
      rw [parseObject_eq_ok, longer_enter, longer_advance, hskip, hinside.head]
      exact ⟨hdepth, hbyte', fun _ => ⟨rfl, rfl⟩, fun hno => absurd hclose hno⟩
    · obtain ⟨-, members, u, hhead, hnext, rfl, rfl⟩ := hmembers hclose
      have hstart := hinside
      rw [← stepBack_advance hpos] at hstart
      obtain ⟨hu, hmembers'⟩ | hspent := parseMembers_longer hvalue hstart (hinside.length_le rest) hhead
      · refine ⟨hu.content, hu.offset, ?_⟩
        rw [parseObject_eq_ok, longer_enter, longer_advance, hskip, hinside.head]
        refine ⟨hdepth, hbyte', fun hyes => absurd hyes hclose, fun _ => ⟨?_, members, _, hmembers', ?_, rfl, rfl⟩⟩
        · exact hinside.access rest
        · rw [hu.head]
          exact hnext
      · exact absurd hnext (hspent.next (by decide) (by decide))
  · obtain ⟨-, members, u, hhead, -⟩ := hmembers (hend.spent.next (by decide) (by decide))
    have hback := stepBack_advance hpos
    rw [← hback] at hend
    exact absurd hhead (parseMembers_atEnd hend)

end Loops

section Values

variable {item : CJson} {y : UInt8} {s : List UInt8}

theorem byte_of_bytes (hb : b.bufferAtOffset = y :: s) : b.content[b.offset + 0]? = some y := by
  rw [← List.getElem?_drop, ← bufferAtOffset, hb, List.getElem?_cons_zero]

theorem literal_iff (name : List UInt8) (hne : name ≠ []) :
    b.canRead name.length = true ∧ b.bufferAtOffset.take name.length = name ↔ name <+: b.bufferAtOffset := by
  rw [List.prefix_iff_eq_take, @eq_comm _ name]
  constructor
  · exact fun h => h.2
  · intro h
    refine ⟨?_, h⟩
    have hlength := congrArg List.length h
    have hpos := List.length_pos_iff.mpr hne
    simp only [List.length_take, bufferAtOffset, List.length_drop] at hlength
    rw [canRead_iff, ParseBuffer.length]
    omega

theorem parseValue_eq_ok (hb : b.bufferAtOffset = y :: s) :
    parseValue (n + 1) b = .ok item t ↔
      (ascii ['n', 'u', 'l', 'l'] <+: b.bufferAtOffset ∧ item = .null ∧ t = b.advance 4) ∨
      (ascii ['f', 'a', 'l', 's', 'e'] <+: b.bufferAtOffset ∧ item = .false ∧ t = b.advance 5) ∨
      (ascii ['t', 'r', 'u', 'e'] <+: b.bufferAtOffset ∧ item = .true ∧ t = b.advance 4) ∨
      (y = QUOTE ∧ ∃ out, parseString b = .ok out t ∧ item = .string out) ∨
      ((y = 45 ∨ 48 ≤ y ∧ y ≤ 57) ∧ parseNumber b = .ok item t) ∨
      (y = LBRACKET ∧ parseArray (parseValue n) b = .ok item t) ∨
      (y = LBRACE ∧ parseObject (parseValue n) b = .ok item t) := by
  have hlength := length_of_rest hb (List.cons_ne_nil _ _)
  rw [List.length_cons] at hlength
  have haccess : b.canAccessAtIndex 0 = true := canAccessAtIndex_iff.mpr (by omega)
  have hnull : b.canRead 4 = true ∧ b.bufferAtOffset.take 4 = ascii ['n', 'u', 'l', 'l'] ↔ _ :=
    literal_iff (ascii ['n', 'u', 'l', 'l']) (by decide)
  have hfalse : b.canRead 5 = true ∧ b.bufferAtOffset.take 5 = ascii ['f', 'a', 'l', 's', 'e'] ↔ _ :=
    literal_iff (ascii ['f', 'a', 'l', 's', 'e']) (by decide)
  have htrue : b.canRead 4 = true ∧ b.bufferAtOffset.take 4 = ascii ['t', 'r', 'u', 'e'] ↔ _ :=
    literal_iff (ascii ['t', 'r', 'u', 'e']) (by decide)
  have hn : ascii ['n', 'u', 'l', 'l'] <+: b.bufferAtOffset → y = 110 := by
    rw [hb]
    exact fun h => (List.cons_prefix_cons.mp h).1.symm
  have hf : ascii ['f', 'a', 'l', 's', 'e'] <+: b.bufferAtOffset → y = 102 := by
    rw [hb]
    exact fun h => (List.cons_prefix_cons.mp h).1.symm
  have ht : ascii ['t', 'r', 'u', 'e'] <+: b.bufferAtOffset → y = 116 := by
    rw [hb]
    exact fun h => (List.cons_prefix_cons.mp h).1.symm
  have hletter : y = 110 ∨ y = 102 ∨ y = 116 →
      y ≠ QUOTE ∧ ¬ (y = 45 ∨ 48 ≤ y ∧ y ≤ 57) ∧ y ≠ LBRACKET ∧ y ≠ LBRACE := by
    rintro (rfl | rfl | rfl) <;> decide
  simp only [parseValue, bind_eq_ok, get_eq_ok, hnull, hfalse, htrue, haccess, Bool.not_true, Bool.false_eq_true,
    if_false, and_assoc, exists_and_left, exists_eq_left]
  by_cases h₁ : ascii ['n', 'u', 'l', 'l'] <+: b.bufferAtOffset
  · obtain ⟨hquote, hnumber, harray, hobject⟩ := hletter (.inl (hn h₁))
    have h₂ : ¬ ascii ['f', 'a', 'l', 's', 'e'] <+: b.bufferAtOffset := by
      intro h
      exact absurd ((hn h₁).symm.trans (hf h)) (by decide)
    have h₃ : ¬ ascii ['t', 'r', 'u', 'e'] <+: b.bufferAtOffset := by
      intro h
      exact absurd ((hn h₁).symm.trans (ht h)) (by decide)
    simp only [h₁, h₂, h₃, hquote, hnumber, harray, hobject, if_true, bind_eq_ok, modify_eq_ok, pure_eq_ok,
      exists_eq_left, exists_const, true_and, false_and, or_false]
  by_cases h₂ : ascii ['f', 'a', 'l', 's', 'e'] <+: b.bufferAtOffset
  · obtain ⟨hquote, hnumber, harray, hobject⟩ := hletter (.inr (.inl (hf h₂)))
    have h₃ : ¬ ascii ['t', 'r', 'u', 'e'] <+: b.bufferAtOffset := by
      intro h
      exact absurd ((hf h₂).symm.trans (ht h)) (by decide)
    simp only [h₁, h₂, h₃, hquote, hnumber, harray, hobject, if_true, if_false, bind_eq_ok, modify_eq_ok, pure_eq_ok,
      exists_eq_left, exists_const, true_and, false_and, or_false, false_or]
  by_cases h₃ : ascii ['t', 'r', 'u', 'e'] <+: b.bufferAtOffset
  · obtain ⟨hquote, hnumber, harray, hobject⟩ := hletter (.inr (.inr (ht h₃)))
    simp only [h₁, h₂, h₃, hquote, hnumber, harray, hobject, if_true, if_false, bind_eq_ok, modify_eq_ok, pure_eq_ok,
      exists_eq_left, exists_const, true_and, false_and, or_false, false_or]
  simp only [h₁, h₂, h₃, if_false, false_and, false_or, bind_eq_ok, byteAt_eq_ok, byte_of_bytes hb, and_assoc,
    exists_and_left, exists_eq_left, exists_eq_left', Option.some.injEq]
  split_ifs with hquote hnumber harray hobject
  · subst hquote
    have hno : ¬ (QUOTE = 45 ∨ 48 ≤ QUOTE ∧ QUOTE ≤ 57) ∧ QUOTE ≠ LBRACKET ∧ QUOTE ≠ LBRACE := by decide
    simp only [bind_eq_ok, pure_eq_ok, hno.1, hno.2.1, hno.2.2, true_and, false_and, or_false]
    constructor
    · rintro ⟨out, u, hstring, rfl, rfl⟩
      exact ⟨out, hstring, rfl⟩
    · rintro ⟨out, hstring, rfl⟩
      exact ⟨out, t, hstring, rfl, rfl⟩
  · have hno : y ≠ LBRACKET ∧ y ≠ LBRACE := by
      constructor
      all_goals
        rintro rfl
        exact absurd hnumber (by decide)
    simp only [hquote, hnumber, hno.1, hno.2, true_and, false_and, or_false, false_or]
  · subst harray
    have hno : LBRACKET ≠ LBRACE := by decide
    simp only [hquote, hnumber, hno, true_and, false_and, or_false, false_or]
  · subst hobject
    simp only [hquote, hnumber, harray, true_and, false_and, false_or]
  · simp only [hquote, hnumber, harray, hobject, fail_eq_ok, false_and, or_false]

theorem parseValue_other (hb : b.bufferAtOffset = y :: s) (hy : y = 0 ∨ y = 0xEF) : parseValue n b ≠ .ok item t := by
  intro hok
  cases n with
  | zero => cases hok
  | succ n =>
    have hno : (110 : UInt8) ≠ y ∧ (102 : UInt8) ≠ y ∧ (116 : UInt8) ≠ y ∧ y ≠ QUOTE ∧
        ¬ (y = 45 ∨ 48 ≤ y ∧ y ≤ 57) ∧ y ≠ LBRACKET ∧ y ≠ LBRACE := by
      obtain rfl | rfl := hy <;> decide
    obtain ⟨hnull, hfalse, htrue, hquote, hnumber, harray, hobject⟩ := hno
    have hvalue := (parseValue_eq_ok hb).mp hok
    rw [hb] at hvalue
    obtain ⟨h, -⟩ | ⟨h, -⟩ | ⟨h, -⟩ | ⟨h, -⟩ | ⟨h, -⟩ | ⟨h, -⟩ | ⟨h, -⟩ := hvalue
    · exact hnull (List.cons_prefix_cons.mp h).1
    · exact hfalse (List.cons_prefix_cons.mp h).1
    · exact htrue (List.cons_prefix_cons.mp h).1
    · exact hquote h
    · exact hnumber h
    · exact harray h
    · exact hobject h

theorem literal_longer {name : List UInt8} (hzero : 0 ∉ name) (h : Inside text b) (hname : name <+: b.bufferAtOffset)
    (rest : List UInt8) : b.offset + name.length ≤ text.length ∧ name <+: (longer text rest b).bufferAtOffset := by
  obtain ⟨y, u, hdrop, hbytes, hlonger⟩ := h.bytes rest
  have hlength : (y :: u).length = text.length - b.offset := by rw [← hdrop, List.length_drop]
  have hlt := h.offset
  rw [hbytes, ← List.cons_append] at hname
  have hle : name.length ≤ (y :: u).length := by
    by_contra hlong
    have hwhole := hname.eq_of_length_le (by
      rw [List.length_append, List.length_singleton]
      omega)
    rw [hwhole] at hzero
    exact hzero (List.mem_append_right _ List.mem_cons_self)
  have hfront : name <+: y :: u := List.prefix_of_prefix_length_le hname (List.prefix_append _ _) hle
  refine ⟨by omega, ?_⟩
  rw [hlonger, ← List.cons_append]
  exact hfront.trans (List.prefix_append _ _)

theorem parseValue_longer (text rest : List UInt8) (n : ℕ) : Extends text rest (parseValue n) := by
  induction n with
  | zero =>
    constructor
    · intro b t item _ hok
      cases hok
    · intro b t item _ hok
      cases hok
  | succ n ih =>
    constructor
    · intro b t item h hok
      obtain ⟨y, u, -, hbytes, hlonger⟩ := h.bytes rest
      obtain ⟨hname, rfl, rfl⟩ | ⟨hname, rfl, rfl⟩ | ⟨hname, rfl, rfl⟩ | ⟨rfl, out, hstring, rfl⟩ |
        ⟨hnumber, hok⟩ | ⟨rfl, hok⟩ | ⟨rfl, hok⟩ := (parseValue_eq_ok hbytes).mp hok
      · obtain ⟨hle, hname'⟩ := literal_longer (by decide) h hname rest
        exact .inl ⟨h.content, hle, (parseValue_eq_ok hlonger).mpr (.inl ⟨hname', rfl, rfl⟩)⟩
      · obtain ⟨hle, hname'⟩ := literal_longer (by decide) h hname rest
        exact .inl ⟨h.content, hle, (parseValue_eq_ok hlonger).mpr (.inr (.inl ⟨hname', rfl, rfl⟩))⟩
      · obtain ⟨hle, hname'⟩ := literal_longer (by decide) h hname rest
        exact .inl ⟨h.content, hle, (parseValue_eq_ok hlonger).mpr (.inr (.inr (.inl ⟨hname', rfl, rfl⟩)))⟩
      · obtain ⟨⟨hcontent, hle⟩, hstring'⟩ := parseString_longer h hstring rest
        refine .inl ⟨hcontent, hle, (parseValue_eq_ok hlonger).mpr ?_⟩
        exact .inr (.inr (.inr (.inl ⟨rfl, out, hstring', rfl⟩)))
      · obtain ⟨hcontent, hle, hok'⟩ | ⟨hspent, m, d, m', d', t', hitem, hok'⟩ := parseNumber_longer h hok rest
        · refine .inl ⟨hcontent, hle, (parseValue_eq_ok hlonger).mpr ?_⟩
          exact .inr (.inr (.inr (.inr (.inl ⟨hnumber, hok'⟩))))
        · refine .inr ⟨hspent, m, d, m', d', t', hitem, (parseValue_eq_ok hlonger).mpr ?_⟩
          exact .inr (.inr (.inr (.inr (.inl ⟨hnumber, hok'⟩))))
      · obtain ⟨hcontent, hle, hok'⟩ := parseArray_longer ih h hok
        refine .inl ⟨hcontent, hle, (parseValue_eq_ok hlonger).mpr ?_⟩
        exact .inr (.inr (.inr (.inr (.inr (.inl ⟨rfl, hok'⟩)))))
      · obtain ⟨hcontent, hle, hok'⟩ := parseObject_longer ih h hok
        refine .inl ⟨hcontent, hle, (parseValue_eq_ok hlonger).mpr ?_⟩
        exact .inr (.inr (.inr (.inr (.inr (.inr ⟨rfl, hok'⟩)))))
    · intro b t item h hok
      exact parseValue_other h.bytes (.inl rfl) hok

theorem skipWhitespace_plain (hb : b.bufferAtOffset = y :: s) (hy : ¬ y ≤ 32) : b.skipWhitespace = b := by
  have hlength := length_of_rest hb (List.cons_ne_nil _ _)
  rw [List.length_cons] at hlength
  have haccess : b.canAccessAtIndex 0 = true := canAccessAtIndex_iff.mpr (by omega)
  have hne : ¬ b.offset = b.length := by omega
  simp only [skipWhitespace, haccess, Bool.not_true, Bool.false_eq_true, if_false, hb]
  rw [List.takeWhile_cons_of_neg (by simpa using hy), List.length_nil, Nat.add_zero, if_neg hne]

theorem parseRoot_eq_ok :
    parseRoot false b = .ok item t ↔ b.hooks.grants b.hooks.calls = true ∧
      parseValue (CJSON_NESTING_LIMIT + 1) b.allocated.skipUtf8Bom.skipWhitespace = .ok item t := by
  simp only [parseRoot, bind_eq_ok, onFail_eq_ok, allocate_eq_ok, modify_eq_ok, pure_eq_ok, and_assoc,
    exists_and_left, exists_eq_left, exists_const, Bool.false_eq_true, if_false]
  constructor
  · rintro ⟨hgrants, item', u, hvalue, rfl, rfl⟩
    exact ⟨hgrants, hvalue⟩
  · rintro ⟨hgrants, hvalue⟩
    exact ⟨hgrants, item, t, hvalue, rfl, rfl⟩

/-- A byte order mark that only the longer text has room for stands where no value begins. -/
theorem skipUtf8Bom_longer (h : Inside text b) (rest : List UInt8) :
    (Inside text b.skipUtf8Bom ∧ (longer text rest b).skipUtf8Bom = longer text rest b.skipUtf8Bom) ∨
      (b.skipUtf8Bom = b ∧ ∃ s, b.bufferAtOffset = 0xEF :: s) := by
  obtain ⟨y, u, hdrop, hbytes, hlonger⟩ := h.bytes rest
  have hlength : (y :: u).length = text.length - b.offset := by rw [← hdrop, List.length_drop]
  have hlt := h.offset
  have hbytes' := hbytes
  have hlonger' := hlonger
  rw [← List.cons_append] at hbytes' hlonger'
  have haccess : b.canAccessAtIndex 4 = true ↔ b.offset + 4 ≤ text.length := by
    rw [canAccessAtIndex_iff, ParseBuffer.length, h.content, List.length_append, List.length_singleton]
    omega
  by_cases hlong : b.offset + 4 ≤ text.length
  · left
    have haccess' : (longer text rest b).canAccessAtIndex 4 = true := by
      simp only [canAccessAtIndex_iff, ParseBuffer.length, longer_content, longer_offset, List.length_append,
        List.length_singleton]
      omega
    have hthree : 3 ≤ (y :: u).length := by omega
    have hsame : (longer text rest b).bufferAtOffset.take 3 = b.bufferAtOffset.take 3 := by
      rw [hbytes', hlonger', List.take_append_of_le_length hthree, List.take_append_of_le_length hthree]
    unfold skipUtf8Bom
    rw [hsame, haccess']
    simp only [haccess.mpr hlong, true_and]
    split_ifs
    · refine ⟨⟨h.content, ?_⟩, rfl⟩
      rw [advance_offset]
      omega
    · exact ⟨h, rfl⟩
  · have hplain : b.skipUtf8Bom = b := by
      unfold skipUtf8Bom
      rw [if_neg]
      exact fun hbom => hlong (haccess.mp hbom.1)
    by_cases hy : y = 0xEF
    · subst hy
      exact .inr ⟨hplain, _, hbytes⟩
    · left
      rw [hplain, skipUtf8Bom_plain hlonger hy]
      exact ⟨h, rfl⟩

theorem parseRoot_longer (hcontent : b.content = text ++ [0]) (hoffset : b.offset = 0)
    (hok : parseRoot false b = .ok item t) (rest : List UInt8) :
    ∃ item' t', parseRoot false (longer text rest b) = .ok item' t' ∧
      (item' = item ∨ ∃ m d m' d', item = .number m d ∧ item' = .number m' d') := by
  obtain ⟨hgrants, hvalue⟩ := parseRoot_eq_ok.mp hok
  have hextends := parseValue_longer text rest (CJSON_NESTING_LIMIT + 1)
  have hle : b.allocated.offset ≤ text.length := by
    rw [allocated_offset, hoffset]
    exact Nat.zero_le _
  obtain hinside | hend := inside_or_end (b := b.allocated) hcontent hle
  · obtain ⟨hbom, hlonger⟩ | ⟨hplain, s, hbytes⟩ := skipUtf8Bom_longer hinside rest
    · obtain ⟨hskip, hlonger'⟩ | hend := hbom.skip rest
      · have hroot : ∀ {item' t'}, parseValue (CJSON_NESTING_LIMIT + 1)
            (longer text rest b.allocated.skipUtf8Bom.skipWhitespace) = .ok item' t' →
            parseRoot false (longer text rest b) = .ok item' t' := by
          intro item' t' hvalue'
          rw [parseRoot_eq_ok, longer_allocated, hlonger, hlonger']
          exact ⟨hgrants, hvalue'⟩
        obtain ⟨-, -, hvalue'⟩ | ⟨-, m, d, m', d', t', hitem, hvalue'⟩ := hextends.inside hskip hvalue
        · exact ⟨_, _, hroot hvalue', .inl rfl⟩
        · exact ⟨_, _, hroot hvalue', .inr ⟨m, d, m', d', hitem, rfl⟩⟩
      · exact absurd hvalue (hextends.atEnd hend)
    · rw [hplain, skipWhitespace_plain hbytes (by decide)] at hvalue
      exact absurd hvalue (parseValue_other hbytes (.inr rfl))
  · have hplain : b.allocated.skipUtf8Bom = b.allocated := skipUtf8Bom_plain hend.bytes (by decide)
    rw [hplain] at hvalue
    exact absurd hvalue (hextends.atEnd hend.skip)

end Values

/-- What follows a text that is accepted changes at most a number that is the whole text. -/
theorem cJSONParse_append {grants : ℕ → Bool} {item : CJson} {hooks : Hooks}
    (h : cJSONParse grants text = some ⟨.ok item, hooks⟩) (rest : List UInt8) :
    ∃ item' hooks', cJSONParse grants (text ++ rest) = some ⟨.ok item', hooks'⟩ ∧
      (item' = item ∨ ∃ m d m' d', item = .number m d ∧ item' = .number m' d') := by
  have hne : ∀ s : List UInt8, ¬ (s ++ [0]).length = 0 := by simp
  rw [cJSONParse, cJSONParseWithOpts, cJSONParseWithLengthOpts, if_neg (hne _)] at h
  rw [cJSONParse, cJSONParseWithOpts, cJSONParseWithLengthOpts, if_neg (hne _)]
  cases hok : parseRoot false ⟨text ++ [0], 0, 0, ⟨grants, 0, 0⟩⟩ with
  | undefined => simp [hok] at h
  | fail => simp [hok] at h
  | ok item₀ t =>
    rw [hok] at h
    cases h
    obtain ⟨item', t', hok', hitem⟩ := parseRoot_longer rfl rfl hok rest
    change parseRoot false ⟨text ++ rest ++ [0], 0, 0, ⟨grants, 0, 0⟩⟩ = _ at hok'
    rw [hok']
    exact ⟨item', t'.hooks, rfl, hitem⟩

end EmbeddedLinuxTraining.CJSON
