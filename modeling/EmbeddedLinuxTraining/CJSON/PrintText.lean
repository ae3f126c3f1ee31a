import EmbeddedLinuxTraining.CJSON.PrintMemory
import EmbeddedLinuxTraining.Library.JsonText

namespace EmbeddedLinuxTraining.CJSON

open Library Library.Ascii Library.Binary64 Library.Json Library.Printf Telemetry Procedure PrintBuffer

def escapeByte (b : UInt8) : List UInt8 :=
  match escapeLetter b with
  | some letter => [BACKSLASH, letter]
  | none => if b < 32 then BACKSLASH :: unicodeEscape b else [b]

def escaped (input : CString) : List UInt8 := input.flatMap escapeByte

def quoted (input : CString) : List UInt8 := QUOTE :: (escaped input ++ [QUOTE])

def spaced (format : Bool) (space : List UInt8) : List UInt8 := if format then space else []

def between (more : Bool) (comma : List UInt8) : List UInt8 := if more then comma else []

def numberText (valueint : Int32) (valuedouble : Double) : List UInt8 :=
  let d := valuedouble.value
  if d.isNan ∨ d.isInf then ascii ['n', 'u', 'l', 'l']
  else if d.equals valueint.toInt then decimal valueint.toInt
  else if recovers (bytes (formatG 15 d)) d then bytes (formatG 15 d)
  else bytes (formatG 17 d)

mutual

def render (format : Bool) (depth : ℕ) : CJson → List UInt8
  | .null => ascii ['n', 'u', 'l', 'l']
  | .false => ascii ['f', 'a', 'l', 's', 'e']
  | .true => ascii ['t', 'r', 'u', 'e']
  | .number valueint valuedouble => numberText valueint valuedouble
  | .string valuestring => quoted (cString valuestring)
  | .raw valuestring => cString valuestring
  | .array child => LBRACKET :: (renderElements format (depth + 1) child ++ [RBRACKET])
  | .object child => LBRACE :: (spaced format [NEWLINE] ++ renderMembers format (depth + 1) child ++
      spaced format (List.replicate depth TAB) ++ [RBRACE])

def renderElements (format : Bool) (depth : ℕ) : List CJson → List UInt8
  | [] => []
  | item :: rest => render format depth item ++
      (between (!rest.isEmpty) (COMMA :: spaced format [32]) ++ renderElements format depth rest)

def renderMembers (format : Bool) (depth : ℕ) : List (CString × CJson) → List UInt8
  | [] => []
  | (name, item) :: rest => spaced format (List.replicate depth TAB) ++ (quoted (cString name) ++
      (COLON :: spaced format [TAB] ++ (render format depth item ++
        (between (!rest.isEmpty) [COMMA] ++ spaced format [NEWLINE] ++ renderMembers format depth rest))))

end

mutual

def levels : CJson → ℕ
  | .array child => levelsElements child + 1
  | .object child => levelsMembers child + 1
  | _ => 0

def levelsElements : List CJson → ℕ
  | [] => 0
  | item :: rest => max (levels item) (levelsElements rest)

def levelsMembers : List (CString × CJson) → ℕ
  | [] => 0
  | (_, item) :: rest => max (levels item) (levelsMembers rest)

end

theorem escapeLetter_plain {b : UInt8} (hb : 31 < b) (hquote : b ≠ QUOTE) (hback : b ≠ BACKSLASH) :
    escapeLetter b = none := by
  rw [UInt8.lt_iff_toNat_lt] at hb
  have hsmall {c : UInt8} (hc : c.toNat ≤ 31) : b ≠ c := by
    rintro rfl
    change 31 < b.toNat at hb
    omega
  simp [escapeLetter, hquote, hback, hsmall (c := 8) (by decide), hsmall (c := 12) (by decide),
    hsmall (c := 10) (by decide), hsmall (c := 13) (by decide), hsmall (c := 9) (by decide)]

theorem escapeByte_plain {b : UInt8} (hb : 31 < b) (hquote : b ≠ QUOTE) (hback : b ≠ BACKSLASH) :
    escapeByte b = [b] := by
  have hnot : ¬ b < 32 := by
    rw [UInt8.lt_iff_toNat_lt] at hb ⊢
    change 31 < b.toNat at hb
    change ¬ b.toNat < 32
    omega
  rw [escapeByte, escapeLetter_plain hb hquote hback]
  exact if_neg hnot

theorem escapeByte_unicode {b : UInt8} (hplain : ¬ (31 < b ∧ b ≠ QUOTE ∧ b ≠ BACKSLASH))
    (hletter : escapeLetter b = none) : b < 32 ∧ escapeByte b = BACKSLASH :: unicodeEscape b := by
  have hback : b ≠ BACKSLASH := by
    rintro rfl
    cases hletter
  have hquote : b ≠ QUOTE := by
    rintro rfl
    cases hletter
  have hsmall : b < 32 := by
    have hle : ¬ 31 < b := fun hb => hplain ⟨hb, hquote, hback⟩
    rw [UInt8.lt_iff_toNat_lt] at hle ⊢
    change ¬ 31 < b.toNat at hle
    change b.toNat < 32
    omega
  rw [escapeByte, hletter]
  exact ⟨hsmall, if_pos hsmall⟩

theorem length_escapeByte (b : UInt8) :
    (escapeByte b).length = 1 + if (escapeLetter b).isSome then 1 else if b < 32 then 5 else 0 := by
  unfold escapeByte
  cases escapeLetter b with
  | some letter => rfl
  | none =>
    by_cases hb : b < 32
    · simp [hb, unicodeEscape]
    · simp [hb]

theorem length_escaped (input : CString) : (escaped input).length = input.length + escapeCharacters input := by
  induction input with
  | nil => rfl
  | cons b rest ih =>
    simp only [escaped, escapeCharacters, List.flatMap_cons, List.length_append, List.length_cons,
      length_escapeByte] at ih ⊢
    omega

theorem escaped_plain {input : CString} (h : escapeCharacters input = 0) : escaped input = input := by
  induction input with
  | nil => rfl
  | cons b rest ih =>
    simp only [escapeCharacters, Nat.add_eq_zero_iff] at h
    obtain ⟨hb, hrest⟩ := h
    have hone : escapeByte b = [b] := by
      unfold escapeByte
      cases hletter : escapeLetter b with
      | some letter =>
        rw [hletter] at hb
        cases hb
      | none =>
        by_cases hsmall : b < 32
        · simp [hletter, hsmall] at hb
        · exact if_neg hsmall
    rw [escaped, List.flatMap_cons, hone]
    exact congrArg (b :: ·) (ih hrest)

theorem lowerHex_ne {n : ℕ} (hn : n < 16) : lowerHex n ≠ 0 := by
  have hall : ∀ m < 16, lowerHex m ≠ 0 := by decide
  exact hall n hn

theorem escapeLetter_ne {b letter : UInt8} (h : escapeLetter b = some letter) : letter ≠ 0 := by
  unfold escapeLetter at h
  split_ifs at h <;> cases h <;> decide

theorem escapeByte_nul (b : UInt8) : 0 ∉ escapeByte b := by
  unfold escapeByte
  have hlt := b.toNat_lt
  cases hletter : escapeLetter b with
  | some letter =>
    simp only [List.mem_cons, List.not_mem_nil, or_false, not_or]
    exact ⟨by decide, (escapeLetter_ne hletter).symm⟩
  | none =>
    by_cases hb : b < 32
    · simp only [hb, if_true, unicodeEscape, List.mem_cons, List.not_mem_nil, or_false, not_or]
      exact ⟨by decide, by decide, by decide, by decide, (lowerHex_ne (by omega)).symm,
        (lowerHex_ne (by omega)).symm⟩
    · simp only [hb, if_false, List.mem_singleton]
      rintro rfl
      exact hb (by decide)

theorem quoted_nul (input : CString) : 0 ∉ quoted input := by
  have hescaped : 0 ∉ escaped input := by
    intro hmem
    obtain ⟨b, -, hb⟩ := List.mem_flatMap.mp hmem
    exact escapeByte_nul b hb
  simp only [quoted, List.mem_cons, List.mem_append, List.not_mem_nil, or_false, not_or]
  exact ⟨by decide, hescaped, by decide⟩

theorem decimal_nul (n : ℤ) : 0 ∉ decimal n := (number_repr n).nul

theorem formatG_nul {d : Extended} (precision : ℕ) (hnan : ¬ d.isNan = true) (hinf : ¬ d.isInf = true) :
    0 ∉ bytes (formatG precision d) := by
  cases d with
  | finite s e =>
    intro hmem
    exact absurd (numeric_formatG precision s e 0 hmem) (by decide)
  | infinite negative => cases negative <;> exact absurd rfl hinf
  | nan => exact absurd rfl hnan

theorem numberText_nul (valueint : Int32) (valuedouble : Double) : 0 ∉ numberText valueint valuedouble := by
  simp only [numberText]
  split_ifs with hspecial
  · decide
  · exact decimal_nul _
  all_goals
    obtain ⟨hnan, hinf⟩ := not_or.mp hspecial
    exact formatG_nul _ hnan hinf

theorem spaced_nul {format : Bool} {space : List UInt8} (h : 0 ∉ space) : 0 ∉ spaced format space := by
  cases format with
  | false => exact List.not_mem_nil
  | true => exact h

theorem between_nul {more : Bool} {comma : List UInt8} (h : 0 ∉ comma) : 0 ∉ between more comma := by
  cases more with
  | false => exact List.not_mem_nil
  | true => exact h

theorem tabs_nul (n : ℕ) : 0 ∉ List.replicate n TAB := by
  intro hmem
  exact absurd (List.eq_of_mem_replicate hmem) (by decide)

mutual

theorem render_nul (format : Bool) (depth : ℕ) : ∀ item, 0 ∉ render format depth item
  | .null => by
    rw [render]
    decide
  | .false => by
    rw [render]
    decide
  | .true => by
    rw [render]
    decide
  | .number valueint valuedouble => numberText_nul _ _
  | .string valuestring => quoted_nul _
  | .raw valuestring => not_mem_cString _
  | .array child => by
    have hchild := renderElements_nul format (depth + 1) child
    simp only [render, List.mem_cons, List.mem_append, List.not_mem_nil, or_false, not_or]
    exact ⟨by decide, hchild, by decide⟩
  | .object child => by
    have hchild := renderMembers_nul format (depth + 1) child
    simp only [render, List.mem_cons, List.mem_append, List.not_mem_nil, or_false, not_or]
    exact ⟨by decide, ⟨⟨spaced_nul (by decide), hchild⟩, spaced_nul (tabs_nul depth)⟩, by decide⟩

theorem renderElements_nul (format : Bool) (depth : ℕ) : ∀ child, 0 ∉ renderElements format depth child
  | [] => List.not_mem_nil
  | item :: rest => by
    have hspace : 0 ∉ COMMA :: spaced format [32] :=
      List.not_mem_cons_of_ne_of_not_mem (by decide) (spaced_nul (by decide))
    simp only [renderElements, List.mem_append, not_or]
    exact ⟨render_nul format depth item, between_nul hspace, renderElements_nul format depth rest⟩

theorem renderMembers_nul (format : Bool) (depth : ℕ) : ∀ child, 0 ∉ renderMembers format depth child
  | [] => List.not_mem_nil
  | (name, item) :: rest => by
    simp only [renderMembers, List.mem_append, List.mem_cons, not_or]
    exact ⟨spaced_nul (tabs_nul depth), quoted_nul _, ⟨by decide, spaced_nul (by decide)⟩,
      render_nul format depth item, ⟨between_nul (by decide), spaced_nul (by decide)⟩,
      renderMembers_nul format depth rest⟩

end

theorem length_int (valueint : Int32) : (decimal valueint.toInt).length ≤ 10 + 1 := by
  have hlo := valueint.le_toInt
  have hhi := valueint.toInt_lt
  apply length_decimal <;> omega

theorem length_bytes_formatG (precision : ℕ) (valuedouble : Double) (hlo : 4 ≤ precision) (hhi : precision ≤ 17) :
    (bytes (formatG precision valuedouble.value)).length ≤ 25 := by
  rw [length_bytes]
  exact (length_formatG valuedouble hlo).trans (Nat.add_le_add_right hhi 8)

theorem sprintf_eq {text : List UInt8} (h : text.length ≤ 25) : sprintf text = pure text :=
  if_pos (Nat.lt_succ_of_le h)

theorem pure_bind {α β : Type} (a : α) (f : α → Print β) : (pure a >>= f) = f a := rfl

theorem printNumber_eq (valueint : Int32) (valuedouble : Double) :
    (numberText valueint valuedouble).length ≤ 25 ∧ printNumber valueint valuedouble = (do
      ensure ((numberText valueint valuedouble).length + 1)
      put 0 (numberText valueint valuedouble ++ [0])
      modify (PrintBuffer.advance (numberText valueint valuedouble).length)) := by
  have hint := length_int valueint
  have hfifteen := length_bytes_formatG 15 valuedouble (by decide) (by decide)
  have hseventeen := length_bytes_formatG 17 valuedouble (by decide) (by decide)
  have hshort : (numberText valueint valuedouble).length ≤ 25 := by
    simp only [numberText]
    split_ifs
    · decide
    · omega
    · exact hfifteen
    · exact hseventeen
  refine ⟨hshort, ?_⟩
  have hfail : ¬ 25 < (numberText valueint valuedouble).length := Nat.not_lt.mpr hshort
  simp only [printNumber, numberText] at hfail ⊢
  split_ifs at hfail ⊢ with hspecial hequal hrecovers
  · rw [sprintf_eq (by decide), pure_bind, if_neg hfail]
  · rw [sprintf_eq (by omega), pure_bind, if_neg hfail]
  · rw [sprintf_eq hfifteen, pure_bind, if_pos hrecovers, pure_bind, if_neg hfail]
  · rw [sprintf_eq hfifteen, pure_bind, if_neg hrecovers, sprintf_eq hseventeen, pure_bind, if_neg hfail]

section Meets

variable {fr : Frame} {depth needed i : ℕ} {text t bytes : List UInt8} {p p' : PrintBuffer} {sure : Prop}
  {F : PrintBuffer → Prop} {α : Type} {f : Unit → Print α} {Q : α → PrintBuffer → Prop}

def Roomy (fr : Frame) (text t : List UInt8) : Prop := ((text ++ t).length : ℤ) + 2 ≤ fr.capacity

def Printed (fr : Frame) (depth : ℕ) (text t : List UInt8) (p : PrintBuffer) : Prop :=
  ∃ front back, t = front ++ back ∧ At fr depth (text ++ front) (back ++ [0]) (back.length + 1) p

theorem At.printed (h : At fr depth text (t ++ [0]) needed p) (hlt : t.length < needed) : Printed fr depth text t p :=
  ⟨[], t, rfl, by rw [List.append_nil]; exact h.less hlt⟩

theorem ensure_then (h : Ready fr depth text p) (needed : ℕ)
    (hsure : sure → (text.length : ℤ) + needed + 1 ≤ fr.capacity)
    (hok : ∀ p', At fr depth text [] needed p' → Meets (f ()) p' (Fails fr sure) Q) :
    Meets (ensure needed >>= f) p (Fails fr sure) Q :=
  (ensure_meets h needed).bind (fun _ hfail => hfail.mono fun _ => hsure) fun _ p' hat => hok p' hat

theorem put_then (h : At fr depth text t needed p) (hi : i = t.length) (hle : i + bytes.length ≤ needed + 1)
    (hok : ∀ p', At fr depth text (t ++ bytes) needed p' → Meets (f ()) p' F Q) :
    Meets (put i bytes >>= f) p F Q :=
  (put_meets (F := F) h hi hle).bind (fun _ hfail => hfail) fun _ p' hat => hok p' hat

theorem write_then (h : Ready fr depth text p) (hsure : sure → (text.length : ℤ) + needed + 1 ≤ fr.capacity)
    (hle : bytes.length ≤ needed + 1)
    (hok : ∀ p', At fr depth text bytes needed p' → Meets (f ()) p' (Fails fr sure) Q) :
    Meets (ensure needed >>= fun _ => put 0 bytes >>= f) p (Fails fr sure) Q := by
  apply ensure_then h needed hsure
  intro p₁ h₁
  have hroom : 0 + bytes.length ≤ needed + 1 := by omega
  exact put_then h₁ rfl hroom hok

theorem spaced_then (h : At fr depth text t needed p) {format : Bool} (hi : i = t.length)
    (hle : i + bytes.length ≤ needed + 1)
    (hok : ∀ p', At fr depth text (t ++ spaced format bytes) needed p' → Meets (f ()) p' F Q) :
    Meets (if format = true then put i bytes >>= f else f ()) p F Q := by
  cases format with
  | false => exact hok p (by rw [spaced, if_neg Bool.false_ne_true, List.append_nil]; exact h)
  | true => exact put_then h hi hle hok

theorem At.skip (h : At fr depth text t needed p) (hi : i = t.length) (hle : i ≤ needed) :
    At fr depth (text ++ t) [] (needed - i) (p.advance i) := by
  rw [← List.append_nil t] at h
  exact h.advance hi hle

theorem indent_then (h : Ready fr depth text p) {format : Bool}
    (hsure : sure → (text.length : ℤ) + (spaced format (List.replicate depth TAB)).length + 1 ≤ fr.capacity)
    (hok : ∀ p', Ready fr depth (text ++ spaced format (List.replicate depth TAB)) p' →
      Meets (f ()) p' (Fails fr sure) Q) :
    Meets (if format = true then
        ensure depth >>= fun _ => put 0 (List.replicate depth TAB) >>= fun _ => modify (PrintBuffer.advance depth) >>= f
      else f ()) p (Fails fr sure) Q := by
  cases format with
  | false => exact hok p (by rw [spaced, if_neg Bool.false_ne_true, List.append_nil]; exact h)
  | true =>
    rw [spaced, if_pos rfl] at hok
    apply write_then h
    · rwa [spaced, if_pos rfl, List.length_replicate] at hsure
    · rw [List.length_replicate]
      exact Nat.le_succ depth
    intro p₁ h₁
    rw [meets_bind, meets_modify]
    exact hok _ (h₁.skip List.length_replicate.symm (Nat.le_refl _)).ready

theorem updateOffset_meets (h : Printed fr depth text t p) (hnul : 0 ∉ t) :
    Meets updateOffset p F fun _ p' => At fr depth (text ++ t) [0] 0 p' := by
  obtain ⟨front, back, rfl, hat⟩ := h
  obtain ⟨block, hbuffer, ⟨rest, rfl⟩, hlt⟩ := hat.block
  have hdrop : (text ++ front ++ (back ++ [0]) ++ rest).drop p.offset = back ++ (0 :: rest) := by
    rw [hat.offset, List.append_assoc, List.drop_left, List.append_assoc]
    rfl
  have hback : 0 ∉ back := fun hmem => hnul (List.mem_append_right front hmem)
  have hmem : (0 : UInt8) ∈ back ++ 0 :: rest := List.mem_append_right back List.mem_cons_self
  have hcut : cString (back ++ 0 :: rest) = back := by
    rw [cString_append hback, cString, List.takeWhile_cons_of_neg (by decide), List.append_nil]
  simp only [Meets, updateOffset, hbuffer, hdrop, hmem, if_true, hcut]
  have hadvance := (hat.less (Nat.le_succ _)).advance (n := back.length) rfl (Nat.le_refl _)
  rwa [Nat.sub_self, List.append_assoc] at hadvance

theorem putEscaped_meets (input : CString) (h : At fr depth text t needed p) (hi : i = t.length)
    (hle : i + (escaped input).length ≤ needed) :
    Meets (putEscaped i input) p F fun _ p' => At fr depth text (t ++ escaped input) needed p' := by
  induction input generalizing i t p with
  | nil =>
    rw [escaped, List.flatMap_nil, List.append_nil]
    exact h
  | cons b rest ih =>
    have hcons : escaped (b :: rest) = escapeByte b ++ escaped rest := List.flatMap_cons
    rw [hcons, List.length_append] at hle
    rw [hcons, ← List.append_assoc]
    by_cases hplain : 31 < b ∧ b ≠ QUOTE ∧ b ≠ BACKSLASH
    · rw [escapeByte_plain hplain.1 hplain.2.1 hplain.2.2] at hle ⊢
      rw [List.length_singleton] at hle
      simp only [putEscaped, hplain, and_self, if_true, ne_eq, not_false_eq_true]
      apply put_then h hi
      · rw [List.length_singleton]
        omega
      · intro p₁ h₁
        exact ih h₁ (by rw [hi, List.length_append]; rfl) (by omega)
    · rw [putEscaped, if_neg hplain]
      apply put_then h hi
      · rw [List.length_singleton]
        have := length_escapeByte b
        omega
      intro p₁ h₁
      have hi₁ : i + 1 = (t ++ [BACKSLASH]).length := by rw [hi, List.length_append]; rfl
      cases hletter : escapeLetter b with
      | some letter =>
        have hbyte : escapeByte b = [BACKSLASH] ++ [letter] := by rw [escapeByte, hletter]; rfl
        rw [hbyte] at hle ⊢
        rw [← List.append_assoc]
        apply put_then h₁ hi₁
        · simp only [List.length_append, List.length_singleton] at hle ⊢
          omega
        · intro p₂ h₂
          apply ih h₂
          · rw [List.length_append, ← hi₁]
            rfl
          · simp only [List.length_append, List.length_singleton] at hle
            omega
      | none =>
        have hbyte : escapeByte b = [BACKSLASH] ++ unicodeEscape b := (escapeByte_unicode hplain hletter).2
        have hlength : (unicodeEscape b).length = 5 := rfl
        rw [hbyte] at hle ⊢
        simp only [List.length_append, List.length_singleton, hlength] at hle
        rw [← List.append_assoc]
        apply put_then h₁ hi₁
        · rw [List.length_append, hlength, List.length_singleton]
          omega
        · intro p₂ h₂
          rw [← List.append_assoc] at h₂
          apply ih h₂.cut
          · rw [List.length_append, ← hi₁, hlength]
          · omega

theorem length_quoted (input : CString) : (quoted input).length = (escaped input).length + 2 := by
  rw [quoted, List.length_cons, List.length_append, List.length_singleton]

theorem printStringPtr_meets (input : CString) (h : Ready fr depth text p) :
    Meets (printStringPtr input) p (Fails fr (Roomy fr text (quoted input))) fun _ p' =>
      Printed fr depth text (quoted input) p' := by
  have hlength := length_escaped input
  have hquoted := length_quoted input
  have hthree : ([QUOTE] ++ escaped input).length = input.length + escapeCharacters input + 1 := by
    rw [List.length_append, List.length_singleton, hlength]
    omega
  have hfour : ([QUOTE] ++ escaped input ++ [QUOTE]).length = input.length + escapeCharacters input + 2 := by
    rw [List.length_append, hthree, List.length_singleton]
  have hend {p₃ : PrintBuffer}
      (h₃ : At fr depth text ([QUOTE] ++ escaped input) (input.length + escapeCharacters input + 3) p₃) :
      Meets (do put (input.length + escapeCharacters input + 1) [QUOTE]
                put (input.length + escapeCharacters input + 2) [0]) p₃
        (Fails fr (Roomy fr text (quoted input))) fun _ p' => Printed fr depth text (quoted input) p' := by
    apply put_then h₃ hthree.symm (by rw [List.length_singleton]; omega)
    intro p₄ h₄
    apply (put_meets h₄ hfour.symm (by rw [List.length_singleton]; omega)).mono fun _ hfail => hfail
    intro _ p₅ h₅
    exact At.printed h₅ (by rw [hquoted, hlength]; omega)
  unfold printStringPtr
  apply ensure_then h
  · unfold Roomy
    rw [List.length_append, hquoted]
    push_cast
    omega
  intro p₁ h₁
  apply put_then h₁ rfl (Nat.le_add_left 1 _)
  intro p₂ h₂
  apply meets_ite.mpr
  constructor
  · intro hzero
    rw [escaped_plain hzero] at hend
    have hroom : 1 + input.length ≤ input.length + escapeCharacters input + 3 + 1 := by omega
    exact put_then h₂ rfl hroom fun _ h₃ => hend h₃
  · intro _
    have hroom : 1 + (escaped input).length ≤ input.length + escapeCharacters input + 3 := by omega
    exact (putEscaped_meets input h₂ rfl hroom).bind (fun _ hfail => hfail) fun _ _ h₃ => hend h₃

theorem literal_meets (name : CString) (h : Ready fr depth text p) :
    Meets (do ensure (name.length + 1); put 0 (name ++ [0])) p (Fails fr (Roomy fr text name)) fun _ p' =>
      Printed fr depth text name p' := by
  apply ensure_then h
  · simp only [Roomy, List.length_append]
    omega
  intro p₁ h₁
  have hroom : 0 + (name ++ [0]).length ≤ name.length + 1 + 1 := by
    rw [List.length_append, List.length_singleton]
    omega
  apply (put_meets h₁ rfl hroom).mono fun _ hfail => hfail
  intro _ p₂ h₂
  exact At.printed h₂ (Nat.lt_succ_self _)

theorem printNumber_meets (valueint : Int32) (valuedouble : Double) (h : Ready fr depth text p) :
    Meets (printNumber valueint valuedouble) p (Fails fr (Roomy fr text (numberText valueint valuedouble)))
      fun _ p' => Printed fr depth text (numberText valueint valuedouble) p' := by
  rw [(printNumber_eq valueint valuedouble).2]
  apply write_then h
  · simp only [Roomy, List.length_append]
    omega
  · rw [List.length_append, List.length_singleton]
    omega
  intro p₁ h₁
  have hadvance := h₁.advance rfl (Nat.le_succ _)
  exact ⟨numberText valueint valuedouble, [], (List.append_nil _).symm, hadvance.less (by simp)⟩

theorem length_spaced (format : Bool) (b : UInt8) : (spaced format [b]).length = if format then 1 else 0 := by
  cases format <;> rfl

mutual

theorem printValue_meets : ∀ (item : CJson) {depth : ℕ} {text : List UInt8} {p : PrintBuffer},
    Ready fr depth text p → depth ≤ CJSON_NESTING_LIMIT →
      Meets (printValue item) p
        (Fails fr (depth + levels item ≤ CJSON_NESTING_LIMIT ∧ Roomy fr text (render fr.format depth item)))
        fun _ p' => depth + levels item ≤ CJSON_NESTING_LIMIT ∧ Printed fr depth text (render fr.format depth item) p'
  | .null, _, _, _, h, hdepth =>
    (literal_meets (ascii ['n', 'u', 'l', 'l']) h).mono (fun _ hfail => hfail.mono fun _ hsure => hsure.2)
      fun _ _ hprinted => ⟨hdepth, hprinted⟩
  | .false, _, _, _, h, hdepth =>
    (literal_meets (ascii ['f', 'a', 'l', 's', 'e']) h).mono (fun _ hfail => hfail.mono fun _ hsure => hsure.2)
      fun _ _ hprinted => ⟨hdepth, hprinted⟩
  | .true, _, _, _, h, hdepth =>
    (literal_meets (ascii ['t', 'r', 'u', 'e']) h).mono (fun _ hfail => hfail.mono fun _ hsure => hsure.2)
      fun _ _ hprinted => ⟨hdepth, hprinted⟩
  | .number valueint valuedouble, _, _, _, h, hdepth =>
    (printNumber_meets valueint valuedouble h).mono (fun _ hfail => hfail.mono fun _ hsure => hsure.2)
      fun _ _ hprinted => ⟨hdepth, hprinted⟩
  | .string valuestring, _, _, _, h, hdepth =>
    (printStringPtr_meets (cString valuestring) h).mono (fun _ hfail => hfail.mono fun _ hsure => hsure.2)
      fun _ _ hprinted => ⟨hdepth, hprinted⟩
  | .raw valuestring, _, _, _, h, hdepth =>
    (literal_meets (cString valuestring) h).mono (fun _ hfail => hfail.mono fun _ hsure => hsure.2)
      fun _ _ hprinted => ⟨hdepth, hprinted⟩
  | .array child, depth, text, p, h, hdepth => by
    rw [printValue, meets_bind, meets_get, meets_ite, h.depth]
    constructor
    · intro hdeep
      refine ⟨h.lost, ?_⟩
      rintro ⟨-, hsure, -⟩
      rw [levels] at hsure
      omega
    intro hshallow
    apply write_then h
    · simp only [Roomy, render, List.length_append, List.length_cons]
      omega
    · exact Nat.le_succ 1
    intro p₁ h₁
    rw [meets_bind, meets_modify, meets_bind, meets_modify]
    have h₂ := (h₁.skip rfl (Nat.le_refl _)).enter
    apply (printElements_meets child h₂.ready (by omega)).bind
    · intro _ hfail
      apply hfail.mono
      simp only [Roomy, render, levels, List.length_append, List.length_cons, List.length_nil]
      omega
    rintro _ p₃ ⟨hlevels, h₃⟩
    apply write_then h₃
    · simp only [Roomy, render, List.length_append, List.length_cons, List.length_nil]
      omega
    · exact Nat.le_succ 2
    intro p₄ h₄
    refine ⟨by rw [levels]; omega, LBRACKET :: renderElements fr.format (depth + 1) child, [RBRACKET], rfl, ?_⟩
    rw [List.append_assoc] at h₄
    exact h₄.leave.less (Nat.le_refl 2)
  | .object child, depth, text, p, h, hdepth => by
    have hlength : (if fr.format = true then 2 else 1) = ([LBRACE] ++ spaced fr.format [NEWLINE]).length := by
      rw [List.length_append, length_spaced]
      split <;> rfl
    have htabs : List.replicate (if fr.format = true then depth + 1 - 1 else 0) TAB =
        spaced fr.format (List.replicate depth TAB) := by
      rw [spaced]
      split <;> rfl
    have hlevel : (if fr.format = true then depth + 1 + 1 else 2) =
        (spaced fr.format (List.replicate depth TAB)).length + 2 := by
      rw [spaced]
      split
      · rw [List.length_replicate]
      · rfl
    rw [printValue, meets_bind, meets_get, meets_ite, h.depth, h.format, hlength]
    constructor
    · intro hdeep
      refine ⟨h.lost, ?_⟩
      rintro ⟨-, hsure, -⟩
      rw [levels] at hsure
      omega
    intro hshallow
    apply write_then h
    · simp only [Roomy, render, List.length_append, List.length_cons, List.length_nil]
      omega
    · exact Nat.le_add_left _ _
    intro p₁ h₁
    rw [meets_bind, meets_modify]
    apply spaced_then h₁.enter rfl (Nat.le_add_left _ _)
    intro p₂ h₂
    rw [meets_bind, meets_modify]
    have h₃ := h₂.skip rfl (Nat.le_succ _)
    apply (printMembers_meets child h₃.ready (by omega)).bind
    · intro _ hfail
      apply hfail.mono
      simp only [Roomy, render, levels, List.length_append, List.length_cons, List.length_nil]
      omega
    rintro _ p₄ ⟨hlevels, h₄⟩
    rw [meets_bind, meets_get, h₄.format, h₄.depth, hlevel]
    apply write_then h₄
    · simp only [Roomy, render, List.length_append, List.length_cons, List.length_nil]
      omega
    · rw [htabs]
      omega
    intro p₅ h₅
    rw [htabs] at h₅
    have hcount : (if fr.format = true then depth + 1 - 1 else 0) =
        (spaced fr.format (List.replicate depth TAB)).length := by
      rw [← htabs, List.length_replicate]
    rw [hcount]
    apply put_then h₅ rfl (Nat.le_succ _)
    intro p₆ h₆
    refine ⟨by rw [levels]; omega, LBRACE :: (spaced fr.format [NEWLINE] ++ renderMembers fr.format (depth + 1) child),
      spaced fr.format (List.replicate depth TAB) ++ [RBRACE], ?_, ?_⟩
    · simp only [render, List.cons_append, List.append_assoc]
    · rw [List.append_assoc] at h₆
      rw [List.append_assoc (spaced fr.format (List.replicate depth TAB))]
      apply h₆.leave.less
      rw [List.length_append, List.length_singleton]

theorem printElements_meets : ∀ (child : List CJson) {depth : ℕ} {text : List UInt8} {p : PrintBuffer},
    Ready fr depth text p → depth ≤ CJSON_NESTING_LIMIT →
      Meets (printElements child) p
        (Fails fr (depth + levelsElements child ≤ CJSON_NESTING_LIMIT ∧
          Roomy fr text (renderElements fr.format depth child)))
        fun _ p' => depth + levelsElements child ≤ CJSON_NESTING_LIMIT ∧
          Ready fr depth (text ++ renderElements fr.format depth child) p'
  | [], _, _, _, h, hdepth => by
    rw [renderElements, List.append_nil]
    exact ⟨hdepth, h⟩
  | item :: rest, depth, text, p, h, hdepth => by
    rw [printElements]
    apply (printValue_meets item h hdepth).bind
    · intro _ hfail
      apply hfail.mono
      simp only [Roomy, renderElements, levelsElements, List.length_append]
      omega
    rintro _ p₁ ⟨hlevels, h₁⟩
    apply (updateOffset_meets (F := fun _ => False) h₁ (render_nul _ _ item)).bind fun _ hfail => hfail.elim
    intro _ p₂ h₂
    have hrest (gap : List UInt8) {p₃ : PrintBuffer}
        (hgap : between (!rest.isEmpty) (COMMA :: spaced fr.format [32]) = gap)
        (h₃ : Ready fr depth (text ++ render fr.format depth item ++ gap) p₃) :
        Meets (printElements rest) p₃
          (Fails fr (depth + levelsElements (item :: rest) ≤ CJSON_NESTING_LIMIT ∧
            Roomy fr text (renderElements fr.format depth (item :: rest))))
          fun _ p' => depth + levelsElements (item :: rest) ≤ CJSON_NESTING_LIMIT ∧
            Ready fr depth (text ++ renderElements fr.format depth (item :: rest)) p' := by
      apply (printElements_meets rest h₃ hdepth).mono
      · intro _ hfail
        apply hfail.mono
        simp only [Roomy, renderElements, levelsElements, List.length_append, hgap]
        omega
      · rintro _ p₄ ⟨hlevels', h₄⟩
        refine ⟨by rw [levelsElements]; omega, ?_⟩
        rw [renderElements, hgap]
        simpa only [List.append_assoc] using h₄
    apply meets_ite.mpr
    constructor
    · intro hmore
      rw [hmore, between, if_pos rfl] at hrest
      rw [meets_bind, meets_get, h₂.ready.format]
      apply write_then h₂.ready
      · simp only [Roomy, renderElements, hmore, between, if_true, List.length_append, List.length_cons, length_spaced]
        split <;> omega
      · exact Nat.le_add_left _ _
      intro p₃ h₃
      have hlength : (if fr.format = true then 2 else 1) = (COMMA :: spaced fr.format [32]).length := by
        rw [List.length_cons, length_spaced]
        split <;> rfl
      rw [hlength] at h₃ ⊢
      apply spaced_then h₃ rfl (Nat.le_add_left _ _)
      intro p₄ h₄
      apply put_then h₄ rfl (Nat.le_succ _)
      intro p₅ h₅
      rw [meets_bind, meets_modify]
      exact hrest _ rfl (h₅.cut.skip rfl (Nat.le_succ _)).ready
    · intro hend
      apply hrest [] (if_neg hend)
      rw [List.append_nil]
      exact h₂.ready

theorem printMembers_meets : ∀ (child : List (CString × CJson)) {depth : ℕ} {text : List UInt8} {p : PrintBuffer},
    Ready fr depth text p → depth ≤ CJSON_NESTING_LIMIT →
      Meets (printMembers child) p
        (Fails fr (depth + levelsMembers child ≤ CJSON_NESTING_LIMIT ∧
          Roomy fr text (renderMembers fr.format depth child)))
        fun _ p' => depth + levelsMembers child ≤ CJSON_NESTING_LIMIT ∧
          Ready fr depth (text ++ renderMembers fr.format depth child) p'
  | [], _, _, _, h, hdepth => by
    rw [renderMembers, List.append_nil]
    exact ⟨hdepth, h⟩
  | (name, item) :: rest, depth, text, p, h, hdepth => by
    have hcolon : (if fr.format = true then 2 else 1) = ([COLON] ++ spaced fr.format [TAB]).length := by
      rw [List.length_append, length_spaced]
      split <;> rfl
    have hcomma : (if rest.isEmpty = true then [] else [COMMA]) = between (!rest.isEmpty) [COMMA] := by
      cases rest <;> rfl
    have hline : (if fr.format = true then [NEWLINE] else []) = spaced fr.format [NEWLINE] := rfl
    rw [printMembers, meets_bind, meets_get, h.format, h.depth, hcolon, hcomma, hline]
    apply indent_then h
    · simp only [Roomy, renderMembers, List.length_append, List.length_cons]
      omega
    intro p₁ h₁
    apply (printStringPtr_meets (cString name) h₁).bind
    · intro _ hfail
      apply hfail.mono
      simp only [Roomy, renderMembers, List.length_append, List.length_cons]
      omega
    intro _ p₂ h₂
    apply (updateOffset_meets (F := fun _ => False) h₂ (quoted_nul _)).bind fun _ hfail => hfail.elim
    intro _ p₃ h₃
    apply write_then h₃.ready
    · simp only [Roomy, renderMembers, List.length_append, List.length_cons, List.length_nil]
      omega
    · exact Nat.le_succ_of_le (Nat.le_add_left _ _)
    intro p₄ h₄
    apply spaced_then h₄ rfl
    · simp only [List.length_append, List.length_singleton]
      omega
    intro p₅ h₅
    rw [meets_bind, meets_modify]
    apply (printValue_meets item (h₅.skip rfl (Nat.le_refl _)).ready hdepth).bind
    · intro _ hfail
      apply hfail.mono
      simp only [Roomy, renderMembers, levelsMembers, List.length_append, List.length_cons, List.length_nil]
      omega
    rintro _ p₆ ⟨hlevels, h₆⟩
    apply (updateOffset_meets (F := fun _ => False) h₆ (render_nul _ _ item)).bind fun _ hfail => hfail.elim
    intro _ p₇ h₇
    apply write_then h₇.ready
    · simp only [Roomy, renderMembers, List.length_append, List.length_cons, List.length_nil]
      omega
    · omega
    intro p₈ h₈
    apply put_then h₈ rfl
    · omega
    intro p₉ h₉
    apply put_then h₉ List.length_append.symm
    · rw [List.length_singleton]
      omega
    intro p₁₀ h₁₀
    rw [meets_bind, meets_modify]
    have h₁₁ := h₁₀.cut.skip (by rw [List.length_append, Nat.add_comm]) (Nat.le_succ _)
    apply (printMembers_meets rest h₁₁.ready hdepth).mono
    · intro _ hfail
      apply hfail.mono
      simp only [Roomy, renderMembers, levelsMembers, List.length_append, List.length_cons, List.length_nil]
      omega
    · rintro _ p₁₂ ⟨hlevels', h₁₂⟩
      refine ⟨by rw [levelsMembers]; omega, ?_⟩
      simpa only [renderMembers, List.append_assoc, List.cons_append, List.nil_append] using h₁₂

end

end Meets

end EmbeddedLinuxTraining.CJSON
