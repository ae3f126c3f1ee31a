import EmbeddedLinuxTraining.CJSON.Printing
import EmbeddedLinuxTraining.CJSON.Standard

namespace EmbeddedLinuxTraining.CJSON

open Library Library.Ascii Library.Binary64 Library.Json Telemetry

mutual

/-- An item holds the value as it is: the integers are of type `int`, and no string has a NUL in it. -/
def Whole : Json → Prop
  | .null => True
  | .bool _ => True
  | .number m e => e = 0 ∧ INT_MIN ≤ m ∧ m ≤ INT_MAX
  | .string cs => NUL ∉ cs
  | .array js => WholeElements js
  | .object ms => WholeMembers ms

def WholeElements : List Json → Prop
  | [] => True
  | j :: js => Whole j ∧ WholeElements js

def WholeMembers : List (List Char × Json) → Prop
  | [] => True
  | (name, j) :: ms => NUL ∉ name ∧ Whole j ∧ WholeMembers ms

end

mutual

theorem levels_tree : ∀ j, levels (tree j) = nesting j
  | .null => rfl
  | .bool Bool.true => rfl
  | .bool Bool.false => rfl
  | .number _ _ => rfl
  | .string _ => rfl
  | .array js => congrArg (· + 1) (levels_trees js)
  | .object ms => congrArg (· + 1) (levels_namedTrees ms)

theorem levels_trees : ∀ js, levelsElements (trees js) = nestingElements js
  | [] => rfl
  | j :: js => by rw [trees, levelsElements, nestingElements, levels_tree j, levels_trees js]

theorem levels_namedTrees : ∀ ms, levelsMembers (namedTrees ms) = nestingMembers ms
  | [] => rfl
  | (name, j) :: ms => by rw [namedTrees, levelsMembers, nestingMembers, levels_tree j, levels_namedTrees ms]

end

theorem hexDigit_lower {n : ℕ} (hn : n < 16) : hexDigit (lowerHex n) = some n := by
  have hall : ∀ m < 16, hexDigit (lowerHex m) = some m := by decide
  exact hall n hn

theorem unit_of_control {b : UInt8} (hb : b < 32) : Unit16 (BACKSLASH :: unicodeEscape b) b.toNat := by
  have hlt : b.toNat < 32 := hb
  have hunit := Unit16.mk (hexDigit_lower (n := 0) (by decide)) (hexDigit_lower (n := 0) (by decide))
    (hexDigit_lower (n := b.toNat / 16) (by omega)) (hexDigit_lower (n := b.toNat % 16) (by omega))
  have hvalue : ((0 * 16 + 0) * 16 + b.toNat / 16) * 16 + b.toNat % 16 = b.toNat := by omega
  rwa [hvalue] at hunit

theorem escape_of_letter {c : Char} {b letter : UInt8} (hc : c.toNat = b.toNat)
    (h : escapeLetter b = some letter) : Escape [BACKSLASH, letter] c := by
  have hshort {l d : Char} (hmem : (l, d) ∈ shortEscapes) (hb : b.toNat = d.toNat) (hl : bytes [l] = [letter]) :
      Escape [BACKSLASH, letter] c := by
    have hcd : c = d := Char.toNat_inj.mp (hc.trans hb)
    rw [hcd, ← hl]
    exact .short hmem
  unfold escapeLetter at h
  split_ifs at h with h₁ h₂ h₃ h₄ h₅ h₆ h₇ <;> subst b <;> cases h
  · exact hshort (l := '\\') (d := '\\') (by decide) rfl rfl
  · exact hshort (l := '"') (d := '"') (by decide) rfl rfl
  · exact hshort (l := 'b') (d := Char.ofNat 8) (by decide) rfl rfl
  · exact hshort (l := 'f') (d := Char.ofNat 12) (by decide) rfl rfl
  · exact hshort (l := 'n') (d := Char.ofNat 10) (by decide) rfl rfl
  · exact hshort (l := 'r') (d := Char.ofNat 13) (by decide) rfl rfl
  · exact hshort (l := 't') (d := Char.ofNat 9) (by decide) rfl rfl

theorem escaped_clean {input : CString} (h : ∀ b ∈ input, 32 ≤ b.toNat ∧ b ≠ QUOTE ∧ b ≠ BACKSLASH) :
    escaped input = input := by
  induction input with
  | nil => rfl
  | cons b rest ih =>
    obtain ⟨⟨hb, hquote, hback⟩, hrest⟩ := List.forall_mem_cons.mp h
    have hbyte : escapeByte b = [b] := escapeByte_plain hb hquote hback
    rw [escaped, List.flatMap_cons, hbyte]
    exact congrArg (b :: ·) (ih hrest)

theorem str_char {s r : List UInt8} {cs : List Char} (c : Char) (h : Str s cs r) :
    Str (escaped (String.utf8EncodeChar c) ++ s) (c :: cs) r := by
  by_cases hplain : Unescaped c
  · rw [escaped_clean fun b hb => hplain.byte hb]
    exact .char hplain h
  · obtain ⟨b, hb, hspecial⟩ : ∃ b ∈ String.utf8EncodeChar c, ¬ (32 ≤ b.toNat ∧ b ≠ QUOTE ∧ b ≠ BACKSLASH) := by
      by_contra hno
      apply hplain (unescaped_of_bytes _)
      intro b hb
      by_contra hspecial
      exact hno ⟨b, hb, hspecial⟩
    have hlow : b.toNat < 128 := by
      by_contra hhigh
      apply hspecial
      refine ⟨by omega, ?_, ?_⟩ <;> rintro rfl <;> exact hhigh (by decide)
    obtain ⟨hc, hone⟩ := utf8EncodeChar_low hb hlow
    have hbyte : escaped [b] = escapeByte b := List.append_nil _
    rw [hone, hbyte]
    cases hletter : escapeLetter b with
    | some letter =>
      rw [escapeByte, hletter]
      exact .escape (escape_of_letter hc hletter) h
    | none =>
      obtain ⟨hsmall, hunicode⟩ := escapeByte_unicode hspecial hletter
      have hlt : b.toNat < 32 := hsmall
      have hescape := Escape.unit (unit_of_control hsmall) (.inl (by omega))
      rw [← hc, Char.ofNat_toNat] at hescape
      rw [hunicode]
      exact .escape hescape h

theorem str_quoted (cs : List Char) (r : List UInt8) : Str (escaped (octets cs) ++ QUOTE :: r) cs r := by
  induction cs with
  | nil => exact .close r
  | cons c cs ih =>
    have hcons : escaped (octets (c :: cs)) = escaped (String.utf8EncodeChar c) ++ escaped (octets cs) :=
      List.flatMap_append
    rw [hcons, List.append_assoc]
    exact str_char c ih

theorem cString_whole {cs : List Char} (h : NUL ∉ cs) : cString (octets cs) = octets cs := by
  rw [cString_octets, List.takeWhile_eq_self_iff.mpr]
  intro c hc
  apply decide_eq_true
  rintro rfl
  exact h hc

theorem number_whole {m : ℤ} (hlo : INT_MIN ≤ m) (hhi : m ≤ INT_MAX) :
    (valueint (Strtod.decimal m 0)).toInt = m := by
  have hinteger : IsInteger m 0 m := by simp [IsInteger]
  have hmax : INT_MAX = 2147483647 := rfl
  have hmin : INT_MIN = -2147483648 := rfl
  have hcut : max INT_MIN (min INT_MAX m) = m := by omega
  rw [valueint_decimal hinteger, hcut]
  exact Int32.toInt_ofInt_of_le (by omega) (by omega)

theorem numberText_whole {m : ℤ} (hlo : INT_MIN ≤ m) (hhi : m ≤ INT_MAX) :
    numberText (valueint (Strtod.decimal m 0)) (Strtod.decimal m 0) = Telemetry.decimal m := by
  have hinteger : IsInteger m 0 m := by simp [IsInteger]
  have hmax : INT_MAX = 2147483647 := rfl
  have hmin : INT_MIN = -2147483648 := rfl
  obtain ⟨j, hj⟩ | ⟨hbig, -⟩ := Strtod.decimal_cases hinteger
  · have hordinary : ¬ ((Extended.finite (m * (2 ^ j : ℕ)) (-j)).isNan = true ∨
        (Extended.finite (m * (2 ^ j : ℕ)) (-j)).isInf = true) := by
      simp [Extended.isNan, Extended.isInf]
    have hequals : (Extended.finite (m * (2 ^ j : ℕ)) (-j)).equals m = true := by
      simp [Extended.equals, Extended.atLeast, Extended.atMost]
    simp only [numberText, number_whole hlo hhi, hj]
    rw [if_neg hordinary, if_pos hequals]
  · omega

theorem spaced_spaces {format : Bool} {space : List UInt8} (h : ∀ b ∈ space, IsSpace b) :
    ∀ b ∈ spaced format space, IsSpace b := by
  cases format with
  | false =>
    intro b hb
    cases hb
  | true => exact h

theorem space_spaces {b : UInt8} (h : IsSpace b) : ∀ c ∈ [b], IsSpace c := by
  rintro c hc
  rw [List.mem_singleton.mp hc]
  exact h

theorem tabs_spaces (n : ℕ) : ∀ b ∈ List.replicate n TAB, IsSpace b := by
  intro b hb
  rw [List.eq_of_mem_replicate hb]
  decide

mutual

theorem value_render (format : Bool) : ∀ (j : Json), Whole j → ∀ (depth : ℕ) (r : List UInt8),
    Value (render format depth (tree j) ++ r) j r
  | .null, _, _, _ => .null
  | .bool Bool.true, _, _, _ => .true
  | .bool Bool.false, _, _, _ => .false
  | .number m e, h, depth, r => by
    obtain ⟨rfl, hlo, hhi⟩ := h
    rw [tree, render, numberText_whole hlo hhi]
    exact .number (number_repr m)
  | .string cs, h, depth, r => by
    rw [tree, render, cString_whole h, quoted, List.cons_append, List.append_assoc]
    exact .string (str_quoted cs r)
  | .array js, h, depth, r => by
    have hjs := elements_render format js
    rw [tree, render, List.cons_append, List.append_assoc]
    cases js with
    | nil => exact .emptyArray (.done _)
    | cons j js => exact .array (hjs (List.cons_ne_nil _ _) h (depth + 1) (.done _))
  | .object ms, h, depth, r => by
    have hms := members_render format ms
    have hline (s : List UInt8) : Ws (spaced format [NEWLINE] ++ s) s :=
      .of_spaces (spaced_spaces (space_spaces (by decide))) s
    have hclose : Ws (spaced format (List.replicate depth TAB) ++ RBRACE :: r) (RBRACE :: r) :=
      .of_spaces (spaced_spaces (tabs_spaces depth)) _
    rw [tree, render, List.cons_append, List.append_assoc, List.append_assoc, List.append_assoc]
    cases ms with
    | nil => exact .emptyObject ((hline _).trans hclose)
    | cons m ms => exact .object (hms (List.cons_ne_nil _ _) h (depth + 1) (hline _) hclose)

theorem elements_render (format : Bool) : ∀ (js : List Json), js ≠ [] → WholeElements js →
    ∀ (depth : ℕ) {s r : List UInt8}, Ws s (renderElements format depth (trees js) ++ RBRACKET :: r) →
      Elements s js r
  | [], hne, _, _, _, _, _ => absurd rfl hne
  | j :: js, _, ⟨hj, hjs⟩, depth, s, r, hws => by
    have hrest := elements_render format js
    rw [trees, renderElements, List.append_assoc, List.append_assoc] at hws
    have hvalue := value_render format j hj depth
    cases js with
    | nil => exact .last hws (hvalue _) (.done _)
    | cons j' js =>
      apply Elements.cons hws (hvalue _) (.done _)
      apply hrest (List.cons_ne_nil _ _) hjs depth
      exact .of_spaces (spaced_spaces (space_spaces (by decide))) _

theorem members_render (format : Bool) : ∀ (ms : List (List Char × Json)), ms ≠ [] → WholeMembers ms →
    ∀ (depth : ℕ) {s r close : List UInt8}, Ws s (renderMembers format depth (namedTrees ms) ++ close) →
      Ws close (RBRACE :: r) → Members s ms r
  | [], hne, _, _, _, _, _, _, _ => absurd rfl hne
  | (name, j) :: ms, _, ⟨hname, hj, hms⟩, depth, s, r, close, hws, hclose => by
    have hrest := members_render format ms
    have hvalue := value_render format j hj depth
    rw [namedTrees, renderMembers, cString_whole hname, cString_whole hname] at hws
    simp only [quoted, List.cons_append, List.append_assoc] at hws
    have hquote := hws.trans (.of_spaces (spaced_spaces (tabs_spaces depth)) _)
    have htab (u : List UInt8) : Ws (spaced format [TAB] ++ u) u :=
      .of_spaces (spaced_spaces (space_spaces (by decide))) u
    cases ms with
    | nil =>
      apply Members.last hquote (str_quoted name _) (.done _) (htab _) (hvalue _)
      exact (Ws.of_spaces (spaced_spaces (space_spaces (by decide))) close).trans hclose
    | cons m ms =>
      apply Members.cons hquote (str_quoted name _) (.done _) (htab _) (hvalue _) (.done _)
      apply hrest (List.cons_ne_nil _ _) hms depth _ hclose
      exact .of_spaces (spaced_spaces (space_spaces (by decide))) _

end

theorem text_render (format : Bool) {j : Json} (h : Whole j) : Text (render format 0 (tree j)) j := by
  have hvalue := value_render format j h 0 []
  rw [List.append_nil] at hvalue
  exact ⟨_, _, .done _, hvalue, .done _⟩

theorem print_parse (hooks : PrintHooks) (hprint : ∀ n, hooks.grants n = true) (grants : ℕ → Bool)
    (hparse : ∀ n, grants n = true) (format : Bool) (j : Json) (hwhole : Whole j)
    (hdepth : nesting j ≤ CJSON_NESTING_LIMIT)
    (hlength : ((render format 0 (tree j)).length : ℤ) + 2 ≤ INT_MAX) (requireNullTerminated : Bool) :
    ∃ r text rest, print hooks format (tree j) = some r ∧ r.printed = some (text ++ [0]) ∧ Text text j ∧
      cJSONParseWithOpts grants text requireNullTerminated = some ⟨.ok (tree j), rest⟩ := by
  obtain ⟨r, hr, htidy⟩ := print_tidy hooks format (tree j)
  have htext := text_render format hwhole
  obtain ⟨rest, hrest⟩ := parse_text hparse (.inl rfl) htext hdepth requireNullTerminated
  refine ⟨r, render format 0 (tree j), rest, hr, ?_, htext, hrest⟩
  cases hprinted : r.printed with
  | none =>
    obtain ⟨-, ⟨n, hn⟩ | hdeep | hlong⟩ := htidy.refused hprinted
    · rw [hprint n] at hn
      cases hn
    · rw [levels_tree] at hdeep
      omega
    · omega
  | some block => rw [(htidy.printed block hprinted).1]

def NESTED : Json := .object [(['a'], .array [.number (-1) 0, .string ['"']])]

theorem print_parse_nested :
    ∃ r text rest, print ⟨⟨fun _ => true, 0, 0⟩, true, fun _ _ => 0⟩ true (tree NESTED) = some r ∧
      r.printed = some (text ++ [0]) ∧ Text text NESTED ∧
      cJSONParseWithOpts (fun _ => true) text true = some ⟨.ok (tree NESTED), rest⟩ := by
  have hwhole : Whole NESTED := by simp [NESTED, Whole, WholeMembers, WholeElements, INT_MIN, INT_MAX, NUL]
  have hlength : ((render true 0 (tree NESTED)).length : ℤ) + 2 ≤ INT_MAX := by decide
  exact print_parse _ (fun _ => rfl) _ (fun _ => rfl) true NESTED hwhole (by decide) hlength true

end EmbeddedLinuxTraining.CJSON
