import EmbeddedLinuxTraining.Library.JsonObject
import EmbeddedLinuxTraining.Telemetry.Message

namespace EmbeddedLinuxTraining.Telemetry

open Library Library.Ascii Library.Json

def TYPE_NAME : List Char := ['t', 'y', 'p', 'e']

def TELEMETRY : List Char := ['t', 'e', 'l', 'e', 'm', 'e', 't', 'r', 'y']

def ID_NAME : List Char := ['i', 'd']

def TS_NAME : List Char := ['t', 's']

def VERSION_NAME : List Char := ['s', 'w', '_', 'v', 'e', 'r', 's', 'i', 'o', 'n']

def PERIOD_NAME : List Char := ['p', 'e', 'r', 'i', 'o', 'd']

def formatted (sample : Sample) : List UInt8 := snprintf 256 (telemetryMessage sample)

def Encodes (message : List UInt8) (swVersion : CString) (period : ℤ) : Prop :=
  ∃ text ms, message = text ++ [NEWLINE] ∧ NEWLINE ∉ text ∧ Json.Text text (.object ms) ∧
    (∃ cs, (Json.object ms).member VERSION_NAME = some (.string cs) ∧ octets cs = swVersion) ∧
    ∃ m e, (Json.object ms).member PERIOD_NAME = some (.number m e) ∧ Json.IsInteger m e period

structure Clean (swVersion : CString) : Prop where
  utf8 : ∃ cs, swVersion = octets cs
  byte : ∀ b ∈ swVersion, 32 ≤ b.toNat ∧ b ≠ QUOTE ∧ b ≠ BACKSLASH

def periodText (period : ℤ) : List UInt8 :=
  bytes PERIOD_NAME ++ QUOTE :: COLON :: (bytes period.repr.toList ++ [RBRACE])

def versionText (sample : Sample) : List UInt8 :=
  QUOTE :: (bytes VERSION_NAME ++ QUOTE :: COLON :: QUOTE ::
    (sample.swVersion ++ QUOTE :: COMMA :: QUOTE :: periodText sample.period.toInt))

def tsText (sample : Sample) : List UInt8 :=
  QUOTE :: (bytes TS_NAME ++ QUOTE :: COLON :: (bytes sample.ts.repr.toList ++ COMMA :: versionText sample))

def idText (sample : Sample) : List UInt8 :=
  QUOTE :: (bytes ID_NAME ++ QUOTE :: COLON ::
    (bytes (sample.id.toNat : ℤ).repr.toList ++ COMMA :: tsText sample))

def objectText (sample : Sample) : List UInt8 :=
  LBRACE :: QUOTE :: (bytes TYPE_NAME ++ QUOTE :: COLON :: QUOTE ::
    (bytes TELEMETRY ++ QUOTE :: COMMA :: idText sample))

theorem telemetryMessage_eq (sample : Sample) : telemetryMessage sample = objectText sample ++ [NEWLINE] := by
  have hid : ID_PART = LBRACE :: QUOTE :: (bytes TYPE_NAME ++ QUOTE :: COLON :: QUOTE :: (bytes TELEMETRY ++
      QUOTE :: COMMA :: QUOTE :: (bytes ID_NAME ++ [QUOTE, COLON]))) := rfl
  have hts : TS_PART = COMMA :: QUOTE :: (bytes TS_NAME ++ [QUOTE, COLON]) := rfl
  have hversion : VERSION_PART = COMMA :: QUOTE :: (bytes VERSION_NAME ++ [QUOTE, COLON, QUOTE]) := rfl
  have hperiod : PERIOD_PART = QUOTE :: COMMA :: QUOTE :: (bytes PERIOD_NAME ++ [QUOTE, COLON]) := rfl
  have hend : END_PART = [RBRACE, NEWLINE] := rfl
  simp only [telemetryMessage, hid, hts, hversion, hperiod, hend, objectText, idText, tsText, versionText,
    periodText, List.append_assoc, List.cons_append, List.nil_append]
  rfl

theorem plain_names : Plain TYPE_NAME ∧ Plain TELEMETRY ∧ Plain ID_NAME ∧ Plain TS_NAME ∧ Plain VERSION_NAME ∧
    Plain PERIOD_NAME := by
  refine ⟨?_, ?_, ?_, ?_, ?_, ?_⟩ <;> exact plain_of_letters (by decide)

theorem clean_of_encodes {sample : Sample} {period : ℤ}
    (h : Encodes (telemetryMessage sample) sample.swVersion period) : Clean sample.swVersion := by
  obtain ⟨htype, htelemetry, hid, hts, hversion, -⟩ := plain_names
  obtain ⟨text, ms, hline, -, hobject, ⟨cs, hmember, hcs⟩, -⟩ := h
  rw [telemetryMessage_eq] at hline
  obtain rfl := List.append_cancel_right hline
  obtain ⟨r, hms⟩ := hobject.of_members
  obtain ⟨ms₁, rfl, hms₁⟩ := hms.of_plain htype htelemetry
  obtain ⟨jid, ms₂, rfl, hms₂⟩ := hms₁.of_number hid (number_repr _)
  obtain ⟨jts, ms₃, rfl, hms₃⟩ := hms₂.of_number hts (number_repr _)
  obtain ⟨cs', ms₄, rest, rfl, hs, hafter⟩ := hms₃.of_string hversion
  have hfirst : some (Json.string cs') = some (.string cs) := hmember
  obtain rfl : cs' = cs := by
    injection hfirst with hfirst
    injection hfirst
  obtain rfl | ⟨-, hplain⟩ := hs.verbatim hcs
  · -- the string would end after the quotation mark of the next name
    obtain ⟨b, s, he, hb⟩ := hafter.head
    obtain ⟨rfl, -⟩ := List.cons.inj he
    exact absurd hb (by decide)
  · constructor
    · exact ⟨cs', hcs.symm⟩
    · intro b hb
      rw [← hcs] at hb
      obtain ⟨c, hc, hbc⟩ := List.mem_flatMap.mp hb
      exact (hplain c hc).byte hbc

theorem objectText_printable (sample : Sample) :
    ∀ b ∈ objectText sample, 32 ≤ b.toNat ∨ b ∈ sample.swVersion := by
  have hname {name : List Char} (hplain : Plain name) :
      ∀ b ∈ bytes name, 32 ≤ b.toNat ∨ b ∈ sample.swVersion := by
    intro b hb
    rw [← octets_bytes hplain.1] at hb
    obtain ⟨c, hc, hbc⟩ := List.mem_flatMap.mp hb
    exact .inl ((hplain.2 c hc).byte hbc).1
  have hnumber (n : ℤ) : ∀ b ∈ bytes n.repr.toList, 32 ≤ b.toNat ∨ b ∈ sample.swVersion := by
    intro b hb
    left
    obtain ⟨c, hc, rfl⟩ := List.mem_map.mp hb
    have hrange := mem_int_repr hc
    rw [toNat_byte (by omega)]
    omega
  have hmark : 32 ≤ QUOTE.toNat ∧ 32 ≤ COLON.toNat ∧ 32 ≤ COMMA.toNat ∧ 32 ≤ LBRACE.toNat ∧
      32 ≤ RBRACE.toNat := by decide
  obtain ⟨htype, htelemetry, hid, hts, hversion, hperiod⟩ := plain_names
  simp only [objectText, idText, tsText, versionText, periodText, List.forall_mem_cons, List.forall_mem_append]
  simp [hmark, eq_true (hnumber _), eq_true (hname htype), eq_true (hname htelemetry), eq_true (hname hid),
    eq_true (hname hts), eq_true (hname hversion), eq_true (hname hperiod)]
  intro b hb
  exact .inr hb

def telemetryMembers (sample : Sample) (swVersion : List Char) : List (List Char × Json) :=
  [(TYPE_NAME, .string TELEMETRY), (ID_NAME, .number sample.id.toNat 0), (TS_NAME, .number sample.ts 0),
    (VERSION_NAME, .string swVersion), (PERIOD_NAME, .number sample.period.toInt 0)]

theorem value_of_clean {sample : Sample} (h : Clean sample.swVersion) (r : List UInt8) :
    ∃ cs, sample.swVersion = octets cs ∧
      Value (objectText sample ++ r) (.object (telemetryMembers sample cs)) r := by
  obtain ⟨htype, htelemetry, hid, hts, hversion, hperiod⟩ := plain_names
  obtain ⟨cs, hcs⟩ := h.utf8
  have hplain : ∀ c ∈ cs, Unescaped c := by
    intro c hc
    apply unescaped_of_bytes
    intro b hb
    apply h.byte
    rw [hcs]
    exact List.mem_flatMap.mpr ⟨c, hc, hb⟩
  have hstring := Value.string (Str.mk_plain hplain (COMMA :: QUOTE :: (periodText sample.period.toInt ++ r)))
  rw [← hcs] at hstring
  -- from the last member to the first
  have hms₄ := Members.mk_last (r := r) hperiod (Value.number (number_repr sample.period.toInt))
  have hperiodText : periodText sample.period.toInt ++ r = bytes PERIOD_NAME ++ QUOTE :: COLON ::
      (bytes sample.period.toInt.repr.toList ++ RBRACE :: r) := by
    simp [periodText]
  rw [← hperiodText] at hms₄
  have hms₃ := Members.mk_cons hversion hstring hms₄
  have hms₂ := Members.mk_cons hts (Value.number (number_repr sample.ts)) hms₃
  have hms₁ := Members.mk_cons hid (Value.number (number_repr sample.id.toNat)) hms₂
  have hms := Members.mk_cons htype (Value.string (Str.mk_plain htelemetry.2 _)) hms₁
  rw [octets_bytes htelemetry.1] at hms
  refine ⟨cs, hcs, ?_⟩
  have hobject := Value.object hms
  simpa only [telemetryMembers, objectText, idText, tsText, versionText, List.cons_append, List.append_assoc]
    using hobject

theorem encodes_of_clean {sample : Sample} (h : Clean sample.swVersion) :
    Encodes (telemetryMessage sample) sample.swVersion sample.period.toInt := by
  obtain ⟨cs, hcs, hvalue⟩ := value_of_clean h []
  rw [List.append_nil] at hvalue
  refine ⟨objectText sample, _, telemetryMessage_eq sample, ?_, ⟨_, _, .done _, hvalue, .done _⟩,
    ⟨cs, rfl, hcs.symm⟩, _, _, rfl, ?_⟩
  · intro hmem
    obtain hprint | hversion := objectText_printable sample _ hmem
    · exact absurd hprint (by decide)
    · exact absurd (h.byte _ hversion).1 (by decide)
  · simp [Json.IsInteger]

theorem nul_not_mem_message {sample : Sample} (h : (0 : UInt8) ∉ sample.swVersion) :
    0 ∉ telemetryMessage sample := by
  rw [telemetryMessage_eq, List.mem_append, not_or]
  constructor
  · intro hmem
    obtain hprint | hversion := objectText_printable sample _ hmem
    · exact absurd hprint (by decide)
    · exact h hversion
  · decide

theorem formatted_eq {sample : Sample} (h : sample.Fits) : formatted sample = telemetryMessage sample :=
  snprintf_fits (nul_not_mem_message h.nul) (telemetryMessage_fits h)

variable (cJSONParse : CString → Option CJson)

theorem fits_of_parseConfigFile {file : Option (List UInt8)} {swVersion₀ swVersion : CString}
    {period₀ period : Int32}
    (h : parseConfigFile cJSONParse file 64 swVersion₀ period₀ = (0, swVersion, period)) (id : UInt64)
    (ts : Int64) : (Sample.mk id ts.toInt swVersion period).Fits := by
  obtain ⟨content, c, rfl, hc⟩ := settings_of_parseConfigFile cJSONParse (congrArg Prod.fst h)
  rw [parseConfigFile_of_settings cJSONParse swVersion₀ period₀ hc] at h
  injection h with _ hout
  injection hout with hversion _
  obtain ⟨hlen, hnul⟩ := settings_fit cJSONParse hc
  rw [hversion] at hlen hnul
  exact ⟨hlen, hnul, ts.le_toInt, ts.toInt_lt⟩

/-- The message encodes what the file states exactly if the version needs no escape. -/
theorem encodes_iff (file : Option (List UInt8)) (swVersion₀ swVersion : CString) (period₀ period : Int32)
    (h : parseConfigFile cJSONParse file 64 swVersion₀ period₀ = (0, swVersion, period)) (id : UInt64)
    (ts : Int64) :
    Encodes (formatted ⟨id, ts.toInt, swVersion, period⟩) swVersion period.toInt ↔ Clean swVersion := by
  rw [formatted_eq (fits_of_parseConfigFile cJSONParse h id ts)]
  constructor
  · intro hencodes
    exact clean_of_encodes hencodes
  · intro hclean
    exact encodes_of_clean hclean

def PLAIN_FILE : CString := ascii ['\x7b', '"', 's', 'w', '_', 'v', 'e', 'r', 's', 'i', 'o', 'n', '"', ':', '"',
  '1', '.', '0', '"', ',', '"', 'p', 'e', 'r', 'i', 'o', 'd', '"', ':', '5', '\x7d']

def plainParse (text : CString) : Option CJson :=
  if text = PLAIN_FILE then some (.object [(SW_VERSION, .string (ascii ['1', '.', '0'])), (PERIOD, .number 5 (Library.Binary64.nearest false 5 1))])
  else none

theorem encodes_iff_plain :
    parseConfigFile plainParse (some PLAIN_FILE) 64 [] 0 = (0, ascii ['1', '.', '0'], 5) ∧
    (Encodes (formatted ⟨0, (1700000000 : Int64).toInt, ascii ['1', '.', '0'], 5⟩) (ascii ['1', '.', '0'])
      (5 : Int32).toInt ↔ Clean (ascii ['1', '.', '0'])) :=
  ⟨by decide, encodes_iff plainParse (some PLAIN_FILE) [] (ascii ['1', '.', '0']) 0 5 (by decide) 0 1700000000⟩

def Standard : Prop :=
  ∀ text root, cJSONParse text = some root → ∃ ms, Json.Text text (.object ms) ∧
    ∀ name cs, (Json.object ms).member name = some (.string cs) →
      root.getObjectItem (octets name) = some (.string (octets cs))

def QUOTED_FILE : CString := ascii ['\x7b', '"', 's', 'w', '_', 'v', 'e', 'r', 's', 'i', 'o', 'n', '"', ':', '"',
  'a', '\\', '"', 'b', '"', ',', '"', 'p', 'e', 'r', 'i', 'o', 'd', '"', ':', '5', '\x7d']

def quotedParse (text : CString) : Option CJson :=
  if text = QUOTED_FILE then some (.object [(SW_VERSION, .string (ascii ['a', '"', 'b'])), (PERIOD, .number 5 (Library.Binary64.nearest false 5 1))])
  else none

theorem quotedParse_standard : Standard quotedParse := by
  intro text root hroot
  unfold quotedParse at hroot
  split_ifs at hroot with htext
  obtain rfl := Option.some.inj hroot
  obtain ⟨-, -, -, -, hversion, hperiod⟩ := plain_names
  have hb : Str (ascii ['b'] ++ QUOTE :: COMMA :: QUOTE :: periodText 5) ['b']
      (COMMA :: QUOTE :: periodText 5) :=
    .char (c := 'b') ⟨by decide, by decide, by decide⟩ (.close _)
  have hquote := Str.escape (.short (l := '"') (c := '"') (by decide)) hb
  have ha := Str.char (c := 'a') ⟨by decide, by decide, by decide⟩ hquote
  have hms := Members.mk_cons hversion (.string ha)
    (Members.mk_last (r := []) hperiod (Value.number (number_repr 5)))
  refine ⟨[(VERSION_NAME, .string ['a', '"', 'b']), (PERIOD_NAME, .number 5 0)], ?_, ?_⟩
  · have hfile : QUOTED_FILE = LBRACE :: QUOTE :: (bytes VERSION_NAME ++ QUOTE :: COLON :: QUOTE ::
      (String.utf8EncodeChar 'a' ++ (BACKSLASH :: bytes ['"'] ++
        (ascii ['b'] ++ QUOTE :: COMMA :: QUOTE :: periodText 5)))) := rfl
    rw [htext, hfile]
    exact Text.mk_members hms
  · intro name cs hmember
    obtain ⟨m, hfind, hvalue⟩ := Option.map_eq_some_iff.mp hmember
    have hname := List.find?_some hfind
    simp only [decide_eq_true_eq] at hname
    have hm := List.mem_of_find?_eq_some hfind
    simp only [List.mem_cons, List.not_mem_nil, or_false] at hm
    obtain rfl | rfl := hm
    · obtain rfl := hname
      injection hvalue with hcs
      rw [← hcs]
      rfl
    · cases hvalue

theorem not_encodes :
    ¬ ∀ cJSONParse : CString → Option CJson, Standard cJSONParse →
      ∀ (file : Option (List UInt8)) (swVersion₀ swVersion : CString) (period₀ period : Int32),
        parseConfigFile cJSONParse file 64 swVersion₀ period₀ = (0, swVersion, period) →
        ∀ (id : UInt64) (ts : Int64),
          Encodes (formatted ⟨id, ts.toInt, swVersion, period⟩) swVersion period.toInt := by
  intro h
  have hparse : parseConfigFile quotedParse (some QUOTED_FILE) 64 [] 0 = (0, ascii ['a', '"', 'b'], 5) := by
    decide
  have hencodes := h quotedParse quotedParse_standard (some QUOTED_FILE) [] _ 0 5 hparse 0 0
  rw [formatted_eq (fits_of_parseConfigFile quotedParse hparse 0 0)] at hencodes
  obtain ⟨-, hquote, -⟩ := (clean_of_encodes hencodes).byte QUOTE (by decide)
  exact hquote rfl

end EmbeddedLinuxTraining.Telemetry
