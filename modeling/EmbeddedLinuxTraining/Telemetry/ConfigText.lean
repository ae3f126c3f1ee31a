import EmbeddedLinuxTraining.CJSON.Continuation
import EmbeddedLinuxTraining.Telemetry.ConfigRead
import EmbeddedLinuxTraining.Telemetry.Encoding

namespace EmbeddedLinuxTraining.Telemetry.ConfigText

open Library Library.Ascii Library.Json CJSON ConfigRead

def parse (grants : ℕ → Bool) (text : CString) : Except ℕ CJson :=
  match CJSON.cJSONParse grants text with
  | some result => result.root
  | none => .error text.length

theorem parse_root {grants : ℕ → Bool} {text : CString} {root : Except ℕ CJson} {hooks : Hooks}
    (h : CJSON.cJSONParse grants text = some ⟨root, hooks⟩) : parse grants text = root := by
  rw [parse, h]

def parser (grants : ℕ → Bool) : Parser where
  parse := parse grants
  inside text position h := by
    obtain ⟨root, hooks, hroot⟩ := parse_ends grants (text ++ [0]) false
    obtain rfl := (parse_root hroot).symm.trans h
    have hposition := (CJSON.parse_error hroot).2
    rwa [List.length_append, List.length_singleton, Nat.add_sub_cancel] at hposition

theorem parse_append {grants : ℕ → Bool} {text : CString} {root : CJson} (h : parse grants text = .ok root)
    (rest : List UInt8) : ∃ root', parse grants (text ++ rest) = .ok root' ∧
      ∀ name, root'.getObjectItem name = root.getObjectItem name := by
  unfold parse at h
  split at h
  · rename_i result hresult
    obtain ⟨root₀, hooks⟩ := result
    obtain rfl : root₀ = .ok root := h
    obtain ⟨root', hooks', hok, hroot⟩ := cJSONParse_append hresult rest
    refine ⟨root', parse_root hok, ?_⟩
    obtain rfl | ⟨m, d, m', d', rfl, rfl⟩ := hroot
    · exact fun _ => rfl
    · exact fun _ => rfl
  · cases h

theorem parser_continues (grants : ℕ → Bool) : (parser grants).Continues := by
  intro text rest root _ hroot
  exact parse_append hroot rest

/-- With the parser of cJSON.c it is what was read that decides, after every read. -/
theorem parser_dependsOnFile (grants : ℕ → Bool) (path : CString) (size : Int64) (delivered : List UInt8) (swLen : ℕ)
    (swVersion : CString) (period : Int32) (hn : delivered.length ≤ size.toNatClampNeg) :
    DependsOnFile (parser grants) path size delivered swLen swVersion period ↔
      size ≤ 0 ∨ ∃ root, parse grants (cString delivered) = .ok root := by
  constructor
  · exact accepted_of_dependsOnFile hn
  · rintro (hsize | ⟨root, hroot⟩)
    · exact dependsOnFile_of_nonpos hsize
    · exact dependsOnFile_of_accepted hn (.inr (.inr (parser_continues grants))) hroot

structure Follows (j : Json) (swLen : ℕ) (swVersion : CString) (period : Int32) (report : Report) : Prop where
  ret : report.ret = 0 ↔ (∃ cs, itemNamed VERSION_NAME j = some (.string cs)) ∧
    ∃ m e, itemNamed PERIOD_NAME j = some (.number m e)
  failed : report.ret = 0 ∨ report.ret = -1
  string : ∀ cs, itemNamed VERSION_NAME j = some (.string cs) →
    report.swVersion = (octets (cs.takeWhile (· ≠ NUL))).take (swLen - 1)
  noString : (∀ cs, itemNamed VERSION_NAME j ≠ some (.string cs)) → report.swVersion = swVersion
  number : ∀ m e n, itemNamed PERIOD_NAME j = some (.number m e) → IsInteger m e n →
    report.period = Int32.ofInt (max INT_MIN (min INT_MAX n))
  noNumber : (∀ m e, itemNamed PERIOD_NAME j ≠ some (.number m e)) → report.period = period
  stderr : report.stderr = []

variable {grants : ℕ → Bool} {front text : List UInt8} {j : Json} {swVersion path : CString} {period : Int32}
  {swLen : ℕ}

theorem item_version (j : Json) :
    (tree j).getObjectItem SW_VERSION = (itemNamed VERSION_NAME j).map tree := getObjectItem_tree VERSION_NAME j

theorem item_period (j : Json) : (tree j).getObjectItem PERIOD = (itemNamed PERIOD_NAME j).map tree :=
  getObjectItem_tree PERIOD_NAME j

theorem readVersion_string {cs : List Char} {ok : Bool} (h : itemNamed VERSION_NAME j = some (.string cs)) :
    readVersion swLen ((tree j).getObjectItem SW_VERSION) swVersion ok =
      ((octets (cs.takeWhile (· ≠ NUL))).take (swLen - 1), ok) := by
  rw [item_version, h]
  simp only [Option.map_some, tree, readVersion, snprintf, cString_octets]

theorem readVersion_other {ok : Bool} (h : ∀ cs, itemNamed VERSION_NAME j ≠ some (.string cs)) :
    readVersion swLen ((tree j).getObjectItem SW_VERSION) swVersion ok = (swVersion, false) := by
  rw [item_version]
  cases hitem : itemNamed VERSION_NAME j with
  | none => rfl
  | some v =>
    cases v with
    | string cs => exact absurd hitem (h cs)
    | bool b => cases b <;> rfl
    | null | number | array | object => rfl

theorem readPeriod_number {m e : ℤ} {ok : Bool} (h : itemNamed PERIOD_NAME j = some (.number m e)) :
    readPeriod ((tree j).getObjectItem PERIOD) period ok = (valueint (Strtod.decimal m e), ok) := by
  rw [item_period, h]
  rfl

theorem readPeriod_other {ok : Bool} (h : ∀ m e, itemNamed PERIOD_NAME j ≠ some (.number m e)) :
    readPeriod ((tree j).getObjectItem PERIOD) period ok = (period, false) := by
  rw [item_period]
  cases hitem : itemNamed PERIOD_NAME j with
  | none => rfl
  | some v =>
    cases v with
    | number m e => exact absurd hitem (h m e)
    | bool b => cases b <;> rfl
    | null | string | array | object => rfl

theorem conclude_ret (j : Json) :
    (conclude swLen swVersion period (tree j)).ret = 0 ↔ (∃ cs, itemNamed VERSION_NAME j = some (.string cs)) ∧
      ∃ m e, itemNamed PERIOD_NAME j = some (.number m e) := by
  by_cases hversion : ∃ cs, itemNamed VERSION_NAME j = some (.string cs)
  · obtain ⟨cs, hcs⟩ := hversion
    by_cases hperiod : ∃ m e, itemNamed PERIOD_NAME j = some (.number m e)
    · obtain ⟨m, e, hme⟩ := hperiod
      simp only [conclude, readVersion_string hcs, readPeriod_number hme, if_true]
      exact iff_of_true trivial ⟨⟨cs, hcs⟩, m, e, hme⟩
    · have hno : ∀ m e, itemNamed PERIOD_NAME j ≠ some (.number m e) := fun m e hme => hperiod ⟨m, e, hme⟩
      simp only [conclude, readPeriod_other hno]
      exact iff_of_false (by decide) fun h => hperiod h.2
  · have hno : ∀ cs, itemNamed VERSION_NAME j ≠ some (.string cs) := fun cs hcs => hversion ⟨cs, hcs⟩
    simp only [conclude, readVersion_other hno]
    apply iff_of_false _ fun h => hversion h.1
    rw [item_period]
    unfold readPeriod
    split <;> simp

theorem conclude_follows (j : Json) (swLen : ℕ) (swVersion : CString) (period : Int32) :
    Follows j swLen swVersion period (conclude swLen swVersion period (tree j)) := by
  constructor
  · exact conclude_ret j
  · simp only [conclude]
    split_ifs
    · exact .inl rfl
    · exact .inr rfl
  · intro cs hcs
    simp only [conclude, readVersion_string hcs]
  · intro hno
    simp only [conclude, readVersion_other hno]
  · intro m e n hme hn
    simp only [conclude, readPeriod_number hme]
    exact valueint_decimal hn
  · intro hno
    simp only [conclude, readPeriod_other hno]
  · rfl

theorem nul_not_mem_file (hfront : front = [] ∨ front = BOM) (h : Text text j) : 0 ∉ front ++ text := by
  have hbom : (0 : UInt8) ∉ BOM := by decide
  obtain rfl | rfl := hfront
  · exact h.nul
  · exact List.not_mem_append hbom h.nul

/-- A file with a JSON text, read in full: the outputs are what its members say, also where one of the two
is missing, and a text that nests too deep changes nothing. Neither what `malloc` returns nor what is left
after the `free` shows in them. -/
theorem config_text (grants : ℕ → Bool) (hg : ∀ n, grants n = true) (front text : List UInt8)
    (hfront : front = [] ∨ front = BOM) (j : Json) (h : Text text j) (size : Int64)
    (hsize : (front ++ text).length = size.toNatClampNeg) (block freed : List UInt8)
    (hblock : block.length = size.toNatClampNeg + 1) (path swVersion : CString) (swLen : ℕ) (period : Int32) :
    let report := ConfigRead.parseConfigFile (parser grants) path (.opened size (front ++ text)) (some block)
      freed swLen swVersion period
    (nesting j ≤ CJSON_NESTING_LIMIT → Follows j swLen swVersion period report) ∧
      (CJSON_NESTING_LIMIT < nesting j →
        report.ret = -1 ∧ report.swVersion = swVersion ∧ report.period = period) := by
  intro report
  have htext : cString (fill block (front ++ text) size.toNatClampNeg) = front ++ text := by
    rw [cString_fill_whole hblock hsize, cString_self (nul_not_mem_file hfront h)]
  have hpos : ¬ size ≤ 0 := by
    intro hle
    obtain ⟨x, u, rfl, -⟩ := Text.first h
    have hzero : size.toNatClampNeg = 0 := Int.toNat_of_nonpos (Int64.le_iff_toInt_le.mp hle)
    rw [hzero, List.length_append, List.length_cons] at hsize
    omega
  constructor
  · intro hdepth
    obtain ⟨hooks, hparse⟩ := parse_text hg hfront h hdepth false
    have hroot : (parser grants).parse (cString (fill block (front ++ text) size.toNatClampNeg)) =
        .ok (tree j) := by
      rw [htext]
      exact parse_root hparse
    have hreport : report = conclude swLen swVersion period (tree j) := ConfigRead.parse_ok hpos hroot
    rw [hreport]
    exact conclude_follows j swLen swVersion period
  · intro hdepth
    obtain ⟨position, hooks, hparse⟩ := parse_deep hg hfront h hdepth false
    have hroot : (parser grants).parse (cString (fill block (front ++ text) size.toNatClampNeg)) =
        .error position := by
      rw [htext]
      exact parse_root hparse
    have hreport : report = ⟨-1, swVersion, period, _⟩ := ConfigRead.parse_error hpos hroot
    rw [hreport]
    exact ⟨rfl, rfl, rfl⟩

theorem config_text_plain :
    let report := ConfigRead.parseConfigFile (parser fun _ => true) [] (.opened 31 ([] ++ PLAIN_FILE))
      (some (List.replicate 32 7)) [] 64 [] 0
    (nesting (.object [(VERSION_NAME, .string ['1', '.', '0']), (PERIOD_NAME, .number 5 0)]) ≤
        CJSON_NESTING_LIMIT →
      Follows (.object [(VERSION_NAME, .string ['1', '.', '0']), (PERIOD_NAME, .number 5 0)]) 64 [] 0 report) ∧
    (CJSON_NESTING_LIMIT < nesting (.object [(VERSION_NAME, .string ['1', '.', '0']), (PERIOD_NAME, .number 5 0)]) →
      report.ret = -1 ∧ report.swVersion = [] ∧ report.period = 0) := by
  obtain ⟨-, -, -, -, hversion, hperiod⟩ := plain_names
  have hplain : Plain ['1', '.', '0'] := plain_of_letters (by decide)
  have hstring := Value.string (Str.mk_plain hplain.2 (COMMA :: QUOTE :: periodText 5))
  have hms := Members.mk_cons hversion hstring
    (Members.mk_last (r := []) hperiod (Value.number (number_repr 5)))
  exact config_text _ (fun _ => rfl) [] PLAIN_FILE (.inl rfl) _ (Text.mk_members hms) 31 (by decide) _ []
    (by decide) [] [] 64 0

structure Carries (root : CJson) (sample : Sample) : Prop where
  type : root.getObjectItem (bytes TYPE_NAME) = some (.string (bytes TELEMETRY))
  id : root.getObjectItem (bytes ID_NAME) =
    some (.number (Int32.ofInt (min INT_MAX sample.id.toNat)) (Strtod.decimal sample.id.toNat 0))
  ts : root.getObjectItem (bytes TS_NAME) =
    some (.number (Int32.ofInt (max INT_MIN (min INT_MAX sample.ts))) (Strtod.decimal sample.ts 0))
  swVersion : root.getObjectItem SW_VERSION = some (.string sample.swVersion)
  period : root.getObjectItem PERIOD =
    some (.number sample.period (Strtod.decimal sample.period.toInt 0))

theorem tree_integer (n : ℤ) :
    tree (.number n 0) = .number (Int32.ofInt (max INT_MIN (min INT_MAX n))) (Strtod.decimal n 0) := by
  rw [tree, valueint_decimal (n := n)]
  simp [IsInteger]

theorem carries_tree {sample : Sample} {cs : List Char} (hcs : sample.swVersion = octets cs) :
    Carries (tree (.object (telemetryMembers sample cs))) sample := by
  have hmax : INT_MAX = 2147483647 := rfl
  have hmin : INT_MIN = -2147483648 := rfl
  constructor
  · exact (getObjectItem_tree TYPE_NAME _).trans rfl
  · have hid : itemNamed ID_NAME (.object (telemetryMembers sample cs)) = some (.number sample.id.toNat 0) := rfl
    have hclamp : max INT_MIN (min INT_MAX (sample.id.toNat : ℤ)) = min INT_MAX sample.id.toNat := by omega
    have hitem := getObjectItem_tree ID_NAME (.object (telemetryMembers sample cs))
    rw [hid, Option.map_some, tree_integer, hclamp] at hitem
    exact hitem
  · have hts : itemNamed TS_NAME (.object (telemetryMembers sample cs)) = some (.number sample.ts 0) := rfl
    have hitem := getObjectItem_tree TS_NAME (.object (telemetryMembers sample cs))
    rw [hts, Option.map_some, tree_integer] at hitem
    exact hitem
  · rw [item_version, hcs]
    rfl
  · have hperiod : itemNamed PERIOD_NAME (.object (telemetryMembers sample cs)) =
        some (.number sample.period.toInt 0) := rfl
    have hlo := sample.period.le_toInt
    have hhi := sample.period.toInt_lt
    have hclamp : max INT_MIN (min INT_MAX sample.period.toInt) = sample.period.toInt := by omega
    rw [item_period, hperiod, Option.map_some, tree_integer, hclamp, Int32.ofInt_toInt]

theorem telemetry_round_trip (grants : ℕ → Bool) (hg : ∀ n, grants n = true) (sample : Sample)
    (hfits : sample.Fits) (hclean : Clean sample.swVersion) :
    (∃ root, parse grants (formatted sample) = .ok root ∧ Carries root sample) ∧
      settingsOf (fun text => (parse grants text).toOption) (formatted sample) =
        some ⟨sample.swVersion, sample.period⟩ := by
  obtain ⟨cs, hcs, hvalue⟩ := value_of_clean hclean [NEWLINE]
  have htext : Text (telemetryMessage sample) (.object (telemetryMembers sample cs)) := by
    rw [telemetryMessage_eq]
    exact ⟨_, _, .done _, hvalue, .skip (by simp [IsSpace, NEWLINE]) (.done _)⟩
  have hdepth : nesting (.object (telemetryMembers sample cs)) = 1 := rfl
  obtain ⟨hooks, hparse⟩ := parse_text hg (.inl rfl) htext (by rw [hdepth]; decide) false
  have hroot : parse grants (formatted sample) = .ok (tree (.object (telemetryMembers sample cs))) := by
    rw [formatted_eq hfits]
    exact parse_root hparse
  have hcarries := carries_tree hcs
  refine ⟨⟨_, hroot, hcarries⟩, ?_⟩
  have hnul : cString (formatted sample) = formatted sample := by
    rw [formatted_eq hfits]
    exact cString_self htext.nul
  have hne : formatted sample ≠ [] := by
    rw [formatted_eq hfits, telemetryMessage_eq]
    exact List.cons_ne_nil _ _
  rw [settingsOf, if_neg hne, hnul, hroot]
  simp only [Except.toOption, Option.bind_some, hcarries.swVersion, hcarries.period]
  rw [cString_self hfits.nul, List.take_of_length_le hfits.swVersion]

theorem clean_plain : Clean (ascii ['1', '.', '0']) := by
  have hall : (ascii ['1', '.', '0']).all fun b => decide (32 ≤ b.toNat ∧ b ≠ QUOTE ∧ b ≠ BACKSLASH) := by decide
  exact ⟨⟨['1', '.', '0'], by decide⟩, fun b hb => of_decide_eq_true (List.all_eq_true.mp hall b hb)⟩

theorem telemetry_round_trip_plain :
    let sample : Sample := ⟨7, 1700000000, ascii ['1', '.', '0'], 5⟩
    (∃ root, parse (fun _ => true) (formatted sample) = .ok root ∧ Carries root sample) ∧
      settingsOf (fun text => (parse (fun _ => true) text).toOption) (formatted sample) =
        some ⟨sample.swVersion, sample.period⟩ :=
  telemetry_round_trip _ (fun _ => rfl) ⟨7, 1700000000, ascii ['1', '.', '0'], 5⟩ (by decide) clean_plain

end EmbeddedLinuxTraining.Telemetry.ConfigText
