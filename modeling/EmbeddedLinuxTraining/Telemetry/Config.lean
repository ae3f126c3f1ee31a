import Mathlib.Data.List.TakeWhile
import EmbeddedLinuxTraining.Library.Binary64

/-!
`parse_config_file` of seance6/project/main.c. `cJSON_Parse` is a parameter; only what it
builds is modelled.
-/

namespace EmbeddedLinuxTraining.Telemetry

abbrev CString := List UInt8

def cString (buf : List UInt8) : CString := buf.takeWhile (· ≠ 0)

def ascii (s : List Char) : CString := s.map fun c => UInt8.ofNat c.toNat

def snprintf (size : ℕ) (src : List UInt8) : CString := (cString src).take (size - 1)

inductive CJson
  | null | false | true
  | number (valueint : Int32) (valuedouble : Library.Binary64.Double)
  | string (valuestring : List UInt8)
  | raw (valuestring : List UInt8)
  | array (child : List CJson)
  | object (child : List (CString × CJson))

/-- `cJSON_GetObjectItemCaseSensitive`; the children of an array have no names. -/
def CJson.getObjectItem (name : CString) : CJson → Option CJson
  | .object child => (child.find? fun item => item.1 = name).map Prod.snd
  | _ => none

def SW_VERSION : CString := ascii ['s', 'w', '_', 'v', 'e', 'r', 's', 'i', 'o', 'n']

def PERIOD : CString := ascii ['p', 'e', 'r', 'i', 'o', 'd']

def readVersion (swLen : ℕ) (ver : Option CJson) (swVersion : CString) (ok : Bool) : CString × Bool :=
  match ver with
  | some (.string valuestring) => (snprintf swLen valuestring, ok)
  | _ => (swVersion, false)

def readPeriod (per : Option CJson) (period : Int32) (ok : Bool) : Int32 × Bool :=
  match per with
  | some (.number valueint _) => (valueint, ok)
  | _ => (period, false)

variable (cJSONParse : CString → Option CJson)

def parseConfigFile (file : Option (List UInt8)) (swLen : ℕ) (swVersion : CString) (period : Int32) :
    ℤ × CString × Int32 :=
  match file with
  | none => (-1, swVersion, period)
  | some content =>
    if content.length ≤ 0 then (-1, swVersion, period)
    else
      match cJSONParse (cString content) with
      | none => (-1, swVersion, period)
      | some root =>
        let (swVersion, ok) := readVersion swLen (root.getObjectItem SW_VERSION) swVersion true
        let (period, ok) := readPeriod (root.getObjectItem PERIOD) period ok
        (if ok then 0 else -1, swVersion, period)

structure Settings where
  swVersion : CString
  periodSec : Int32
  deriving DecidableEq

def settingsOf (content : List UInt8) : Option Settings :=
  if content = [] then none
  else (cJSONParse (cString content)).bind fun root =>
    match root.getObjectItem SW_VERSION, root.getObjectItem PERIOD with
    | some (.string version), some (.number period _) => some ⟨(cString version).take 63, period⟩
    | _, _ => none

theorem parseConfigFile_of_settings {content : List UInt8} {settings : Settings} (swVersion : CString)
    (period : Int32) (h : settingsOf cJSONParse content = some settings) :
    parseConfigFile cJSONParse (some content) 64 swVersion period =
      (0, settings.swVersion, settings.periodSec) := by
  unfold settingsOf at h
  split_ifs at h with hnil
  obtain ⟨root, hroot, hs⟩ := Option.bind_eq_some_iff.mp h
  have hlen : ¬ content.length ≤ 0 := by
    intro hle
    exact hnil (List.eq_nil_of_length_eq_zero (Nat.le_zero.mp hle))
  split at hs
  · rename_i version period' valuedouble hversion hperiod
    cases hs
    simp [parseConfigFile, hlen, hroot, hversion, hperiod, readVersion, readPeriod, snprintf]
  · cases hs

theorem settings_of_parseConfigFile {file : Option (List UInt8)} {swVersion : CString} {period : Int32}
    (h : (parseConfigFile cJSONParse file 64 swVersion period).1 = 0) :
    ∃ content settings, file = some content ∧ settingsOf cJSONParse content = some settings := by
  cases file with
  | none => cases h
  | some content =>
    unfold parseConfigFile at h
    simp only at h
    split at h
    · cases h
    · rename_i hlen
      have hnil : content ≠ [] := by
        rintro rfl
        exact hlen (Nat.zero_le 0)
      split at h
      · cases h
      rename_i root hroot
      have hok : (readPeriod (root.getObjectItem PERIOD) period
          (readVersion 64 (root.getObjectItem SW_VERSION) swVersion true).2).2 = true := by
        by_contra hno
        rw [if_neg hno] at h
        cases h
      unfold readPeriod readVersion at hok
      split at hok
      · rename_i number valuedouble hperiod
        split at hok
        · rename_i string hversion
          refine ⟨content, ⟨(cString string).take 63, number⟩, rfl, ?_⟩
          rw [settingsOf, if_neg hnil, hroot, Option.bind_some, hversion, hperiod]
        · cases hok
      · cases hok

theorem not_mem_cString (buf : List UInt8) : 0 ∉ cString buf := by
  intro hmem
  exact absurd (List.mem_takeWhile_imp hmem) (by decide)

theorem cString_append {front : List UInt8} (h : 0 ∉ front) (buf : List UInt8) :
    cString (front ++ buf) = front ++ cString buf := by
  have hall : ∀ b ∈ front, decide (b ≠ 0) = true := by
    intro b hb
    apply decide_eq_true
    rintro rfl
    exact h hb
  exact List.takeWhile_append_of_pos hall

theorem cString_self {buf : List UInt8} (h : 0 ∉ buf) : cString buf = buf := by
  have hempty : cString [] = [] := rfl
  have happend := cString_append h []
  rwa [hempty, List.append_nil] at happend

theorem settings_fit {content : List UInt8} {c : Settings} (h : settingsOf cJSONParse content = some c) :
    c.swVersion.length ≤ 63 ∧ (0 : UInt8) ∉ c.swVersion := by
  unfold settingsOf at h
  split_ifs at h
  obtain ⟨root, -, hroot⟩ := Option.bind_eq_some_iff.mp h
  split at hroot
  · cases hroot
    constructor
    · exact List.length_take_le _ _
    · intro hmem
      exact not_mem_cString _ (List.mem_of_mem_take hmem)
  · cases hroot

theorem snprintf_fits {size : ℕ} {src : List UInt8} (hnul : (0 : UInt8) ∉ src) (hlen : src.length < size) :
    snprintf size src = src := by
  rw [snprintf, cString_self hnul]
  exact List.take_of_length_le (by omega)

theorem snprintf_settings {content : List UInt8} {c : Settings} (h : settingsOf cJSONParse content = some c) :
    snprintf 64 c.swVersion = c.swVersion := by
  obtain ⟨hlen, hnul⟩ := settings_fit cJSONParse h
  exact snprintf_fits hnul (Nat.lt_succ_of_le hlen)

end EmbeddedLinuxTraining.Telemetry
