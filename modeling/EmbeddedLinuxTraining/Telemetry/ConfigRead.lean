import Mathlib.Data.List.Basic
import EmbeddedLinuxTraining.Telemetry.Config

namespace EmbeddedLinuxTraining.Telemetry.ConfigRead

structure Parser where
  parse : CString → Except ℕ CJson
  inside : ∀ text position, parse text = .error position → position ≤ text.length

inductive File
  | missing (strerror : CString)
  | opened (sz : Int64) (delivered : List UInt8)

structure Report where
  ret : ℤ
  swVersion : CString
  period : Int32
  stderr : List UInt8

/-- `[monitor] cannot open ` -/
def CANNOT_OPEN : CString := ascii ['[', 'm', 'o', 'n', 'i', 't', 'o', 'r', ']', ' ',
  'c', 'a', 'n', 'n', 'o', 't', ' ', 'o', 'p', 'e', 'n', ' ']

/-- `[monitor] JSON parse error near: ` -/
def PARSE_ERROR : CString := ascii ['[', 'm', 'o', 'n', 'i', 't', 'o', 'r', ']', ' ',
  'J', 'S', 'O', 'N', ' ', 'p', 'a', 'r', 's', 'e', ' ', 'e', 'r', 'r', 'o', 'r', ' ', 'n', 'e', 'a', 'r', ':', ' ']

def fill (block delivered : List UInt8) (sz : ℕ) : List UInt8 :=
  (delivered ++ block.drop delivered.length).set sz 0

def conclude (swLen : ℕ) (swVersion : CString) (period : Int32) (root : CJson) : Report :=
  let (swVersion, ok) := readVersion swLen (root.getObjectItem SW_VERSION) swVersion true
  let (period, ok) := readPeriod (root.getObjectItem PERIOD) period ok
  ⟨if ok then 0 else -1, swVersion, period, []⟩

/-- `block` is what `malloc` returns, with what is in it, and `freed` the memory from the same address
on after the `free`. -/
def parseConfigFile (p : Parser) (path : CString) (file : File) (block : Option (List UInt8))
    (freed : List UInt8) (swLen : ℕ) (swVersion : CString) (period : Int32) : Report :=
  match file with
  | .missing strerror =>
    ⟨-1, swVersion, period, CANNOT_OPEN ++ path ++ ascii [':', ' '] ++ strerror ++ ascii ['\n']⟩
  | .opened sz delivered =>
    if sz ≤ 0 then ⟨-1, swVersion, period, []⟩
    else
      match block with
      | none => ⟨-1, swVersion, period, []⟩
      | some block =>
        match p.parse (cString (fill block delivered sz.toNatClampNeg)) with
        | .error position =>
          ⟨-1, swVersion, period, PARSE_ERROR ++ cString (freed.drop position) ++ ascii ['\n']⟩
        | .ok root => conclude swLen swVersion period root

def DependsOnFile (p : Parser) (path : CString) (sz : Int64) (delivered : List UInt8) (swLen : ℕ)
    (swVersion : CString) (period : Int32) : Prop :=
  ∀ block block' freed freed' : List UInt8,
    block.length = sz.toNatClampNeg + 1 → block'.length = sz.toNatClampNeg + 1 →
    sz.toNatClampNeg < freed.length → sz.toNatClampNeg < freed'.length →
    parseConfigFile p path (.opened sz delivered) (some block) freed swLen swVersion period =
      parseConfigFile p path (.opened sz delivered) (some block') freed' swLen swVersion period

/-- The strings that `buf` can hold: the delivered bytes up to a NUL, or all of them and stale ones. -/
inductive Holdable (sz : ℕ) (delivered : List UInt8) : CString → Prop
  | cut : 0 ∈ delivered → Holdable sz delivered (cString delivered)
  | stale (rest : List UInt8) : 0 ∉ delivered → 0 ∉ rest → delivered.length + rest.length ≤ sz →
      Holdable sz delivered (delivered ++ rest)

/-- A text that is accepted is accepted with more bytes after it, which the look-ups do not see. -/
def Parser.Continues (p : Parser) : Prop :=
  ∀ text rest root, 0 ∉ rest → p.parse text = .ok root →
    ∃ root', p.parse (text ++ rest) = .ok root' ∧ ∀ name, root'.getObjectItem name = root.getObjectItem name

variable {p : Parser} {path swVersion text : CString} {sz swLen : ℕ} {period : Int32}
  {block delivered freed xs ys : List UInt8}

theorem cString_append_zero (h : 0 ∈ xs) (ys : List UInt8) : cString (xs ++ ys) = cString xs := by
  obtain ⟨front, rest, rfl, hfront⟩ := List.eq_append_cons_of_mem h
  rw [List.append_assoc, cString_append hfront, cString_append hfront]
  rfl

theorem cString_length_le {i : ℕ} (h : xs[i]? = some 0) : (cString xs).length ≤ i := by
  by_contra hlt
  have hget : (cString xs)[i]? = some 0 := by
    obtain ⟨rest, hrest⟩ : cString xs <+: xs := List.takeWhile_prefix _
    rw [← hrest, List.getElem?_append_left (Nat.not_le.mp hlt)] at h
    exact h
  exact not_mem_cString xs (List.mem_of_getElem? hget)

theorem fill_eq (hn : delivered.length ≤ sz) :
    fill block delivered sz = delivered ++ (block.drop delivered.length).set (sz - delivered.length) 0 := by
  rw [fill, List.set_append_right _ _ hn]

theorem holdable_fill (hn : delivered.length ≤ sz) (hblock : block.length = sz + 1) :
    Holdable sz delivered (cString (fill block delivered sz)) := by
  rw [fill_eq hn]
  by_cases hzero : 0 ∈ delivered
  · rw [cString_append_zero hzero]
    exact .cut hzero
  · rw [cString_append hzero]
    apply Holdable.stale _ hzero (not_mem_cString _)
    have hlt : sz - delivered.length < (block.drop delivered.length).length := by
      rw [List.length_drop]
      omega
    have hget : ((block.drop delivered.length).set (sz - delivered.length) 0)[sz - delivered.length]? =
        some 0 := by
      rw [List.getElem?_set_self hlt]
    have hle := cString_length_le hget
    omega

theorem Holdable.exists_block (h : Holdable sz delivered text) (hn : delivered.length ≤ sz) :
    ∃ block, block.length = sz + 1 ∧ cString (fill block delivered sz) = text := by
  cases h with
  | cut hzero =>
    refine ⟨List.replicate (sz + 1) 0, List.length_replicate, ?_⟩
    rw [fill_eq hn, cString_append_zero hzero]
  | stale rest hdelivered hrest hle =>
    obtain ⟨k, hk⟩ : ∃ k, sz + 1 = delivered.length + rest.length + (k + 1) :=
      ⟨sz - delivered.length - rest.length, by omega⟩
    refine ⟨delivered ++ (rest ++ List.replicate (k + 1) 0), ?_, ?_⟩
    · simp
      omega
    · have hset : (rest ++ List.replicate (k + 1) 0).set (sz - delivered.length) 0 =
          rest ++ List.replicate (k + 1) 0 := by
        have hindex : rest.length ≤ sz - delivered.length := by omega
        rw [List.set_append_right _ _ hindex, List.set_replicate_self]
      rw [fill_eq hn, List.drop_left, hset, cString_append hdelivered, cString_append hrest]
      simp [List.replicate_succ, cString]

theorem Holdable.length_le (h : Holdable sz delivered text) (hn : delivered.length ≤ sz) :
    text.length ≤ sz := by
  cases h with
  | cut hzero => exact Nat.le_trans (List.takeWhile_prefix _).length_le hn
  | stale rest _ _ hle => rwa [List.length_append]

theorem cString_replicate {b : UInt8} (hb : b ≠ 0) (n : ℕ) :
    cString (List.replicate n b) = List.replicate n b := by
  apply cString_self
  intro hmem
  exact hb (List.eq_of_mem_replicate hmem).symm

theorem parse_ok {size : Int64} (hsize : ¬ size ≤ 0) {root : CJson}
    (h : p.parse (cString (fill block delivered size.toNatClampNeg)) = .ok root) :
    parseConfigFile p path (.opened size delivered) (some block) freed swLen swVersion period =
      conclude swLen swVersion period root := by
  simp only [parseConfigFile, hsize, if_false, h]

theorem parse_error {size : Int64} (hsize : ¬ size ≤ 0) {position : ℕ}
    (h : p.parse (cString (fill block delivered size.toNatClampNeg)) = .error position) :
    parseConfigFile p path (.opened size delivered) (some block) freed swLen swVersion period =
      ⟨-1, swVersion, period, PARSE_ERROR ++ cString (freed.drop position) ++ ascii ['\n']⟩ := by
  simp only [parseConfigFile, hsize, if_false, h]

theorem not_dependsOnFile_of_error {size : Int64} (hsize : ¬ size ≤ 0)
    (hn : delivered.length ≤ size.toNatClampNeg) (hblock : block.length = size.toNatClampNeg + 1)
    {position : ℕ} (h : p.parse (cString (fill block delivered size.toNatClampNeg)) = .error position) :
    ¬ DependsOnFile p path size delivered swLen swVersion period := by
  intro hdepends
  have hle := (holdable_fill hn hblock).length_le hn
  have hposition := p.inside _ _ h
  obtain ⟨k, hk⟩ : ∃ k, size.toNatClampNeg + 1 - position = k + 1 := ⟨size.toNatClampNeg - position, by omega⟩
  have hlong : ∀ b : UInt8, size.toNatClampNeg < (List.replicate (size.toNatClampNeg + 1) b).length := by
    intro b
    rw [List.length_replicate]
    exact Nat.lt_succ_self _
  have hsame := hdepends block block (List.replicate (size.toNatClampNeg + 1) 65)
    (List.replicate (size.toNatClampNeg + 1) 66) hblock hblock (hlong 65) (hlong 66)
  rw [parse_error hsize h, parse_error hsize h, List.drop_replicate, List.drop_replicate, hk,
    cString_replicate (by decide), cString_replicate (by decide)] at hsame
  have htext := congrArg Report.stderr hsame
  have hreplicate := List.append_cancel_left (List.append_cancel_right htext)
  simp [List.replicate_succ] at hreplicate

theorem holdable_delivered (hn : delivered.length ≤ sz) : Holdable sz delivered (cString delivered) := by
  by_cases hzero : 0 ∈ delivered
  · exact .cut hzero
  · rw [cString_self hzero]
    have hstale : Holdable sz delivered (delivered ++ []) := .stale [] hzero List.not_mem_nil hn
    rwa [List.append_nil] at hstale

theorem Holdable.eq_delivered (h : Holdable sz delivered text) (hone : 0 ∈ delivered ∨ delivered.length = sz) :
    text = cString delivered := by
  cases h with
  | cut => rfl
  | stale rest hzero _ hle =>
    have hlength := hone.resolve_left hzero
    have hnil : rest = [] := List.eq_nil_of_length_eq_zero (by omega)
    rw [hnil, List.append_nil, cString_self hzero]

theorem dependsOnFile_of_nonpos {size : Int64} (hsize : size ≤ 0) :
    DependsOnFile p path size delivered swLen swVersion period := by
  intro block block' freed freed' _ _ _ _
  simp only [parseConfigFile, hsize, if_true]

theorem dependsOnFile_of_report {size : Int64} (hsize : ¬ size ≤ 0)
    (hn : delivered.length ≤ size.toNatClampNeg) {report : Report}
    (h : ∀ text, Holdable size.toNatClampNeg delivered text →
      ∃ root, p.parse text = .ok root ∧ conclude swLen swVersion period root = report) :
    DependsOnFile p path size delivered swLen swVersion period := by
  intro block block' freed freed' hblock hblock' _ _
  obtain ⟨root, hroot, hreport⟩ := h _ (holdable_fill hn hblock)
  obtain ⟨root', hroot', hreport'⟩ := h _ (holdable_fill hn hblock')
  rw [parse_ok hsize hroot, parse_ok hsize hroot', hreport, hreport']

theorem not_dependsOnFile_of_holdable {size : Int64} (hsize : ¬ size ≤ 0)
    (hn : delivered.length ≤ size.toNatClampNeg) {position : ℕ}
    (htext : Holdable size.toNatClampNeg delivered text) (h : p.parse text = .error position) :
    ¬ DependsOnFile p path size delivered swLen swVersion period := by
  obtain ⟨block, hblock, rfl⟩ := htext.exists_block hn
  exact not_dependsOnFile_of_error hsize hn hblock h

theorem accepted_of_dependsOnFile {size : Int64} (hn : delivered.length ≤ size.toNatClampNeg)
    (h : DependsOnFile p path size delivered swLen swVersion period) :
    size ≤ 0 ∨ ∃ root, p.parse (cString delivered) = .ok root := by
  by_cases hsize : size ≤ 0
  · exact .inl hsize
  · right
    cases hparse : p.parse (cString delivered) with
    | ok root => exact ⟨root, rfl⟩
    | error position => exact absurd h (not_dependsOnFile_of_holdable hsize hn (holdable_delivered hn) hparse)

theorem conclude_congr {root root' : CJson} (h : ∀ name, root'.getObjectItem name = root.getObjectItem name) :
    conclude swLen swVersion period root' = conclude swLen swVersion period root := by
  simp only [conclude, h]

theorem dependsOnFile_of_accepted {size : Int64} (hn : delivered.length ≤ size.toNatClampNeg)
    (hone : 0 ∈ delivered ∨ delivered.length = size.toNatClampNeg ∨ p.Continues) {root : CJson}
    (hroot : p.parse (cString delivered) = .ok root) :
    DependsOnFile p path size delivered swLen swVersion period := by
  by_cases hsize : size ≤ 0
  · exact dependsOnFile_of_nonpos hsize
  apply dependsOnFile_of_report hsize hn
  intro text htext
  rw [← or_assoc] at hone
  obtain hone | hcontinues := hone
  · rw [htext.eq_delivered hone]
    exact ⟨root, hroot, rfl⟩
  · cases htext with
    | cut => exact ⟨root, hroot, rfl⟩
    | stale rest hzero hrest =>
      rw [cString_self hzero] at hroot
      obtain ⟨root', hroot', hsame⟩ := hcontinues _ _ _ hrest hroot
      exact ⟨root', hroot', conclude_congr hsame⟩

/-- After a read that leaves no stale byte in the string the call depends on the file if and only if the parser
accepts what was read. After any read it does if all that the block can hold is accepted alike, and it does not if
some of it is refused; for a parser that stops after the value, as `cJSON_Parse` does, what was read decides. -/
theorem dependsOnFile_iff (p : Parser) (path : CString) (size : Int64) (delivered : List UInt8) (swLen : ℕ)
    (swVersion : CString) (period : Int32) (hn : delivered.length ≤ size.toNatClampNeg) :
    (0 ∈ delivered ∨ delivered.length = size.toNatClampNeg ∨ p.Continues →
      (DependsOnFile p path size delivered swLen swVersion period ↔
        size ≤ 0 ∨ ∃ root, p.parse (cString delivered) = .ok root)) ∧
    ((∃ root, ∀ text, Holdable size.toNatClampNeg delivered text → p.parse text = .ok root) →
      DependsOnFile p path size delivered swLen swVersion period) ∧
    (∀ text position, 0 < size → Holdable size.toNatClampNeg delivered text → p.parse text = .error position →
      ¬ DependsOnFile p path size delivered swLen swVersion period) := by
  refine ⟨fun hone => ⟨accepted_of_dependsOnFile hn, ?_⟩, ?_, ?_⟩
  · rintro (hsize | ⟨root, hroot⟩)
    · exact dependsOnFile_of_nonpos hsize
    · exact dependsOnFile_of_accepted hn hone hroot
  · rintro ⟨root, hroot⟩
    by_cases hsize : size ≤ 0
    · exact dependsOnFile_of_nonpos hsize
    · exact dependsOnFile_of_report hsize hn fun text htext => ⟨root, hroot text htext, rfl⟩
  · intro text position hpos htext hparse
    exact not_dependsOnFile_of_holdable (Int64.not_le.mpr hpos) hn htext hparse

def emptyObject : Parser where
  parse text := if [123, 125] <+: text then .ok (.object []) else .error 0
  inside := by
    intro text position h
    split_ifs at h
    cases h
    exact Nat.zero_le _

theorem dependsOnFile_iff_short : DependsOnFile emptyObject [] 3 [123, 125] 64 [] 5 := by
  have hcontinues : emptyObject.Continues := by
    intro text rest root _ hroot
    by_cases h : [123, 125] <+: text
    · obtain rfl : CJson.object [] = root := Except.ok.inj ((if_pos h).symm.trans hroot)
      exact ⟨.object [], if_pos (h.trans (List.prefix_append text rest)), fun _ => rfl⟩
    · cases (if_neg h).symm.trans hroot
  have hiff := (dependsOnFile_iff emptyObject [] 3 [123, 125] 64 [] 5 (by decide)).1 (.inr (.inr hcontinues))
  exact hiff.mpr (.inr ⟨.object [], rfl⟩)

theorem not_dependsOnFile : ¬ ∀ (p : Parser) (path : CString) (size : Int64) (delivered : List UInt8) (swLen : ℕ)
    (swVersion : CString) (period : Int32), delivered.length ≤ size.toNatClampNeg →
    DependsOnFile p path size delivered swLen swVersion period := by
  intro h
  have hdepends := h emptyObject [] 1 [120] 64 [] 5 (by decide)
  have herror : emptyObject.parse (cString (fill [0, 0] [120] (1 : Int64).toNatClampNeg)) = .error 0 := by rfl
  exact not_dependsOnFile_of_error (by decide) (by decide) (by decide) herror hdepends

theorem cString_fill_whole (hblock : block.length = sz + 1) (hn : delivered.length = sz) :
    cString (fill block delivered sz) = cString delivered := by
  have hlast : (block.drop delivered.length).set (sz - delivered.length) 0 = [0] := by
    obtain ⟨b, hb⟩ : ∃ b, block.drop delivered.length = [b] := by
      apply List.length_eq_one_iff.mp
      rw [List.length_drop]
      omega
    rw [hb, hn, Nat.sub_self]
    rfl
  rw [fill_eq (Nat.le_of_eq hn), hlast]
  by_cases hzero : 0 ∈ delivered
  · rw [cString_append_zero hzero]
  · rw [cString_append hzero, cString_self hzero]
    exact List.append_nil _

theorem parseConfigFile_whole {size : Int64} (hblock : block.length = size.toNatClampNeg + 1)
    (hn : delivered.length = size.toNatClampNeg) :
    let report := parseConfigFile p path (.opened size delivered) (some block) freed swLen swVersion period
    (report.ret, report.swVersion, report.period) =
      Telemetry.parseConfigFile (fun text => (p.parse text).toOption) (some delivered) swLen swVersion period := by
  have hempty : size ≤ 0 ↔ delivered.length ≤ 0 := by
    rw [hn, Int64.le_iff_toInt_le]
    exact Int.toNat_le.symm
  have htext := cString_fill_whole hblock hn
  by_cases hsize : size ≤ 0
  · simp only [parseConfigFile, Telemetry.parseConfigFile, hsize, hempty.mp hsize, if_true]
  · have hlength : ¬ delivered.length ≤ 0 := fun hle => hsize (hempty.mpr hle)
    simp only [Telemetry.parseConfigFile, hlength, if_false]
    cases hparse : p.parse (cString delivered) with
    | error position =>
      rw [← htext] at hparse
      rw [parse_error hsize hparse]
      rfl
    | ok root =>
      rw [← htext] at hparse
      rw [parse_ok hsize hparse]
      rfl

end EmbeddedLinuxTraining.Telemetry.ConfigRead
