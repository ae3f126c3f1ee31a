import Mathlib.Algebra.Group.Nat.Defs
import EmbeddedLinuxTraining.Library.LittleEndian
import EmbeddedLinuxTraining.Library.RecordWalk
import EmbeddedLinuxTraining.Library.Solo
import EmbeddedLinuxTraining.Telemetry.Program

/-!
The loops over the events that one `read` of an inotify descriptor returns: in `monitor_thread_fn`
of seance6/project/main.c and in `main` of seance_4/inotify.c.
-/

namespace EmbeddedLinuxTraining.Inotify

open Library Library.LittleEndian
open Telemetry (CString cString CJson CONFIG_FILE Shared Locals Settings)

structure Header where
  wd : Int32
  mask : UInt32
  cookie : UInt32
  len : UInt32
  deriving DecidableEq

structure Record where
  wd : Int32
  mask : UInt32
  cookie : UInt32
  name : List UInt8
  deriving DecidableEq

structure Event extends Record where
  padded : name = [] ∨
    ∃ chars pad, chars ≠ [] ∧ 0 ∉ chars ∧ 0 < pad ∧ name = chars ++ List.replicate pad 0

def EVENT_SIZE : ℕ := 16

def IN_MODIFY : UInt32 := 0x00000002

def IN_CLOSE_WRITE : UInt32 := 0x00000008

def IN_MOVED_FROM : UInt32 := 0x00000040

def IN_MOVED_TO : UInt32 := 0x00000080

def IN_DELETE : UInt32 := 0x00000200

def IN_DELETE_SELF : UInt32 := 0x00000400

def IN_MOVE_SELF : UInt32 := 0x00000800

def IN_IGNORED : UInt32 := 0x00008000

def Record.header (r : Record) : Header := ⟨r.wd, r.mask, r.cookie, UInt32.ofNat r.name.length⟩

def Record.bytes (r : Record) : List UInt8 :=
  toBytes 4 r.wd.toUInt32.toNat ++ toBytes 4 r.mask.toNat ++ toBytes 4 r.cookie.toNat ++
    toBytes 4 r.name.length ++ r.name

def serialise (events : List Event) : List UInt8 := events.flatMap fun e => e.bytes

def word (data : List UInt8) (offset : ℕ) : UInt32 := UInt32.ofNat (ofBytes ((data.drop offset).take 4))

def readHeader (data : List UInt8) : Option Header :=
  if EVENT_SIZE ≤ data.length then some ⟨(word data 0).toInt32, word data 4, word data 8, word data 12⟩
  else none

def format : RecordWalk.Format UInt8 Header where
  header := readHeader
  size h := EVENT_SIZE + h.len.toNat
  size_pos h := Nat.lt_of_lt_of_le (by decide) (Nat.le_add_right _ _)

def Header.record (h : Header) (data : List UInt8) : Record :=
  ⟨h.wd, h.mask, h.cookie, (data.drop EVENT_SIZE).take h.len.toNat⟩

def strcmp : List UInt8 → CString → Option Bool
  | [], _ => none
  | b :: _, [] => some (b = 0)
  | b :: bs, c :: cs => if b = c then strcmp bs cs else some false

/-- `visited` and `reloaded` are history: the events at which the body and the reload branch have run.
`writes` counts the calls of `eventfd_write`. -/
structure Batch where
  shared : Shared
  locals : Locals
  visited : List Record
  reloaded : List Record
  writes : ℕ

variable (cJSONParse : CString → Option CJson)

def Batch.reload (b : Batch) (r : Record) : Batch :=
  let b := { b with reloaded := b.reloaded ++ [r] }
  let x := Telemetry.parse cJSONParse b.shared b.locals
  if x.2.monitor.ok then
    let x := Telemetry.testChanged x.1 x.2
    let x := Telemetry.storeVersion .reload x.1 x.2
    let x := Telemetry.storePeriod x.1 x.2
    let x := Telemetry.storeValid x.1 x.2
    if x.2.monitor.changed then
      let x := Telemetry.notify x.1 x.2
      { b with shared := x.1, locals := x.2, writes := b.writes + 1 }
    else { b with shared := x.1, locals := x.2 }
  else { b with shared := x.1, locals := x.2 }

/-- `files` is the content of config.json at the first event, at the second, and so on. -/
def monitorEvent (files : ℕ → Option (List UInt8)) (h : Header) (data : List UInt8) (b : Batch) :
    Option (Batch × Bool) :=
  let b := { b with
    shared := { b.shared with file := files b.visited.length }
    visited := b.visited ++ [h.record data] }
  if h.len ≠ 0 then
    (strcmp (data.drop EVENT_SIZE) CONFIG_FILE).map fun same =>
      if same = true ∧ h.mask &&& (IN_DELETE ||| IN_MOVED_FROM) = 0 then
        (b.reload cJSONParse (h.record data), true)
      else (b, true)
  else some (b, true)

def monitorWalk (files : ℕ → Option (List UInt8)) (data : List UInt8) (b : Batch) :
    RecordWalk.Outcome Batch :=
  RecordWalk.walk format (monitorEvent cJSONParse files) data 0 b

structure Watch where
  visited : List Record
  stdout : List String
  closed : Bool

def BUF_LEN : ℕ := 1024 * (EVENT_SIZE + 16)

def Watch.report (mask : UInt32) : List String :=
  (if mask &&& IN_MODIFY ≠ 0 then ["-> modified (write in progress)\n"] else []) ++
    (if mask &&& IN_CLOSE_WRITE ≠ 0 then ["-> write finished (writer closed the file)\n"] else []) ++
    (if mask &&& IN_DELETE_SELF ≠ 0 then ["-> file was deleted\n"] else []) ++
    (if mask &&& IN_MOVE_SELF ≠ 0 then ["-> file was moved/renamed away\n"] else []) ++
    (if mask &&& IN_IGNORED ≠ 0 then ["watch is no longer valid, exiting\n"] else [])

/-- With IN_IGNORED `main` closes the descriptor and returns 0. -/
def watchEvent (h : Header) (data : List UInt8) (w : Watch) : Option (Watch × Bool) :=
  let ignored : Bool := h.mask &&& IN_IGNORED ≠ 0
  some (⟨w.visited ++ [h.record data], w.stdout ++ Watch.report h.mask, w.closed || ignored⟩, !ignored)

def watchWalk (data : List UInt8) (w : Watch) : RecordWalk.Outcome Watch :=
  RecordWalk.walk format watchEvent data 0 w

def Record.reloads (r : Record) : Bool :=
  cString r.name = CONFIG_FILE ∧ r.mask &&& IN_DELETE = 0 ∧ r.mask &&& IN_MOVED_FROM = 0

def Record.ignored (r : Record) : Bool := r.mask &&& IN_IGNORED ≠ 0

def Batch.visit (files : ℕ → Option (List UInt8)) (r : Record) (b : Batch) : Batch × Bool :=
  let b := { b with
    shared := { b.shared with file := files b.visited.length }
    visited := b.visited ++ [r] }
  (if r.reloads then b.reload cJSONParse r else b, true)

def Watch.visit (r : Record) (w : Watch) : Watch × Bool :=
  (⟨w.visited ++ [r], w.stdout ++ Watch.report r.mask, w.closed || r.ignored⟩, !r.ignored)

variable {cJSONParse} {r : Record} {e : Event} {events : List Event} {files : ℕ → Option (List UInt8)}

theorem word_bytes {n : ℕ} (before : List UInt8) (hn : n < 2 ^ 32) (rest : List UInt8) :
    word (before ++ (toBytes 4 n ++ rest)) before.length = UInt32.ofNat n := by
  rw [word, List.drop_left, List.take_left' (length_toBytes 4 n), ofBytes_toBytes 4 n hn]

theorem length_bytes (r : Record) : r.bytes.length = EVENT_SIZE + r.name.length := by
  simp [Record.bytes, EVENT_SIZE]
  omega

theorem readHeader_bytes (hname : r.name.length < 2 ^ 32) (rest : List UInt8) :
    readHeader (r.bytes ++ rest) = some r.header := by
  have hsize : EVENT_SIZE ≤ (r.bytes ++ rest).length := by
    rw [List.length_append, length_bytes]
    omega
  have hwd : word (r.bytes ++ rest) 0 = r.wd.toUInt32 := by
    have h := word_bytes [] r.wd.toUInt32.toNat_lt
      (toBytes 4 r.mask.toNat ++ (toBytes 4 r.cookie.toNat ++ (toBytes 4 r.name.length ++ (r.name ++ rest))))
    simpa [Record.bytes] using h
  have hmask : word (r.bytes ++ rest) 4 = r.mask := by
    have h := word_bytes (toBytes 4 r.wd.toUInt32.toNat) r.mask.toNat_lt
      (toBytes 4 r.cookie.toNat ++ (toBytes 4 r.name.length ++ (r.name ++ rest)))
    simpa [Record.bytes] using h
  have hcookie : word (r.bytes ++ rest) 8 = r.cookie := by
    have h := word_bytes (toBytes 4 r.wd.toUInt32.toNat ++ toBytes 4 r.mask.toNat) r.cookie.toNat_lt
      (toBytes 4 r.name.length ++ (r.name ++ rest))
    simpa [Record.bytes] using h
  have hlen : word (r.bytes ++ rest) 12 = UInt32.ofNat r.name.length := by
    have h := word_bytes (toBytes 4 r.wd.toUInt32.toNat ++ toBytes 4 r.mask.toNat ++
      toBytes 4 r.cookie.toNat) hname (r.name ++ rest)
    simpa [Record.bytes] using h
  rw [readHeader, if_pos hsize, hwd, hmask, hcookie, hlen]
  simp [Record.header]

theorem size_header (hname : r.name.length < 2 ^ 32) : format.size r.header = r.bytes.length := by
  have hlen : (UInt32.ofNat r.name.length).toNat = r.name.length := UInt32.toNat_ofNat_of_lt' hname
  rw [length_bytes]
  change EVENT_SIZE + (UInt32.ofNat r.name.length).toNat = _
  rw [hlen]

theorem drop_bytes (r : Record) (rest : List UInt8) : (r.bytes ++ rest).drop EVENT_SIZE = r.name ++ rest := by
  have hlength : (toBytes 4 r.wd.toUInt32.toNat ++ toBytes 4 r.mask.toNat ++ toBytes 4 r.cookie.toNat ++
      toBytes 4 r.name.length).length = EVENT_SIZE := by
    simp [EVENT_SIZE]
  rw [Record.bytes, List.append_assoc, ← hlength, List.drop_left]

theorem record_bytes (hname : r.name.length < 2 ^ 32) (rest : List UInt8) :
    r.header.record (r.bytes ++ rest) = r := by
  have hlen : (UInt32.ofNat r.name.length).toNat = r.name.length := UInt32.toNat_ofNat_of_lt' hname
  simp only [Header.record, Record.header, drop_bytes, hlen, List.take_left]

theorem strcmp_padded {chars : List UInt8} {s : CString} (hchars : 0 ∉ chars) (hs : 0 ∉ s) {pad : ℕ}
    (hpad : 0 < pad) (rest : List UInt8) :
    strcmp (chars ++ List.replicate pad 0 ++ rest) s = some (decide (chars = s)) := by
  obtain ⟨k, rfl⟩ : ∃ k, pad = k + 1 := ⟨pad - 1, by omega⟩
  induction chars generalizing s with
  | nil =>
    cases s with
    | nil => simp [List.replicate_succ, strcmp]
    | cons c s =>
      have hc : (0 : UInt8) ≠ c := fun h => hs (h ▸ List.mem_cons_self)
      simp [List.replicate_succ, strcmp, hc]
  | cons b chars ih =>
    obtain ⟨hb, hchars⟩ := List.ne_and_not_mem_of_not_mem_cons hchars
    cases s with
    | nil => simp [strcmp, hb.symm]
    | cons c s =>
      have hrest := ih hchars (fun hmem => hs (List.mem_cons_of_mem _ hmem))
      rw [List.append_assoc] at hrest
      by_cases he : b = c
      · simp [strcmp, he, hrest]
      · simp [strcmp, he]

theorem mask_neither (mask : UInt32) :
    mask &&& (IN_DELETE ||| IN_MOVED_FROM) = 0 ↔ mask &&& IN_DELETE = 0 ∧ mask &&& IN_MOVED_FROM = 0 := by
  have hdistrib : mask &&& (IN_DELETE ||| IN_MOVED_FROM) = mask &&& IN_DELETE ||| mask &&& IN_MOVED_FROM := by
    apply UInt32.toBitVec_inj.mp
    ext i
    simp [Bool.and_or_distrib_left]
  rw [hdistrib, UInt32.or_eq_zero_iff]

theorem cString_name (e : Event) : e.name = [] ∨ 0 < e.name.length ∧ ∀ rest,
    strcmp (e.name ++ rest) CONFIG_FILE = some (decide (cString e.name = CONFIG_FILE)) := by
  obtain hnil | ⟨chars, pad, -, hchars, hpad, hname⟩ := e.padded
  · exact .inl hnil
  · right
    have hnul : (0 : UInt8) ∉ CONFIG_FILE := by decide
    have hcString : cString e.name = chars := by
      obtain ⟨k, rfl⟩ : ∃ k, pad = k + 1 := ⟨pad - 1, by omega⟩
      rw [hname, Telemetry.cString_append hchars, List.replicate_succ]
      exact List.append_nil chars
    constructor
    · rw [hname, List.length_append, List.length_replicate]
      omega
    · intro rest
      rw [hcString, hname]
      exact strcmp_padded hchars hnul hpad rest

theorem monitorEvent_bytes (e : Event) (hname : e.name.length < 2 ^ 32) (rest : List UInt8) (b : Batch) :
    monitorEvent cJSONParse files e.header (e.bytes ++ rest) b =
      some (b.visit cJSONParse files e.toRecord) := by
  have hlen : e.header.len.toNat = e.name.length := UInt32.toNat_ofNat_of_lt' hname
  unfold monitorEvent
  rw [record_bytes hname, drop_bytes]
  obtain hnil | ⟨hpos, hstrcmp⟩ := cString_name e
  · have hzero : e.header.len = 0 := by
      apply UInt32.toNat_inj.mp
      rw [hlen, hnil]
      rfl
    have hother : e.reloads = false := by
      simp [Record.reloads, hnil, cString, CONFIG_FILE, Telemetry.ascii]
    simp [hzero, Batch.visit, hother]
  · have hnonzero : e.header.len ≠ 0 := by
      intro hzero
      rw [hzero] at hlen
      change 0 = e.name.length at hlen
      omega
    have hmask : e.header.mask = e.mask := rfl
    simp only [if_pos hnonzero, hstrcmp rest, Option.map_some, hmask, mask_neither, decide_eq_true_eq,
      Batch.visit, Record.reloads]
    split_ifs <;> rfl

theorem watchEvent_bytes (e : Event) (hname : e.name.length < 2 ^ 32) (rest : List UInt8) (w : Watch) :
    watchEvent e.header (e.bytes ++ rest) w = some (w.visit e.toRecord) := by
  unfold watchEvent
  rw [record_bytes hname]
  rfl

theorem name_length_lt (hfit : (serialise events).length < 2 ^ 32) (hmem : e ∈ events) :
    e.name.length < 2 ^ 32 := by
  have hle : e.bytes.length ≤ (serialise events).length := by
    have hsub : e.bytes.Sublist (serialise events) := by
      rw [serialise, List.flatMap_def]
      exact List.sublist_flatten_of_mem (List.mem_map_of_mem hmem)
    exact hsub.length_le
  rw [length_bytes] at hle
  omega

theorem walk_serialise {σ : Type} {body : Header → List UInt8 → σ → Option (σ × Bool)}
    {act : Event → σ → σ × Bool} (events : List Event) (hfit : (serialise events).length < 2 ^ 32)
    (hbody : ∀ e : Event, e.name.length < 2 ^ 32 →
      ∀ rest s, body e.header (e.bytes ++ rest) s = some (act e s)) (s : σ) :
    RecordWalk.walk format body (serialise events) 0 s =
      RecordWalk.outcome (serialise events).length (RecordWalk.visit act events s) := by
  have hheader : ∀ e ∈ events, ∀ rest, format.header (e.bytes ++ rest) = some e.header :=
    fun e hmem rest => readHeader_bytes (name_length_lt hfit hmem) rest
  have hsize : ∀ e ∈ events, format.size e.header = e.bytes.length :=
    fun e hmem => size_header (name_length_lt hfit hmem)
  have hact : ∀ e ∈ events, ∀ rest s, body e.header (e.bytes ++ rest) s = some (act e s) :=
    fun e hmem rest s => hbody e (name_length_lt hfit hmem) rest s
  exact RecordWalk.walk_encoded hheader hsize hact [] s

theorem soloRun_reload (x : Telemetry.Input) (b : Batch) (r : Record) :
    ∃ n, Pthread.soloRun (Telemetry.code cJSONParse) x .monitor n
        ⟨b.shared, none, .monitor (.parse .reload), b.locals⟩ =
      some ⟨(b.reload cJSONParse r).shared, none, .monitor .next, (b.reload cJSONParse r).locals⟩ := by
  unfold Batch.reload
  by_cases hok : (Telemetry.parse cJSONParse b.shared b.locals).2.monitor.ok = true
  · by_cases hchanged : (Telemetry.testChanged (Telemetry.parse cJSONParse b.shared b.locals).1
        (Telemetry.parse cJSONParse b.shared b.locals).2).2.monitor.changed = true
    · refine ⟨10, ?_⟩
      simp [Pthread.soloRun, Pthread.soloNext, Telemetry.code, Telemetry.monitorThreadFn, Pthread.Instr.run,
        hok, Telemetry.storeVersion, Telemetry.storePeriod, Telemetry.storeValid, Telemetry.notify, hchanged]
    · refine ⟨9, ?_⟩
      simp [Pthread.soloRun, Pthread.soloNext, Telemetry.code, Telemetry.monitorThreadFn, Pthread.Instr.run,
        hok, Telemetry.storeVersion, Telemetry.storePeriod, Telemetry.storeValid, hchanged]
  · refine ⟨2, ?_⟩
    simp [Pthread.soloRun, Pthread.soloNext, Telemetry.code, Telemetry.monitorThreadFn, Pthread.Instr.run,
      hok]

@[simp] theorem reload_visited (b : Batch) (r : Record) : (b.reload cJSONParse r).visited = b.visited := by
  unfold Batch.reload
  simp only
  split_ifs <;> rfl

@[simp] theorem reload_reloaded (b : Batch) (r : Record) :
    (b.reload cJSONParse r).reloaded = b.reloaded ++ [r] := by
  unfold Batch.reload
  simp only
  split_ifs <;> rfl

theorem visit_batch (cJSONParse : CString → Option CJson) (files : ℕ → Option (List UInt8))
    (events : List Event) (b : Batch) :
    ∃ t, RecordWalk.visit (fun e => Batch.visit cJSONParse files e.toRecord) events b = (t, true) ∧
      t.visited = b.visited ++ events.map Event.toRecord ∧
      t.reloaded = b.reloaded ++ (events.map Event.toRecord).filter Record.reloads := by
  induction events generalizing b with
  | nil => exact ⟨b, rfl, by simp, by simp⟩
  | cons e events ih =>
    obtain ⟨t, hvisit, hvisited, hreloaded⟩ := ih (b.visit cJSONParse files e.toRecord).1
    refine ⟨t, hvisit, ?_, ?_⟩
    · rw [hvisited, Batch.visit]
      split_ifs <;> simp
    · rw [hreloaded, Batch.visit]
      split_ifs with hreloads <;> simp [hreloads]

theorem reload_of_settings {b : Batch} {content : List UInt8} {settings : Settings}
    (hfile : b.shared.file = some content) (h : Telemetry.settingsOf cJSONParse content = some settings)
    (r : Record) :
    (b.reload cJSONParse r).shared.gCfg.pair = settings ∧
      (b.reload cJSONParse r).writes = if b.shared.gCfg.pair = settings then b.writes else b.writes + 1 := by
  have hparse := Telemetry.parseConfigFile_of_settings cJSONParse b.locals.monitor.version
    b.locals.monitor.period h
  have hversion := Telemetry.snprintf_settings cJSONParse h
  have hchanged : (settings.periodSec ≠ b.shared.gCfg.periodSec ||
      settings.swVersion ≠ b.shared.gCfg.swVersion) = decide (b.shared.gCfg.pair ≠ settings) := by
    cases settings
    simp [Telemetry.SharedConfig.pair, eq_comm, and_comm]
  unfold Batch.reload
  simp only [Telemetry.parse, hfile, hparse, Telemetry.testChanged, Telemetry.storeVersion,
    Telemetry.storePeriod, Telemetry.storeValid, Telemetry.notify, hversion, hchanged, decide_true, if_true]
  by_cases hsame : b.shared.gCfg.pair = settings
  · simp only [hsame, ne_eq, not_true_eq_false, decide_false, Bool.false_eq_true, if_false, if_true]
    exact ⟨rfl, trivial⟩
  · simp only [hsame, ne_eq, not_false_eq_true, decide_true, if_false, if_true]
    exact ⟨rfl, trivial⟩

theorem reload_of_none {b : Batch} (h : b.shared.file.bind (Telemetry.settingsOf cJSONParse) = none)
    (r : Record) :
    (b.reload cJSONParse r).shared.gCfg = b.shared.gCfg ∧ (b.reload cJSONParse r).writes = b.writes := by
  have hfail : (Telemetry.parse cJSONParse b.shared b.locals).2.monitor.ok = false := by
    apply decide_eq_false
    intro hok
    obtain ⟨content, settings, hfile, hsettings⟩ := Telemetry.settings_of_parseConfigFile cJSONParse hok
    rw [hfile, Option.bind_some, hsettings] at h
    cases h
  unfold Batch.reload
  simp only [hfail]
  exact ⟨rfl, rfl⟩

/-- After the first eventfd write of a batch, `g_cfg` holds what the file states. -/
def Batch.Notified (cJSONParse : CString → Option CJson) (content : Option (List UInt8)) (writes : ℕ)
    (b : Batch) : Prop :=
  b.writes = writes ∨
    b.writes = writes + 1 ∧ content.bind (Telemetry.settingsOf cJSONParse) = some b.shared.gCfg.pair

theorem reload_notified {b : Batch} {content : Option (List UInt8)} {writes : ℕ}
    (hfile : b.shared.file = content) (h : b.Notified cJSONParse content writes) (r : Record) :
    (b.reload cJSONParse r).Notified cJSONParse content writes := by
  unfold Batch.Notified at *
  cases hsettings : content.bind (Telemetry.settingsOf cJSONParse) with
  | none =>
    have hsame := reload_of_none (by rwa [hfile]) r
    rwa [hsame.1, hsame.2, ← hsettings]
  | some settings =>
    obtain ⟨bytes, rfl, hbytes⟩ := Option.bind_eq_some_iff.mp hsettings
    obtain ⟨hpair, hwrites⟩ := reload_of_settings hfile hbytes r
    rw [hpair, hwrites]
    rw [hsettings] at h
    obtain hquiet | ⟨hwritten, hheld⟩ := h
    · split_ifs
      · exact .inl hquiet
      · exact .inr ⟨congrArg Nat.succ hquiet, rfl⟩
    · rw [if_pos (Option.some.inj hheld).symm]
      exact .inr ⟨hwritten, rfl⟩

theorem visit_notified {content : Option (List UInt8)} (hfiles : ∀ k, files k = content) {writes : ℕ}
    {b : Batch} (h : b.Notified cJSONParse content writes) (r : Record) :
    (b.visit cJSONParse files r).1.Notified cJSONParse content writes := by
  unfold Batch.visit
  simp only
  split_ifs
  · apply reload_notified (hfiles _)
    exact h
  · exact h

theorem batch_notified (cJSONParse : CString → Option CJson) {content : Option (List UInt8)}
    (hfiles : ∀ k, files k = content) (events : List Event) (b : Batch) :
    (RecordWalk.visit (fun e => Batch.visit cJSONParse files e.toRecord) events b).1.Notified
      cJSONParse content b.writes := by
  apply RecordWalk.visit_keeps
  · intro e _ b h
    exact visit_notified hfiles h e.toRecord
  · exact .inl rfl

def upTo (rs : List Record) : List Record :=
  rs.takeWhile (fun r => !r.ignored) ++ (rs.find? Record.ignored).toList

theorem visit_watch (events : List Event) (w : Watch) :
    let rs := events.map Event.toRecord
    let s := RecordWalk.visit (fun e => Watch.visit e.toRecord) events w
    s.1.visited = w.visited ++ upTo rs ∧
      s.1.stdout = w.stdout ++ (upTo rs).flatMap (fun r => Watch.report r.mask) ∧
      s.1.closed = (w.closed || rs.any Record.ignored) ∧ s.2 = !rs.any Record.ignored := by
  intro rs s
  induction events generalizing w with
  | nil => simp [s, rs, upTo, RecordWalk.visit]
  | cons e events ih =>
    obtain ⟨hvisited, hstdout, hclosed, hend⟩ := ih (w.visit e.toRecord).1
    cases hignored : e.toRecord.ignored with
    | true => simp [s, rs, upTo, RecordWalk.visit, Watch.visit, hignored]
    | false =>
      have hrun : s = RecordWalk.visit (fun e => Watch.visit e.toRecord) events (w.visit e.toRecord).1 := by
        simp [s, RecordWalk.visit, Watch.visit, hignored]
      rw [hrun, hvisited, hstdout, hclosed, hend]
      simp [rs, upTo, Watch.visit, hignored]

theorem event_walks (cJSONParse : CString → Option CJson) (events : List Event) :
    let rs := events.map Event.toRecord
    ((serialise events).length ≤ 4096 → ∀ files b, ∃ t,
      monitorWalk cJSONParse files (serialise events) b = .finished (serialise events).length t ∧
      t.visited = b.visited ++ rs ∧ t.reloaded = b.reloaded ++ rs.filter Record.reloads ∧
      ((∃ content, ∀ k, files k = content) → t.writes ≤ b.writes + 1)) ∧
    ((serialise events).length ≤ BUF_LEN → ∀ w, ∃ t,
      watchWalk (serialise events) w =
        (if rs.any Record.ignored then .stopped t else .finished (serialise events).length t) ∧
      t.visited = w.visited ++ upTo rs ∧
      t.stdout = w.stdout ++ (upTo rs).flatMap (fun r => Watch.report r.mask) ∧
      t.closed = (w.closed || rs.any Record.ignored)) := by
  intro rs
  constructor
  · intro hfit files b
    obtain ⟨t, hvisit, hvisited, hreloaded⟩ := visit_batch cJSONParse files events b
    refine ⟨t, ?_, hvisited, hreloaded, ?_⟩
    · have hbody : ∀ e : Event, e.name.length < 2 ^ 32 → ∀ rest b,
          monitorEvent cJSONParse files e.header (e.bytes ++ rest) b =
            some (b.visit cJSONParse files e.toRecord) := monitorEvent_bytes
      have hwalk := walk_serialise events (Nat.lt_of_le_of_lt hfit (by decide)) hbody b
      rw [monitorWalk, hwalk, hvisit]
      rfl
    · rintro ⟨content, hfiles⟩
      have hnotified := batch_notified cJSONParse hfiles events b
      rw [hvisit] at hnotified
      obtain hquiet | ⟨hwritten, -⟩ := hnotified
      · exact Nat.le_succ_of_le (Nat.le_of_eq hquiet)
      · exact Nat.le_of_eq hwritten
  · intro hfit w
    obtain ⟨hvisited, hstdout, hclosed, hend⟩ := visit_watch events w
    refine ⟨(RecordWalk.visit (fun e => Watch.visit e.toRecord) events w).1, ?_, hvisited, hstdout, hclosed⟩
    have hwalk := walk_serialise events (Nat.lt_of_le_of_lt hfit (by decide)) watchEvent_bytes w
    rw [watchWalk, hwalk, RecordWalk.outcome, hend]
    by_cases hignored : rs.any Record.ignored = true
    · simp [rs, hignored]
    · simp [rs, hignored]

def nameless (mask : UInt32) : Event := ⟨⟨1, mask, 0, []⟩, .inl rfl⟩

def saved : Event := ⟨⟨1, IN_CLOSE_WRITE, 0, CONFIG_FILE ++ List.replicate 5 0⟩,
  .inr ⟨CONFIG_FILE, 5, by decide, by decide, by decide, rfl⟩⟩

def accepting : CString → Option CJson := fun _ =>
  some (.object [(Telemetry.SW_VERSION, .string (Telemetry.ascii ['2'])),
    (Telemetry.PERIOD, .number 7 (Binary64.nearest false 7 1))])

theorem event_walks_saved :
    (∀ files b, ∃ t,
      monitorWalk accepting files (serialise [nameless IN_MODIFY, saved, nameless IN_IGNORED, saved]) b =
        .finished 96 t ∧
      t.visited = b.visited ++ [nameless IN_MODIFY, saved, nameless IN_IGNORED, saved].map Event.toRecord ∧
      t.reloaded = b.reloaded ++ [saved.toRecord, saved.toRecord] ∧
      ((∃ content, ∀ k, files k = content) → t.writes ≤ b.writes + 1)) ∧
    ∀ w, ∃ t, watchWalk (serialise [nameless IN_DELETE_SELF, nameless IN_IGNORED]) w = .stopped t ∧
      t.visited = w.visited ++ [nameless IN_DELETE_SELF, nameless IN_IGNORED].map Event.toRecord ∧
      t.stdout = w.stdout ++ ["-> file was deleted\n", "watch is no longer valid, exiting\n"] ∧
      t.closed = (w.closed || true) := by
  constructor
  · exact (event_walks accepting [nameless IN_MODIFY, saved, nameless IN_IGNORED, saved]).1 (by decide)
  · exact (event_walks accepting [nameless IN_DELETE_SELF, nameless IN_IGNORED]).2 (by decide)

theorem not_event_walks : ¬ ∀ events : List Event, (serialise events).length ≤ BUF_LEN → ∀ w, ∃ t,
    watchWalk (serialise events) w = .finished (serialise events).length t ∧
      t.visited = w.visited ++ events.map Event.toRecord := by
  intro h
  obtain ⟨t, hfinished, -⟩ := h [nameless IN_DELETE_SELF, nameless IN_IGNORED] (by decide) ⟨[], [], false⟩
  have hwalk := walk_serialise [nameless IN_DELETE_SELF, nameless IN_IGNORED] (by decide) watchEvent_bytes
    ⟨[], [], false⟩
  rw [watchWalk, hwalk] at hfinished
  cases hfinished

def bits : Telemetry.Mask → UInt32
  | .closeWrite => IN_CLOSE_WRITE
  | .movedTo => IN_MOVED_TO
  | .delete => IN_DELETE
  | .movedFrom => IN_MOVED_FROM

theorem reloads_bits {mask : Telemetry.Mask} (h : r.mask = bits mask) :
    r.reloads = Telemetry.Event.reloads ⟨mask, cString r.name⟩ := by
  have hdelete : bits mask &&& IN_DELETE = 0 ↔ mask ≠ .delete := by cases mask <;> decide
  have hmoved : bits mask &&& IN_MOVED_FROM = 0 ↔ mask ≠ .movedFrom := by cases mask <;> decide
  unfold Record.reloads Telemetry.Event.reloads
  simp only [h, hdelete, hmoved]
  cases mask <;> simp

end EmbeddedLinuxTraining.Inotify
