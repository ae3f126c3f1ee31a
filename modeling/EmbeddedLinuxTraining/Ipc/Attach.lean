import Mathlib.Data.Nat.Notation
import Mathlib.Logic.Function.Basic
import EmbeddedLinuxTraining.Ipc.Message
import EmbeddedLinuxTraining.Library.Transition

/-!
How `ShmWorker.run` of py_gui.py finds the shared memory and the semaphore, while `main` of
backend.c unlinks and creates them. Every call is one step.
-/

namespace EmbeddedLinuxTraining.Ipc.Attach

open Library.Transition

abbrev Object := ℕ

inductive ServerPoint
  | shmUnlink | shmOpen | ftruncate | mmap | memset | semUnlink | semOpen | up | exited
  deriving DecidableEq

inductive WorkerPoint
  | connect | openShm | openSem | check | mmap | poll | returned | raised
  deriving DecidableEq

structure Server where
  pc : ServerPoint
  shm : Option Object
  sem : Option Object

structure Worker where
  pc : WorkerPoint
  running : Bool
  shm : Option Object
  sem : Option Object

/-- `shmName` and `semName` are what the two names refer to; the objects from `unused` on do
not exist yet. -/
structure State (ι : Type) where
  shmName : Option Object
  semName : Option Object
  size : Object → ℕ
  unused : Object
  server : Server
  worker : ι → Worker

inductive Action (ι : Type)
  | server
  | fail
  | worker (w : ι)
  | stop (w : ι)

variable {ι : Type}

namespace State

def serverNext (s : State ι) : Option (State ι) :=
  match s.server.pc with
  | .shmUnlink => some { s with shmName := none, server := { s.server with pc := .shmOpen } }
  | .shmOpen =>
    match s.shmName with
    | some o => some { s with server := { s.server with pc := .ftruncate, shm := some o } }
    | none =>
      some { s with
        shmName := some s.unused
        size := Function.update s.size s.unused 0
        unused := s.unused + 1
        server := { s.server with pc := .ftruncate, shm := some s.unused } }
  | .ftruncate =>
    some { s with
      size := match s.server.shm with
        | some o => Function.update s.size o MSG_SIZE
        | none => s.size
      server := { s.server with pc := .mmap } }
  | .mmap => some { s with server := { s.server with pc := .memset } }
  | .memset => some { s with server := { s.server with pc := .semUnlink } }
  | .semUnlink => some { s with semName := none, server := { s.server with pc := .semOpen } }
  | .semOpen =>
    match s.semName with
    | some o => some { s with server := { s.server with pc := .up, sem := some o } }
    | none =>
      some { s with
        semName := some s.unused
        unused := s.unused + 1
        server := { s.server with pc := .up, sem := some s.unused } }
  | .up | .exited => none

def failNext (s : State ι) : Option (State ι) :=
  match s.server.pc with
  | .shmOpen | .ftruncate | .mmap | .semOpen =>
    some { s with server := { s.server with pc := .exited } }
  | _ => none

variable [DecidableEq ι]

def setWorker (s : State ι) (w : ι) (x : Worker) : State ι :=
  { s with worker := Function.update s.worker w x }

/-- The statements of `run` up to its polling loop. `mmap` raises on a file that is too short. -/
def workerNext (s : State ι) (w : ι) : Option (State ι) :=
  let x := s.worker w
  match x.pc with
  | .connect =>
    some (s.setWorker w { x with pc := if x.running && x.shm.isNone then .openShm else .check })
  | .openShm =>
    match s.shmName with
    | some o => some (s.setWorker w { x with pc := .openSem, shm := some o })
    | none => some (s.setWorker w { x with pc := .connect })
  | .openSem =>
    match s.semName with
    | some o => some (s.setWorker w { x with pc := .connect, sem := some o })
    | none => some (s.setWorker w { x with pc := .connect })
  | .check => some (s.setWorker w { x with pc := if x.shm.isNone then .returned else .mmap })
  | .mmap =>
    x.shm.map fun o => s.setWorker w { x with pc := if s.size o < MSG_SIZE then .raised else .poll }
  | .poll | .returned | .raised => none

def next (s : State ι) : Action ι → Option (State ι)
  | .server => s.serverNext
  | .fail => s.failNext
  | .worker w => s.workerNext w
  | .stop w => some (s.setWorker w { s.worker w with running := false })

end State

structure Start (s : State ι) : Prop where
  shmName : ∀ o, s.shmName = some o → o < s.unused
  semName : ∀ o, s.semName = some o → o < s.unused
  server : s.server = ⟨.shmUnlink, none, none⟩
  worker : ∀ w, (s.worker w).pc = .connect ∧ (s.worker w).shm = none ∧ (s.worker w).sem = none

def attach [DecidableEq ι] : System (State ι) (Action ι) where
  init := Start
  step s a t := s.next a = some t

def Attached (server : Server) (x : Worker) : Prop :=
  ∃ shm sem, x.shm = some shm ∧ x.sem = some sem ∧ server.shm = some shm ∧ server.sem = some sem

/-- A worker opens the shared memory when there is none or the server has opened it, and the
semaphore when the server has opened it. -/
def Timely (s : State ι) (a : Action ι) : Prop :=
  ∀ w, a = .worker w →
    ((s.worker w).pc = .openShm → s.shmName = none ∨ s.server.shm ≠ none) ∧
    ((s.worker w).pc = .openSem → s.server.sem ≠ none)

structure Setup (s : State ι) : Prop where
  shmName : ∀ o, s.shmName = some o → o < s.unused
  semName : ∀ o, s.semName = some o → o < s.unused
  shmOpen : s.server.pc = .shmOpen → s.shmName = none
  semOpen : s.server.pc = .semOpen → s.semName = none
  shm : ∀ o, s.server.shm = some o → s.server.pc ∉ [.shmUnlink, .shmOpen] ∧ s.shmName = some o
  sem : ∀ o, s.server.sem = some o → s.server.pc ∈ [.up, .exited] ∧ s.semName = some o

def Opened (unused : Object) (old new : Option Object) : Prop :=
  new = old ∨ old = none ∧ new = some unused

structure ServerStep (s t : State ι) : Prop where
  setup : Setup t
  worker : t.worker = s.worker
  unused : s.unused ≤ t.unused
  shm : Opened s.unused s.server.shm t.server.shm
  sem : Opened s.unused s.server.sem t.server.sem

variable {s t : State ι} {w : ι}

theorem Setup.of_start (h : Start s) : Setup s := by
  constructor
  · exact h.shmName
  · exact h.semName
  all_goals simp [h.server]

theorem Setup.goto (h : Setup s) {p : ServerPoint} {size : Object → ℕ}
    (hp : p ∉ [.shmUnlink, .shmOpen, .semOpen]) (hup : s.server.sem ≠ none → p = .exited) :
    Setup { s with size := size, server := { s.server with pc := p } } := by
  simp only [List.mem_cons, List.not_mem_nil, or_false, not_or] at hp
  constructor
  · exact h.shmName
  · exact h.semName
  · intro he
    exact absurd he hp.2.1
  · intro he
    exact absurd he hp.2.2
  · intro o ho
    simp [hp, (h.shm o ho).2]
  · intro o ho
    have hne : s.server.sem ≠ none := by
      rw [ho]
      simp
    simp [hup hne, (h.sem o ho).2]

theorem Setup.not_up (h : Setup s) {p : ServerPoint} (hp : s.server.pc = p) (hno : p ∉ [.up, .exited]) :
    s.server.sem = none := by
  cases ho : s.server.sem with
  | none => rfl
  | some o =>
    have hup := (h.sem o ho).1
    rw [hp] at hup
    exact absurd hup hno

theorem Setup.not_open (h : Setup s) {p : ServerPoint} (hp : s.server.pc = p)
    (hin : p ∈ [.shmUnlink, .shmOpen]) : s.server.shm = none := by
  cases ho : s.server.shm with
  | none => rfl
  | some o =>
    have hout := (h.shm o ho).1
    rw [hp] at hout
    exact absurd hin hout

theorem Setup.server (h : Setup s) (hs : s.serverNext = some t) : ServerStep s t := by
  unfold State.serverNext at hs
  split at hs
  case h_1 hp =>
    cases hs
    have hshm := h.not_open hp (by decide)
    have hsem := h.not_up hp (by decide)
    refine ⟨?_, rfl, Nat.le_refl _, .inl rfl, .inl rfl⟩
    constructor
    · simp
    · exact h.semName
    · simp
    · simp
    · simp [hshm]
    · simp [hsem]
  case h_2 hp =>
    have hshm := h.not_open hp (by decide)
    have hsem := h.not_up hp (by decide)
    rw [h.shmOpen hp] at hs
    cases hs
    refine ⟨?_, rfl, Nat.le_succ _, .inr ⟨hshm, rfl⟩, .inl rfl⟩
    constructor
    · rintro o ⟨⟩
      exact Nat.lt_succ_self _
    · intro o ho
      exact Nat.lt_succ_of_lt (h.semName o ho)
    · simp
    · simp
    · simp
    · simp [hsem]
  case h_3 hp | h_4 hp | h_5 hp =>
    cases hs
    refine ⟨h.goto (by decide) ?_, rfl, Nat.le_refl _, .inl rfl, .inl rfl⟩
    intro hne
    exact absurd (h.not_up hp (by decide)) hne
  case h_6 hp =>
    cases hs
    have hsem := h.not_up hp (by decide)
    refine ⟨?_, rfl, Nat.le_refl _, .inl rfl, .inl rfl⟩
    constructor
    · exact h.shmName
    · simp
    · simp
    · simp
    · intro o ho
      simp [(h.shm o ho).2]
    · simp [hsem]
  case h_7 hp =>
    have hsem := h.not_up hp (by decide)
    rw [h.semOpen hp] at hs
    cases hs
    refine ⟨?_, rfl, Nat.le_succ _, .inl rfl, .inr ⟨hsem, rfl⟩⟩
    constructor
    · intro o ho
      exact Nat.lt_succ_of_lt (h.shmName o ho)
    · rintro o ⟨⟩
      exact Nat.lt_succ_self _
    · simp
    · simp
    · intro o ho
      simp [(h.shm o ho).2]
    · simp
  all_goals cases hs

theorem Setup.fail (h : Setup s) (hs : s.failNext = some t) : ServerStep s t := by
  unfold State.failNext at hs
  split at hs
  case h_5 => cases hs
  all_goals
    cases hs
    exact ⟨h.goto (by decide) (fun _ => rfl), rfl, Nat.le_refl _, .inl rfl, .inl rfl⟩

structure Bound (server : Server) (x : Worker) : Prop where
  shm : ∀ o, x.shm = some o → server.shm = some o
  sem : ∀ o, x.sem = some o → server.sem = some o
  openSem : x.pc = .openSem → x.shm ≠ none
  both : x.shm ≠ none → x.pc ≠ .openSem → x.sem ≠ none
  poll : x.pc = .mmap ∨ x.pc = .poll → x.shm ≠ none

def Lost (unused : Object) (handle : Option Object) (o : Object) : Prop := o < unused ∧ handle ≠ some o

structure Astray (s : State ι) (x : Worker) : Prop where
  shm : x.shm ≠ none
  pc : x.pc ≠ .openShm
  wrong : (∃ o, x.shm = some o ∧ Lost s.unused s.server.shm o) ∨
    x.pc ≠ .openSem ∧ (x.sem = none ∨ ∃ o, x.sem = some o ∧ Lost s.unused s.server.sem o)

theorem Opened.keeps {unused : Object} {old new : Option Object} {o : Object}
    (h : Opened unused old new) (ho : old = some o) : new = some o := by
  obtain h | ⟨hnone, -⟩ := h
  · rw [h, ho]
  · rw [ho] at hnone
    cases hnone

theorem Lost.step {unused unused' : Object} {old new : Option Object} {o : Object}
    (h : Lost unused old o) (hu : unused ≤ unused') (hn : Opened unused old new) :
    Lost unused' new o := by
  obtain ⟨hlt, hne⟩ := h
  constructor
  · exact Nat.lt_of_lt_of_le hlt hu
  · obtain hn | ⟨-, hn⟩ := hn
    · rw [hn]
      exact hne
    · rw [hn]
      intro he
      cases he
      exact Nat.lt_irrefl _ hlt

theorem Bound.of_start (h : Start s) (w : ι) : Bound s.server (s.worker w) := by
  obtain ⟨hpc, hshm, hsem⟩ := h.worker w
  constructor <;> simp [hpc, hshm, hsem]

theorem Bound.serverStep {x : Worker} (h : Bound s.server x) (hs : ServerStep s t) : Bound t.server x := by
  constructor
  · intro o ho
    exact hs.shm.keeps (h.shm o ho)
  · intro o ho
    exact hs.sem.keeps (h.sem o ho)
  · exact h.openSem
  · exact h.both
  · exact h.poll

theorem Bound.attached {x : Worker} (h : Bound s.server x) (hp : x.pc = .poll) : Attached s.server x := by
  obtain ⟨o, ho⟩ := Option.ne_none_iff_exists'.mp (h.poll (.inr hp))
  have hsem : x.sem ≠ none := by
    apply h.both
    · simp [ho]
    · simp [hp]
  obtain ⟨o', ho'⟩ := Option.ne_none_iff_exists'.mp hsem
  exact ⟨o, o', ho, ho', h.shm o ho, h.sem o' ho'⟩

theorem Astray.serverStep {x : Worker} (h : Astray s x) (hs : ServerStep s t) : Astray t x := by
  constructor
  · exact h.shm
  · exact h.pc
  · apply h.wrong.imp
    · rintro ⟨o, ho, hlost⟩
      exact ⟨o, ho, hlost.step hs.unused hs.shm⟩
    · rintro ⟨hpc, hsem⟩
      refine ⟨hpc, hsem.imp_right ?_⟩
      rintro ⟨o, ho, hlost⟩
      exact ⟨o, ho, hlost.step hs.unused hs.sem⟩

theorem Astray.not_attached {x : Worker} (h : Astray s x) : ¬ Attached s.server x := by
  rintro ⟨shm, sem, hshm, hsem, hshm', hsem'⟩
  obtain ⟨o, ho, -, hne⟩ | ⟨-, hnone | ⟨o, ho, -, hne⟩⟩ := h.wrong
  · rw [hshm] at ho
    cases ho
    exact hne hshm'
  · rw [hsem] at hnone
    cases hnone
  · rw [hsem] at ho
    cases ho
    exact hne hsem'

inductive Statement (s : State ι) (x : Worker) : Worker → Prop
  | again : x.pc = .connect → x.running = true → x.shm = none → Statement s x { x with pc := .openShm }
  | leave : x.pc = .connect → Statement s x { x with pc := .check }
  | shm (o : Object) : x.pc = .openShm → s.shmName = some o →
      Statement s x { x with pc := .openSem, shm := some o }
  | noShm : x.pc = .openShm → s.shmName = none → Statement s x { x with pc := .connect }
  | sem (o : Object) : x.pc = .openSem → s.semName = some o →
      Statement s x { x with pc := .connect, sem := some o }
  | noSem : x.pc = .openSem → s.semName = none → Statement s x { x with pc := .connect }
  | nothing : x.pc = .check → x.shm = none → Statement s x { x with pc := .returned }
  | found : x.pc = .check → x.shm ≠ none → Statement s x { x with pc := .mmap }
  | short : x.pc = .mmap → x.shm ≠ none → Statement s x { x with pc := .raised }
  | mapped : x.pc = .mmap → x.shm ≠ none → Statement s x { x with pc := .poll }

theorem Bound.statement {x y : Worker} (hsetup : Setup s) (h : Bound s.server x) (hs : Statement s x y)
    (hshm : x.pc = .openShm → s.shmName = none ∨ s.server.shm ≠ none)
    (hsem : x.pc = .openSem → s.server.sem ≠ none) : Bound s.server y := by
  have hboth := h.both
  cases hs with
  | shm o hp ho =>
    have hopen : s.server.shm = some o := by
      obtain hnone | hne := hshm hp
      · rw [ho] at hnone
        cases hnone
      · obtain ⟨o', ho'⟩ := Option.ne_none_iff_exists'.mp hne
        have hname := (hsetup.shm o' ho').2
        rw [ho] at hname
        rw [ho', hname]
    constructor
    · rintro o' ⟨⟩
      exact hopen
    · exact h.sem
    · simp
    · simp
    · simp
  | sem o hp ho =>
    have hopen : s.server.sem = some o := by
      obtain ⟨o', ho'⟩ := Option.ne_none_iff_exists'.mp (hsem hp)
      have hname := (hsetup.sem o' ho').2
      rw [ho] at hname
      rw [ho', hname]
    constructor
    · exact h.shm
    · rintro o' ⟨⟩
      exact hopen
    · simp
    · simp
    · simp
  | noSem hp ho =>
    -- the server has opened the semaphore, so the name is there
    obtain ⟨o', ho'⟩ := Option.ne_none_iff_exists'.mp (hsem hp)
    have hname := (hsetup.sem o' ho').2
    rw [ho] at hname
    cases hname
  | again hp _ hnone =>
    constructor
    · exact h.shm
    · exact h.sem
    · simp
    · simp [hnone]
    · simp
  | leave hp | noShm hp _ | nothing hp _ | found hp hne | short hp hne | mapped hp hne =>
    constructor
    · exact h.shm
    · exact h.sem
    · simp
    · intro hne' _
      apply hboth hne'
      simp [hp]
    · first | exact fun _ => hne | simp

theorem Astray.statement {x y : Worker} (h : Astray s x) (hs : Statement s x y) : Astray s y := by
  obtain ⟨hshm, hpc, hwrong⟩ := h
  cases hs with
  | again _ _ hnone => exact absurd hnone hshm
  | shm _ hp _ => exact absurd hp hpc
  | noShm hp _ => exact absurd hp hpc
  | sem o hp ho =>
    refine ⟨hshm, by simp, .inl ?_⟩
    apply hwrong.resolve_right
    rintro ⟨hne, -⟩
    exact hne hp
  | noSem hp _ =>
    refine ⟨hshm, by simp, .inl ?_⟩
    apply hwrong.resolve_right
    rintro ⟨hne, -⟩
    exact hne hp
  | leave | nothing | found | short | mapped =>
    refine ⟨hshm, by simp, hwrong.imp_right ?_⟩
    rintro ⟨-, hsem⟩
    exact ⟨by simp, hsem⟩

variable [DecidableEq ι]

theorem setWorker_self (x : Worker) : (s.setWorker w x).worker w = x := Function.update_self ..

theorem setWorker_other (x : Worker) {w' : ι} (hw : w' ≠ w) :
    (s.setWorker w x).worker w' = s.worker w' := Function.update_of_ne hw ..

theorem statement_of_workerNext (hs : s.workerNext w = some t) :
    ∃ x, t = s.setWorker w x ∧ Statement s (s.worker w) x := by
  unfold State.workerNext at hs
  simp only at hs
  split at hs
  case h_1 hp =>
    cases hs
    refine ⟨_, rfl, ?_⟩
    split_ifs with hc
    · rw [Bool.and_eq_true, Option.isNone_iff_eq_none] at hc
      exact .again hp hc.1 hc.2
    · exact .leave hp
  case h_2 hp =>
    split at hs
    · rename_i o ho
      cases hs
      exact ⟨_, rfl, .shm o hp ho⟩
    · rename_i ho
      cases hs
      exact ⟨_, rfl, .noShm hp ho⟩
  case h_3 hp =>
    split at hs
    · rename_i o ho
      cases hs
      exact ⟨_, rfl, .sem o hp ho⟩
    · rename_i ho
      cases hs
      exact ⟨_, rfl, .noSem hp ho⟩
  case h_4 hp =>
    cases hs
    refine ⟨_, rfl, ?_⟩
    split_ifs with hc
    · exact .nothing hp (Option.isNone_iff_eq_none.mp hc)
    · exact .found hp fun he => hc (Option.isNone_iff_eq_none.mpr he)
  case h_5 hp =>
    obtain ⟨o, ho, rfl⟩ := Option.map_eq_some_iff.mp hs
    have hne : (s.worker w).shm ≠ none := by simp [ho]
    refine ⟨_, rfl, ?_⟩
    split_ifs
    · exact .short hp hne
    · exact .mapped hp hne
  all_goals cases hs

theorem step_cases {a : Action ι} (h : Setup s) (hs : s.next a = some t) : ServerStep s t ∨
    ∃ w x, t = s.setWorker w x ∧
      (a = .worker w ∧ Statement s (s.worker w) x ∨ x = { s.worker w with running := false }) := by
  cases a with
  | server => exact .inl (h.server hs)
  | fail => exact .inl (h.fail hs)
  | worker w =>
    obtain ⟨x, ht, hx⟩ := statement_of_workerNext hs
    exact .inr ⟨w, x, ht, .inl ⟨rfl, hx⟩⟩
  | stop w =>
    cases hs
    exact .inr ⟨w, _, rfl, .inr rfl⟩

theorem Setup.setWorker (h : Setup s) (x : Worker) : Setup (s.setWorker w x) :=
  ⟨h.shmName, h.semName, h.shmOpen, h.semOpen, h.shm, h.sem⟩

theorem Setup.next {a : Action ι} (h : Setup s) (hs : s.next a = some t) : Setup t := by
  obtain ht | ⟨w, x, rfl, -⟩ := step_cases h hs
  · exact ht.setup
  · exact h.setWorker x

theorem Astray.setWorker {x : Worker} (y : Worker) (h : Astray s x) : Astray (s.setWorker w y) x :=
  ⟨h.shm, h.pc, h.wrong⟩

theorem Astray.next {a : Action ι} (hsetup : Setup s) (h : Astray s (s.worker w))
    (hs : s.next a = some t) : Astray t (t.worker w) := by
  obtain ht | ⟨w', x, rfl, hx⟩ := step_cases hsetup hs
  · rw [ht.worker]
    exact h.serverStep ht
  · apply Astray.setWorker
    by_cases hw : w = w'
    · subst hw
      rw [setWorker_self]
      obtain ⟨-, hx⟩ | rfl := hx
      · exact h.statement hx
      · exact ⟨h.shm, h.pc, h.wrong⟩
    · rw [setWorker_other x hw]
      exact h

theorem Bound.next {a : Action ι} (hsetup : Setup s) (h : ∀ w, Bound s.server (s.worker w))
    (hs : s.next a = some t) (ht : Timely s a) (w : ι) : Bound t.server (t.worker w) := by
  have hw := h w
  obtain hserver | ⟨w', x, rfl, hx⟩ := step_cases hsetup hs
  · rw [hserver.worker]
    exact hw.serverStep hserver
  · change Bound s.server ((s.setWorker w' x).worker w)
    by_cases he : w = w'
    · subst he
      rw [setWorker_self]
      obtain ⟨rfl, hx⟩ | rfl := hx
      · obtain ⟨hshm, hsem⟩ := ht w rfl
        exact hw.statement hsetup hx hshm hsem
      · exact ⟨hw.shm, hw.sem, hw.openSem, hw.both, hw.poll⟩
    · rw [setWorker_other x he]
      exact hw

theorem setup_of_reachable (h : Reachable attach s) : Setup s := by
  have hinv : Invariant attach (Setup (ι := ι)) :=
    ⟨fun _ hs => .of_start hs, fun _ _ _ _ ih hs => ih.next hs⟩
  exact hinv.holds h

theorem bound_of_timely (h : Reachable (attach.restrict Timely) s) (w : ι) :
    Bound s.server (s.worker w) := by
  have hinv : Invariant (attach.restrict Timely) fun s : State ι => ∀ w, Bound s.server (s.worker w) := by
    constructor
    · intro s hs w
      exact .of_start hs w
    · intro s a t hr ih hs
      exact Bound.next (setup_of_reachable hr.of_restrict) ih hs.1 hs.2
  exact hinv.holds h w

theorem astray_of_late (hsetup : Setup s) (h : Bound s.server (s.worker w))
    (hs : s.next (.worker w) = some t) (hno : ¬ Timely s (.worker w)) : Astray t (t.worker w) := by
  obtain ⟨x, rfl, hx⟩ := statement_of_workerNext hs
  apply Astray.setWorker
  rw [setWorker_self]
  have hlate : (s.worker w).pc = .openShm ∧ s.shmName ≠ none ∧ s.server.shm = none ∨
      (s.worker w).pc = .openSem ∧ s.server.sem = none := by
    by_contra hcon
    apply hno
    rintro w' ⟨⟩
    constructor
    · intro hp
      by_contra hcon'
      rw [not_or, not_not] at hcon'
      exact hcon (.inl ⟨hp, hcon'⟩)
    · intro hp he
      exact hcon (.inr ⟨hp, he⟩)
  obtain ⟨hp, hname, hnone⟩ | ⟨hp, hnone⟩ := hlate
  · cases hx with
    | shm o _ ho =>
      refine ⟨by simp, by simp, .inl ⟨o, rfl, hsetup.shmName o ho, ?_⟩⟩
      simp [hnone]
    | noShm _ ho => exact absurd ho hname
    | sem _ hp' _ | again hp' _ _ | leave hp' | noSem hp' _ | nothing hp' _ | found hp' _ | short hp' _
    | mapped hp' _ => exact absurd (hp.symm.trans hp') (by decide)
  · have hshm := h.openSem hp
    cases hx with
    | sem o _ ho =>
      refine ⟨hshm, by simp, .inr ⟨by simp, .inr ⟨o, rfl, hsetup.semName o ho, ?_⟩⟩⟩
      simp [hnone]
    | noSem _ ho =>
      refine ⟨hshm, by simp, .inr ⟨by simp, ?_⟩⟩
      cases hsem : (s.worker w).sem with
      | none => exact .inl rfl
      | some o =>
        have hopen := h.sem o hsem
        rw [hnone] at hopen
        cases hopen
    | shm _ hp' _ | noShm hp' _ | again hp' _ _ | leave hp' | nothing hp' _ | found hp' _ | short hp' _
    | mapped hp' _ => exact absurd (hp.symm.trans hp') (by decide)

theorem attached_timely :
    (∀ s : State ι, Reachable (attach.restrict Timely) s → ∀ w, (s.worker w).pc = .poll →
      Attached s.server (s.worker w)) ∧
    ∀ (s t : State ι) (w : ι), Reachable (attach.restrict Timely) s → s.next (.worker w) = some t →
      ¬ Timely s (.worker w) → ∀ u, Reachable (attach.after t) u → (u.worker w).pc = .poll →
        ¬ Attached u.server (u.worker w) := by
  constructor
  · intro s h w hp
    exact (bound_of_timely h w).attached hp
  · intro s t w h hs hno u hu _
    have hsetup := setup_of_reachable h.of_restrict
    have hinv : Invariant (attach.after t) fun u => Setup u ∧ Astray u (u.worker w) := by
      constructor
      · rintro u rfl
        exact ⟨hsetup.next hs, astray_of_late hsetup (bound_of_timely h w) hs hno⟩
      · rintro u a v - ⟨hu, hastray⟩ hv
        exact ⟨hu.next hv, hastray.next hu hv⟩
    exact (hinv.holds hu).2.not_attached

instance (s : State ι) (a : Action ι) : Decidable (Timely s a) :=
  match a with
  | .worker w => decidable_of_iff
      (((s.worker w).pc = .openShm → s.shmName = none ∨ s.server.shm ≠ none) ∧
        ((s.worker w).pc = .openSem → s.server.sem ≠ none))
      ⟨fun h _ he => by cases he; exact h, fun h => h w rfl⟩
  | .server | .fail | .stop _ => isTrue nofun

def clean : State Unit where
  shmName := none
  semName := none
  size _ := 0
  unused := 0
  server := ⟨.shmUnlink, none, none⟩
  worker _ := ⟨.connect, true, none, none⟩

theorem clean_start : Start clean := ⟨nofun, nofun, rfl, fun _ => ⟨rfl, rfl, rfl⟩⟩

def stale : State Unit := { clean with shmName := some 0, semName := some 1, size := fun _ => 80, unused := 2 }

theorem stale_start : Start stale := by
  constructor
  · rintro o ⟨⟩
    decide
  · rintro o ⟨⟩
    decide
  · rfl
  · intro w
    exact ⟨rfl, rfl, rfl⟩

def opening : State Unit := { stale with worker := fun _ => ⟨.openShm, true, none, none⟩ }

theorem opening_reachable : Reachable (attach.restrict Timely) opening := by
  have hs : stale.next (.worker ()) = some opening := rfl
  exact (Reachable.start stale_start).next ⟨hs, by decide⟩

def serverFirst : List (Action Unit) :=
  List.replicate 7 .server ++ List.replicate 6 (.worker ())

theorem attached_timely_first :
    (∃ s : State Unit, (s.worker ()).pc = .poll ∧ Attached s.server (s.worker ())) ∧
    ∃ u : State Unit, (u.worker ()).pc = .poll ∧ ¬ Attached u.server (u.worker ()) := by
  constructor
  · have hrun : (execute (fun s a => if Timely s a then s.next a else none) stale
        serverFirst).isSome = true := by decide
    have hreach : Reachable (attach.restrict Timely) (Option.get _ hrun) := by
      apply (Reachable.start stale_start).execute _ (Option.some_get hrun).symm
      intro s a t hs
      split_ifs at hs with ha
      exact ⟨hs, ha⟩
    exact ⟨_, rfl, attached_timely.1 _ hreach () rfl⟩
  · have hrun : ((opening.next (.worker ())).bind fun t =>
        execute State.next t (List.replicate 4 (.worker ()))).isSome = true := by decide
    obtain ⟨u, hu⟩ := Option.isSome_iff_exists.mp hrun
    obtain ⟨t, ht, htu⟩ := Option.bind_eq_some_iff.mp hu
    have hreach : Reachable (attach.after t) u :=
      (Reachable.start rfl).execute (fun _ _ _ hs => hs) htu
    have hpoll : (u.worker ()).pc = .poll := by
      cases hu
      rfl
    exact ⟨u, hpoll, attached_timely.2 opening t () opening_reachable ht (by decide) u hreach hpoll⟩

def between : List (Action Unit) := List.replicate 3 .server ++ List.replicate 6 (.worker ())

theorem not_attached : ¬ ∀ s : State Unit, Reachable attach s → ∀ w, (s.worker w).pc = .poll →
    Attached s.server (s.worker w) := by
  intro h
  have hrun : (execute State.next clean between).isSome = true := by decide
  have hreach : Reachable attach (Option.get _ hrun) :=
    (Reachable.start clean_start).execute (fun _ _ _ hs => hs) (Option.some_get hrun).symm
  obtain ⟨shm, sem, -, hsem, -⟩ := h _ hreach () rfl
  exact absurd hsem nofun

end EmbeddedLinuxTraining.Ipc.Attach
