import Mathlib.Data.Fintype.Option
import EmbeddedLinuxTraining.Ipc.Message
import EmbeddedLinuxTraining.Library.Semaphore
import EmbeddedLinuxTraining.Library.Transition

/-!
The shared memory channel: the tick of backend.c while `g_running` is set, `ShmWorker` of py_gui.py
after it has connected, and SIGUSR1. A `memcpy` takes the bytes one by one in any order.
-/

namespace EmbeddedLinuxTraining.Ipc

open Library.Semaphore Library.Transition

abbrev Block := Fin MSG_SIZE → UInt8

def IpcMsg.block (m : IpcMsg) : Block := fun k => m.bytes.get (k.cast m.bytes_size.symm)

inductive ServerPoint
  | loop | print | semWait | blocked
  | memcpy (todo : Finset (Fin MSG_SIZE))
  | semPost

inductive WorkerPoint
  | loop | acquire
  | copy (todo : Finset (Fin MSG_SIZE))
  | release | decode | closed

structure Server where
  pc : ServerPoint
  seq : UInt32
  gSigusr1Count : Int32
  msg : IpcMsg

structure Worker where
  pc : WorkerPoint
  running : Bool
  raw : Block
  lastSeq : ℤ
  emitted : List Message

/-- `copied` and `decoded` record the messages that the server has copied into the block and the
snapshots that were given to `unpack_msg`. -/
structure State (ι : Type) where
  value : ℕ
  block : Block
  server : Server
  worker : ι → Worker
  copied : List IpcMsg
  decoded : List Block

inductive Action (ι : Type)
  | server (now : UInt64)
  | store (k : Fin MSG_SIZE)
  | worker (w : ι)
  | load (w : ι) (k : Fin MSG_SIZE)
  | sigusr1
  | stop (w : ι)

def ServerPoint.inside : ServerPoint → Bool
  | .memcpy _ | .semPost => true
  | _ => false

def WorkerPoint.inside : WorkerPoint → Bool
  | .copy _ | .release => true
  | _ => false

variable {ι : Type}

namespace State

def semWait (s : State ι) : State ι :=
  if 0 < s.value then
    { s with
      value := s.value - 1
      server := { s.server with pc := .memcpy Finset.univ } }
  else { s with server := { s.server with pc := .blocked } }

def serverNext (now : UInt64) (s : State ι) : Option (State ι) :=
  match s.server.pc with
  | .loop =>
    let seq := s.server.seq + 1
    some { s with server := { s.server with
      pc := .print, seq := seq, msg := buildMsg seq now s.server.gSigusr1Count } }
  | .print =>
    some { s with server := { s.server with
      pc := .semWait, msg := s.server.msg.print s.server.gSigusr1Count } }
  | .semWait | .blocked => some s.semWait
  | .memcpy todo =>
    if todo = ∅ then
      some { s with
        server := { s.server with pc := .semPost }
        copied := s.copied ++ [s.server.msg] }
    else none
  | .semPost => some { s with value := s.value + 1, server := { s.server with pc := .loop } }

def storeNext (k : Fin MSG_SIZE) (s : State ι) : Option (State ι) :=
  match s.server.pc with
  | .memcpy todo =>
    if k ∈ todo then
      some { s with
        block := Function.update s.block k (s.server.msg.block k)
        server := { s.server with pc := .memcpy (todo.erase k) } }
    else none
  | _ => none

/-- SIGUSR1 has no `SA_RESTART`: a blocked `sem_wait` returns, and its result is not looked at. -/
def sigusr1 (s : State ι) : State ι :=
  { s with server := { s.server with
    gSigusr1Count := s.server.gSigusr1Count + 1
    pc := match s.server.pc with
      | .blocked => .memcpy Finset.univ
      | p => p } }

variable [DecidableEq ι]

def setWorker (s : State ι) (w : ι) (x : Worker) : State ι :=
  { s with worker := Function.update s.worker w x }

def workerNext (w : ι) (s : State ι) : Option (State ι) :=
  let x := s.worker w
  match x.pc with
  | .loop => some (s.setWorker w { x with pc := if x.running then .acquire else .closed })
  | .acquire =>
    if 0 < s.value then
      some { s.setWorker w { x with pc := .copy Finset.univ } with value := s.value - 1 }
    else none
  | .copy todo => if todo = ∅ then some (s.setWorker w { x with pc := .release }) else none
  | .release => some { s.setWorker w { x with pc := .decode } with value := s.value + 1 }
  | .decode =>
    (unpackMsg (List.ofFn x.raw)).map fun message =>
      let emitted := if message.seq ≠ x.lastSeq then x.emitted ++ [message] else x.emitted
      { s.setWorker w { x with pc := .loop, lastSeq := message.seq, emitted := emitted } with
        decoded := s.decoded ++ [x.raw] }
  | .closed => none

def loadNext (w : ι) (k : Fin MSG_SIZE) (s : State ι) : Option (State ι) :=
  let x := s.worker w
  match x.pc with
  | .copy todo =>
    if k ∈ todo then
      some (s.setWorker w { x with
        pc := .copy (todo.erase k)
        raw := Function.update x.raw k (s.block k) })
    else none
  | _ => none

def next (s : State ι) : Action ι → Option (State ι)
  | .server now => s.serverNext now
  | .store k => s.storeNext k
  | .worker w => s.workerNext w
  | .load w k => s.loadNext w k
  | .sigusr1 => some s.sigusr1
  | .stop w => some (s.setWorker w { s.worker w with running := false })

end State

def State.inside (s : State ι) : Option ι → Bool
  | none => s.server.pc.inside
  | some w => (s.worker w).pc.inside

def Whole (copied : List IpcMsg) (block : Block) : Prop :=
  block = (fun _ => 0) ∨ ∃ m ∈ copied, block = m.block

structure Start (s : State ι) : Prop where
  value : s.value = 1
  block : s.block = fun _ => 0
  server : s.server.pc = .loop
  worker : ∀ w, (s.worker w).pc = .loop
  decoded : s.decoded = []

def sharedMemory [DecidableEq ι] : System (State ι) (Action ι) where
  init := Start
  step s a t := s.next a = some t

structure Exclusion [Fintype ι] (s : State ι) : Prop where
  count : s.value + (Finset.univ.filter fun p => s.inside p).card = 1
  exclusive : ∀ p q, s.inside p → s.inside q → p = q
  whole : ∀ raw ∈ s.decoded, Whole s.copied raw

/-- SIGUSR1 does not come while the server is asleep in `sem_wait`. -/
def Undisturbed (s : State ι) : Action ι → Prop
  | .sigusr1 => s.server.pc ≠ .blocked
  | _ => True

def Content (s : State ι) : Prop :=
  match s.server.pc with
  | .memcpy todo => ∀ k ∉ todo, s.block k = s.server.msg.block k
  | _ => Whole s.copied s.block

def Snapshot (copied : List IpcMsg) (block : Block) (x : Worker) : Prop :=
  match x.pc with
  | .copy todo => ∀ k ∉ todo, x.raw k = block k
  | .release | .decode => Whole copied x.raw
  | _ => True

structure Inv (s : State ι) : Prop where
  sem : Binary s.value fun p => s.inside p = true
  content : Content s
  snapshot : ∀ w, Snapshot s.copied s.block (s.worker w)
  whole : ∀ raw ∈ s.decoded, Whole s.copied raw

variable {s t : State ι} {w : ι} {k : Fin MSG_SIZE} {now : UInt64}

theorem Whole.append {copied : List IpcMsg} {block : Block} (m : IpcMsg) (h : Whole copied block) :
    Whole (copied ++ [m]) block := by
  rcases h with h | ⟨m', hm, h⟩
  · exact .inl h
  · exact .inr ⟨m', List.mem_append_left _ hm, h⟩

theorem Snapshot.append {copied : List IpcMsg} {block : Block} {x : Worker} (m : IpcMsg)
    (h : Snapshot copied block x) : Snapshot (copied ++ [m]) block x := by
  unfold Snapshot at h ⊢
  split at h
  · exact h
  · exact h.append m
  · exact h.append m
  · trivial

theorem Snapshot.of_outside {copied : List IpcMsg} {block block' : Block} {x : Worker}
    (hx : x.pc.inside = false) (h : Snapshot copied block x) : Snapshot copied block' x := by
  unfold Snapshot at h ⊢
  split at h
  · rename_i hp
    rw [hp] at hx
    cases hx
  · exact h
  · exact h
  · trivial

theorem Content.whole (h : Content s) (hs : s.server.pc.inside = false) : Whole s.copied s.block := by
  unfold Content at h
  split at h
  · rename_i hp
    rw [hp] at hs
    cases hs
  · exact h

theorem Content.finished (h : Content s) (hp : s.server.pc = .memcpy ∅) : s.block = s.server.msg.block := by
  rw [Content, hp] at h
  funext k
  exact h k (Finset.notMem_empty k)

theorem Inv.outside (h : Inv s) {p q : Option ι} (hp : s.inside p = true) (hq : q ≠ p) :
    s.inside q = false := by
  cases hi : s.inside q with
  | false => rfl
  | true => exact absurd (h.sem.exclusive hi hp) hq

theorem Inv.of_start (h : Start s) : Inv s := by
  constructor
  · rw [h.value]
    apply Binary.free
    intro p
    cases p with
    | none => simp [State.inside, h.server, ServerPoint.inside]
    | some w => simp [State.inside, h.worker w, WorkerPoint.inside]
  · rw [Content, h.server]
    exact .inl h.block
  · intro w
    rw [Snapshot, h.worker w]
    trivial
  · intro raw hraw
    rw [h.decoded] at hraw
    exact absurd hraw List.not_mem_nil

theorem Inv.setServer (h : Inv s) {v : ℕ} {x : Server} {copied : List IpcMsg}
    (hc : copied = s.copied ∨ ∃ m, copied = s.copied ++ [m])
    (hsem : Binary v fun p => { s with server := x }.inside p = true)
    (hx : Content { s with server := x, copied := copied }) :
    Inv { s with value := v, server := x, copied := copied } := by
  refine ⟨hsem, hx, fun w => ?_, fun raw hr => ?_⟩
  · rcases hc with rfl | ⟨m, rfl⟩
    · exact h.snapshot w
    · exact (h.snapshot w).append m
  · rcases hc with rfl | ⟨m, rfl⟩
    · exact h.whole raw hr
    · exact (h.whole raw hr).append m

theorem inside_other {x : Server} {q : Option ι} (hq : q ≠ none) :
    { s with server := x }.inside q = s.inside q := by
  cases q with
  | none => exact absurd rfl hq
  | some w => rfl

theorem Inv.stayServer (h : Inv s) {x : Server} (hx : x.pc.inside = s.server.pc.inside) :
    Binary s.value fun p => { s with server := x }.inside p = true := by
  refine h.sem.congr fun q => ?_
  cases q with
  | none => simp only [State.inside, hx]
  | some w => rfl

theorem Inv.semWait (h : Inv s) (hp : s.server.pc.inside = false) : Inv s.semWait := by
  unfold State.semWait
  split_ifs with hv
  · refine h.setServer (.inl rfl) (h.sem.enter (p := none) hv rfl ?_) ?_
    · intro q hq
      rw [inside_other hq]
    · intro k hk
      exact absurd (Finset.mem_univ k) hk
  · exact h.setServer (.inl rfl) (h.stayServer hp.symm) (h.content.whole hp)

theorem Inv.server (h : Inv s) (hs : s.serverNext now = some t) : Inv t := by
  unfold State.serverNext at hs
  split at hs
  case h_1 hp | h_2 hp =>
    cases hs
    apply h.setServer (.inl rfl) (h.stayServer (by rw [hp]; rfl))
    exact h.content.whole (by rw [hp]; rfl)
  case h_3 hp | h_4 hp =>
    cases hs
    exact h.semWait (by rw [hp]; rfl)
  case h_5 todo hp =>
    split_ifs at hs with htodo
    cases hs
    refine h.setServer (.inr ⟨_, rfl⟩) (h.stayServer (by rw [hp]; rfl)) (.inr ⟨s.server.msg, ?_, ?_⟩)
    · exact List.mem_append_right _ (List.mem_singleton_self _)
    · rw [htodo] at hp
      exact h.content.finished hp
  case h_6 hp =>
    cases hs
    refine h.setServer (.inl rfl) (h.sem.leave (p := none) ?_ ?_ ?_) ?_
    · rw [State.inside, hp]
      rfl
    · exact Bool.false_ne_true
    · intro q hq
      rw [inside_other hq]
    · have hcontent := h.content
      rw [Content, hp] at hcontent
      exact hcontent

theorem Inv.store (h : Inv s) (hs : s.storeNext k = some t) : Inv t := by
  unfold State.storeNext at hs
  split at hs
  · rename_i todo hp
    split_ifs at hs with hk
    cases hs
    have hin : s.inside none = true := by rw [State.inside, hp]; rfl
    refine ⟨h.stayServer (by rw [hp]; rfl), ?_, fun w => ?_, h.whole⟩
    · intro j hj
      by_cases hjk : j = k
      · rw [hjk]
        exact Function.update_self ..
      · have hcontent := h.content
        rw [Content, hp] at hcontent
        refine (Function.update_of_ne hjk ..).trans (hcontent j fun hjt => ?_)
        exact hj (Finset.mem_erase.mpr ⟨hjk, hjt⟩)
    · exact (h.snapshot w).of_outside (h.outside hin (Option.some_ne_none w))
  · cases hs

theorem Inv.sigusr1 (h : Inv s) (hs : s.server.pc ≠ .blocked) : Inv s.sigusr1 := by
  have hpc : s.sigusr1.server.pc = s.server.pc := by
    unfold State.sigusr1
    split
    · contradiction
    · rfl
  refine h.setServer (.inl rfl) (h.stayServer (congrArg ServerPoint.inside hpc)) ?_
  have hcontent := h.content
  unfold Content at hcontent
  rw [← hpc] at hcontent
  exact hcontent

theorem Inv.exclusion [Fintype ι] (h : Inv s) : Exclusion s where
  count := h.sem.count
  exclusive _ _ := h.sem.exclusive
  whole := h.whole

theorem Inv.disturbed [Fintype ι] (h : Inv s) (hs : s.server.pc = .blocked) : ¬ Exclusion s.sigusr1 := by
  intro he
  have hcount := he.count
  have hout : ¬ s.inside none = true := by
    rw [State.inside, hs]
    exact Bool.false_ne_true
  have hin : s.sigusr1.inside none = true := by
    simp only [State.inside, State.sigusr1, hs, ServerPoint.inside]
  have htwo : s.value + (Finset.univ.filter fun p => s.sigusr1.inside p = true).card = 2 := by
    apply h.sem.intrude hout hin
    intro q hq
    simp only [State.sigusr1, inside_other hq]
  exact absurd (hcount.symm.trans htwo) (by decide)

variable [DecidableEq ι]

theorem setWorker_self (x : Worker) : (s.setWorker w x).worker w = x := Function.update_self ..

theorem setWorker_other (x : Worker) {w' : ι} (hw : w' ≠ w) :
    (s.setWorker w x).worker w' = s.worker w' := Function.update_of_ne hw ..

theorem inside_setWorker (x : Worker) : (s.setWorker w x).inside (some w) = x.pc.inside := by
  rw [State.inside, setWorker_self]

theorem inside_setWorker_other (x : Worker) {q : Option ι} (hq : q ≠ some w) :
    (s.setWorker w x).inside q = s.inside q := by
  cases q with
  | none => rfl
  | some w' =>
    have hw : w' ≠ w := fun he => hq (congrArg some he)
    rw [State.inside, setWorker_other x hw]
    rfl

theorem Inv.setWorker (h : Inv s) {v : ℕ} {x : Worker} {decoded : List Block}
    (hsem : Binary v fun p => (s.setWorker w x).inside p = true)
    (hx : Snapshot s.copied s.block x) (hd : ∀ raw ∈ decoded, Whole s.copied raw) :
    Inv { s.setWorker w x with value := v, decoded := decoded } := by
  refine ⟨hsem, h.content, fun w' => ?_, hd⟩
  by_cases hw : w' = w
  · rw [hw]
    change Snapshot _ _ ((s.setWorker w x).worker w)
    rw [setWorker_self]
    exact hx
  · change Snapshot _ _ ((s.setWorker w x).worker w')
    rw [setWorker_other x hw]
    exact h.snapshot w'

theorem Inv.stayWorker (h : Inv s) {x : Worker} (hx : x.pc.inside = (s.worker w).pc.inside) :
    Binary s.value fun p => (s.setWorker w x).inside p = true := by
  refine h.sem.congr fun q => ?_
  by_cases hq : q = some w
  · rw [hq, inside_setWorker, hx]
    rfl
  · rw [inside_setWorker_other x hq]

theorem Inv.worker (h : Inv s) (hs : s.workerNext w = some t) : Inv t := by
  have hsnap := h.snapshot w
  unfold State.workerNext at hs
  simp only at hs
  split at hs
  case h_1 hp =>
    cases hs
    cases hr : (s.worker w).running with
    | true => exact h.setWorker (h.stayWorker (by rw [hp]; rfl)) trivial h.whole
    | false => exact h.setWorker (h.stayWorker (by rw [hp]; rfl)) trivial h.whole
  case h_2 hp =>
    split_ifs at hs with hv
    cases hs
    refine h.setWorker (h.sem.enter hv (inside_setWorker _) ?_) ?_ h.whole
    · intro q hq
      rw [inside_setWorker_other _ hq]
    · intro k hk
      exact absurd (Finset.mem_univ k) hk
  case h_3 todo hp =>
    split_ifs at hs with htodo
    cases hs
    refine h.setWorker (h.stayWorker (by rw [hp]; rfl)) ?_ h.whole
    rw [Snapshot, hp] at hsnap
    have hraw : (s.worker w).raw = s.block := by
      funext k
      apply hsnap k
      rw [htodo]
      exact Finset.notMem_empty k
    have hin : s.inside (some w) = true := by rw [State.inside, hp]; rfl
    have hout : s.inside none = false := h.outside hin (Option.some_ne_none w).symm
    have hwhole := h.content.whole hout
    rwa [← hraw] at hwhole
  case h_4 hp =>
    cases hs
    refine h.setWorker (h.sem.leave (p := some w) ?_ ?_ ?_) ?_ h.whole
    · rw [State.inside, hp]
      rfl
    · rw [inside_setWorker]
      exact Bool.false_ne_true
    · intro q hq
      rw [inside_setWorker_other _ hq]
    · rw [Snapshot, hp] at hsnap
      exact hsnap
  case h_5 hp =>
    obtain ⟨message, -, rfl⟩ := Option.map_eq_some_iff.mp hs
    refine h.setWorker (h.stayWorker (by rw [hp]; rfl)) trivial fun raw hr => ?_
    rcases List.mem_append.mp hr with hr | hr
    · exact h.whole raw hr
    · rw [Snapshot, hp] at hsnap
      rw [List.mem_singleton.mp hr]
      exact hsnap
  case h_6 => cases hs

theorem Inv.load (h : Inv s) (hs : s.loadNext w k = some t) : Inv t := by
  unfold State.loadNext at hs
  simp only at hs
  split at hs
  · rename_i todo hp
    split_ifs at hs with hk
    cases hs
    refine h.setWorker (h.stayWorker (by rw [hp]; rfl)) ?_ h.whole
    intro j hj
    by_cases hjk : j = k
    · rw [hjk]
      exact Function.update_self ..
    · have hsnap := h.snapshot w
      rw [Snapshot, hp] at hsnap
      refine (Function.update_of_ne hjk ..).trans (hsnap j fun hjt => ?_)
      exact hj (Finset.mem_erase.mpr ⟨hjk, hjt⟩)
  · cases hs

theorem Inv.next {a : Action ι} (h : Inv s) (hs : s.next a = some t) (ha : Undisturbed s a) : Inv t := by
  cases a with
  | server now => exact h.server hs
  | store k => exact h.store hs
  | worker w => exact h.worker hs
  | load w k => exact h.load hs
  | sigusr1 =>
    cases hs
    exact h.sigusr1 ha
  | stop w =>
    cases hs
    exact h.setWorker (h.stayWorker rfl) (h.snapshot w) h.whole

theorem inv_of_reachable (h : Reachable (sharedMemory.restrict Undisturbed) s) : Inv s := by
  have hinv : Invariant (sharedMemory.restrict Undisturbed) (Inv (ι := ι)) :=
    ⟨fun _ hs => .of_start hs, fun _ _ _ _ hi hs => hi.next hs.1 hs.2⟩
  exact hinv.holds h

theorem exclusion_undisturbed [Fintype ι] :
    (∀ s : State ι, Reachable (sharedMemory.restrict Undisturbed) s → Exclusion s) ∧
    ∀ (s t : State ι) (a : Action ι), Reachable (sharedMemory.restrict Undisturbed) s →
      s.next a = some t → ¬ Undisturbed s a → ¬ Exclusion t := by
  constructor
  · intro s h
    exact (inv_of_reachable h).exclusion
  · intro s t a h hs ha
    cases a with
    | sigusr1 =>
      cases hs
      exact (inv_of_reachable h).disturbed (not_not.mp ha)
    | _ => exact absurd trivial ha

theorem reachable_next {a : Action ι} (h : Reachable (sharedMemory.restrict Undisturbed) s)
    (hs : s.next a = some t) (ha : Undisturbed s a) : Reachable (sharedMemory.restrict Undisturbed) t :=
  h.next ⟨hs, ha⟩

def sharedStart : State Unit where
  value := 1
  block _ := 0
  server := ⟨.loop, 0, 0, buildMsg 0 0 0⟩
  worker _ := ⟨.loop, true, fun _ => 0, -1, []⟩
  copied := []
  decoded := []

theorem blocked_reachable : ∃ s : State Unit, Reachable (sharedMemory.restrict Undisturbed) s ∧
    s.server.pc = .blocked := by
  have hstart : Reachable (sharedMemory.restrict Undisturbed) sharedStart :=
    .start ⟨rfl, rfl, rfl, fun _ => rfl, rfl⟩
  have hpoll := reachable_next (a := .worker ()) hstart rfl trivial
  have hacquire := reachable_next (a := .worker ()) hpoll rfl trivial
  have hbuild := reachable_next (a := .server 0) hacquire rfl trivial
  have hprint := reachable_next (a := .server 0) hbuild rfl trivial
  have hwait := reachable_next (a := .server 0) hprint rfl trivial
  exact ⟨_, hwait, rfl⟩

theorem exclusion_undisturbed_blocked : ∃ s : State Unit, Exclusion s ∧ ¬ Exclusion s.sigusr1 := by
  obtain ⟨s, hr, hs⟩ := blocked_reachable
  exact ⟨s, exclusion_undisturbed.1 s hr, exclusion_undisturbed.2 s _ .sigusr1 hr rfl (not_not.mpr hs)⟩

theorem exclusion_broken : ¬ ∀ s : State Unit, Reachable sharedMemory s → Exclusion s := by
  intro h
  obtain ⟨s, hr, hs⟩ := blocked_reachable
  have hsig : Reachable sharedMemory s.sigusr1 := hr.of_restrict.next (a := .sigusr1) rfl
  exact (inv_of_reachable hr).disturbed hs (h _ hsig)

end EmbeddedLinuxTraining.Ipc
