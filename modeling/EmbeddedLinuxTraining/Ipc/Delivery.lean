import EmbeddedLinuxTraining.Ipc.SharedMemory
import EmbeddedLinuxTraining.Ipc.WireFormat

/-!
What a `ShmWorker` delivers of the ticks. It knows a message from the one before only by `seq`,
and what the block holds before the first tick looks to it like a message.
-/

namespace EmbeddedLinuxTraining.Ipc

open Library.Semaphore Library.Transition

variable {ι : Type}

structure Fresh (s : State ι) : Prop extends Start s where
  seq : s.server.seq = 0
  copied : s.copied = []
  lastSeq : ∀ w, (s.worker w).lastSeq = -1
  emitted : ∀ w, (s.worker w).emitted = []

def channel [DecidableEq ι] : System (State ι) (Action ι) where
  init := Fresh
  step s a t := s.next a = some t

structure Assumed (s : State ι) (a : Action ι) : Prop where
  undisturbed : Undisturbed s a
  ticks : ∀ now, a = .server now → s.server.pc = .loop → s.server.seq.toNat + 1 < 2 ^ 32

/-- A poll starts only after a tick has been copied. -/
def Attached (s : State ι) (a : Action ι) : Prop :=
  ∀ w, a = .worker w → (s.worker w).pc = .acquire → s.copied ≠ []

structure Delivery (copied : List IpcMsg) (x : Worker) : Prop where
  sent : ∀ message ∈ x.emitted, ∃ m ∈ copied, unpackMsg m.bytes = some message
  increasing : x.emitted.Pairwise fun m m' => m.seq < m'.seq

def ServerPoint.pending : ServerPoint → Bool
  | .loop | .semPost => false
  | _ => true

structure Sending (s : State ι) : Prop where
  sorted : s.copied.Pairwise fun m m' => m.seq.toNat < m'.seq.toNat
  upto : ∀ m ∈ s.copied, m.seq.toNat ≤ s.server.seq.toNat
  pending : s.server.pc.pending = true →
    s.server.msg.seq = s.server.seq ∧ ∀ m ∈ s.copied, m.seq.toNat < s.server.seq.toNat
  latest : (∀ todo, s.server.pc ≠ .memcpy todo) →
    ∀ m, s.copied.getLast? = some m → s.block = m.block

def InHand (copied : List IpcMsg) (x : Worker) : Prop :=
  match x.pc with
  | .copy _ => copied ≠ []
  | .release | .decode => ∃ m ∈ copied, x.raw = m.block ∧ x.lastSeq ≤ m.seq.toNat
  | _ => True

structure Reading (copied : List IpcMsg) (x : Worker) : Prop extends Delivery copied x where
  bound : ∀ message ∈ x.emitted, (message.seq : ℤ) ≤ x.lastSeq
  last : x.lastSeq = -1 ∨ ∃ m ∈ copied, x.lastSeq = m.seq.toNat
  taken : InHand copied x

variable {s t : State ι} {w : ι} {k : Fin MSG_SIZE} {now : UInt64}

theorem Sending.of_fresh (h : Fresh s) : Sending s := by
  constructor
  · simp [h.copied]
  · simp [h.copied]
  · intro hp
    rw [h.server] at hp
    cases hp
  · simp [h.copied]

theorem Reading.of_fresh (h : Fresh s) (w : ι) : Reading s.copied (s.worker w) := by
  constructor
  · constructor <;> simp [h.emitted]
  · simp [h.emitted]
  · exact .inl (h.lastSeq w)
  · rw [InHand, h.worker]
    trivial

theorem InHand.append {copied : List IpcMsg} {x : Worker} (m : IpcMsg) (h : InHand copied x) :
    InHand (copied ++ [m]) x := by
  unfold InHand at h ⊢
  split at h
  · simp
  · obtain ⟨m', hm, h⟩ := h
    exact ⟨m', List.mem_append_left _ hm, h⟩
  · obtain ⟨m', hm, h⟩ := h
    exact ⟨m', List.mem_append_left _ hm, h⟩
  · trivial

theorem Reading.append {copied : List IpcMsg} {x : Worker} (m : IpcMsg) (h : Reading copied x) :
    Reading (copied ++ [m]) x := by
  constructor
  · constructor
    · intro message hmessage
      obtain ⟨m', hm, hu⟩ := h.sent message hmessage
      exact ⟨m', List.mem_append_left _ hm, hu⟩
    · exact h.increasing
  · exact h.bound
  · apply h.last.imp_right
    rintro ⟨m', hm, hl⟩
    exact ⟨m', List.mem_append_left _ hm, hl⟩
  · exact h.taken.append m

theorem Sending.le_last (h : Sending s) {m : IpcMsg} (hm : s.copied.getLast? = some m) :
    ∀ m' ∈ s.copied, m'.seq.toNat ≤ m.seq.toNat := by
  obtain ⟨ms, hms⟩ := List.getLast?_eq_some_iff.mp hm
  intro m' hm'
  have hsorted := h.sorted
  rw [hms] at hm' hsorted
  obtain hm' | hm' := List.mem_append.mp hm'
  · have hlt := (List.pairwise_append.mp hsorted).2.2 m' hm' m (List.mem_singleton_self m)
    omega
  · rw [List.mem_singleton.mp hm']

theorem Sending.goto (h : Sending s) {x : Server} {v : ℕ} (hseq : x.seq = s.server.seq)
    (hmsg : x.msg.seq = s.server.msg.seq) (hp : x.pc.pending = true → s.server.pc.pending = true)
    (hl : (∀ todo, x.pc ≠ .memcpy todo) → ∀ todo, s.server.pc ≠ .memcpy todo) :
    Sending { s with value := v, server := x } := by
  constructor
  · exact h.sorted
  · intro m hm
    simp only [hseq]
    exact h.upto m hm
  · intro hx
    simp only [hseq, hmsg]
    exact h.pending (hp hx)
  · intro hx
    exact h.latest (hl hx)

theorem Sending.semWait (h : Sending s) (hp : s.server.pc = .semWait ∨ s.server.pc = .blocked) :
    Sending s.semWait := by
  have hpend : s.server.pc.pending = true := by
    obtain hp | hp := hp <;> rw [hp] <;> rfl
  have hno : ∀ todo, s.server.pc ≠ .memcpy todo := by
    intro todo ht
    rw [ht] at hp
    simp at hp
  unfold State.semWait
  split_ifs
  · exact h.goto rfl rfl (fun _ => hpend) (fun _ => hno)
  · exact h.goto rfl rfl (fun _ => hpend) (fun _ => hno)

theorem Sending.build (h : Sending s) {x : Server} (hp : ∀ todo, s.server.pc ≠ .memcpy todo)
    (hseq : x.seq.toNat = s.server.seq.toNat + 1) (hmsg : x.msg.seq = x.seq) :
    Sending { s with server := x } := by
  have hlt (m : IpcMsg) (hm : m ∈ s.copied) : m.seq.toNat < x.seq.toNat := by
    have hle := h.upto m hm
    omega
  constructor
  · exact h.sorted
  · intro m hm
    exact Nat.le_of_lt (hlt m hm)
  · intro _
    exact ⟨hmsg, hlt⟩
  · intro _
    exact h.latest hp

theorem Sending.copy (h : Sending s) (hi : Inv s) (hp : s.server.pc = .memcpy ∅) :
    Sending { s with server := { s.server with pc := .semPost }, copied := s.copied ++ [s.server.msg] } := by
  obtain ⟨hmsg, hlt⟩ := h.pending (by rw [hp]; rfl)
  constructor
  · apply List.pairwise_append.mpr
    refine ⟨h.sorted, List.pairwise_singleton _ _, fun m hm m' hm' => ?_⟩
    rw [List.mem_singleton.mp hm', hmsg]
    exact hlt m hm
  · intro m hm
    obtain hm | hm := List.mem_append.mp hm
    · exact h.upto m hm
    · rw [List.mem_singleton.mp hm, hmsg]
  · intro hpend
    cases hpend
  · intro _ m hm
    rw [List.getLast?_concat] at hm
    cases hm
    exact hi.content.finished hp

theorem Sending.server (hi : Inv s) (h : Sending s) (hs : s.serverNext now = some t)
    (hwrap : s.server.pc = .loop → s.server.seq.toNat + 1 < 2 ^ 32) : Sending t := by
  unfold State.serverNext at hs
  split at hs
  case h_1 hp =>
    cases hs
    apply h.build
    · intro todo ht
      rw [hp] at ht
      cases ht
    · have hlt := hwrap hp
      rw [UInt32.toNat_add]
      exact Nat.mod_eq_of_lt hlt
    · rfl
  case h_2 hp =>
    cases hs
    apply h.goto
    · rfl
    · rfl
    · intro _
      rw [hp]
      rfl
    · intro _ todo ht
      rw [hp] at ht
      cases ht
  case h_3 hp =>
    cases hs
    exact h.semWait (.inl hp)
  case h_4 hp =>
    cases hs
    exact h.semWait (.inr hp)
  case h_5 todo hp =>
    split_ifs at hs with htodo
    cases hs
    rw [htodo] at hp
    exact h.copy hi hp
  case h_6 hp =>
    cases hs
    apply h.goto
    · rfl
    · rfl
    · intro hx
      cases hx
    · intro _ todo ht
      rw [hp] at ht
      cases ht

theorem Sending.store (h : Sending s) (hs : s.storeNext k = some t) : Sending t := by
  unfold State.storeNext at hs
  split at hs
  · rename_i todo hp
    split_ifs at hs
    cases hs
    constructor
    · exact h.sorted
    · exact h.upto
    · intro _
      apply h.pending
      rw [hp]
      rfl
    · intro hno
      exact absurd rfl (hno _)
  · cases hs

theorem Sending.sigusr1 (h : Sending s) (hs : s.server.pc ≠ .blocked) : Sending s.sigusr1 := by
  have hpc : s.sigusr1.server.pc = s.server.pc := by
    unfold State.sigusr1
    split
    · contradiction
    · rfl
  apply h.goto
  · rfl
  · rfl
  · intro hp
    rwa [← hpc]
  · intro hno todo ht
    exact hno todo (hpc.trans ht)

theorem ofFn_block (m : IpcMsg) : List.ofFn m.block = m.bytes := by
  apply List.ext_get
  · rw [List.length_ofFn, m.bytes_size]
  · intro k hk hk'
    simp [IpcMsg.block]

theorem Reading.copied {x : Worker} (hi : Inv s) (h : Sending s) (hx : Reading s.copied x)
    (hin : s.inside (some w) = true) (hne : s.copied ≠ []) (hraw : x.raw = s.block) :
    ∃ m ∈ s.copied, x.raw = m.block ∧ x.lastSeq ≤ m.seq.toNat := by
  have hno : ∀ todo, s.server.pc ≠ .memcpy todo := by
    intro todo ht
    have hout : s.inside none = false := hi.outside hin (q := none) nofun
    rw [State.inside, ht] at hout
    cases hout
  have hm := List.getLast?_eq_some_getLast hne
  refine ⟨_, List.getLast_mem hne, hraw.trans (h.latest hno _ hm), ?_⟩
  obtain hl | ⟨m', hm', hl⟩ := hx.last
  · omega
  · have hle := h.le_last hm m' hm'
    omega

theorem Reading.decode {copied : List IpcMsg} {x : Worker} {message : Message} (hx : Reading copied x)
    (hp : x.pc = .decode) (hu : unpackMsg (List.ofFn x.raw) = some message) :
    Reading copied { x with
      pc := .loop
      lastSeq := message.seq
      emitted := if message.seq ≠ x.lastSeq then x.emitted ++ [message] else x.emitted } := by
  have htaken := hx.taken
  rw [InHand, hp] at htaken
  obtain ⟨m, hm, hraw, hle⟩ := htaken
  rw [hraw, ofFn_block] at hu
  have hseq : message.seq = m.seq.toNat := by
    have hbytes := unpackMsg_bytes m
    rw [hu] at hbytes
    cases hbytes
    rfl
  have hlast : ((message.seq : ℕ) : ℤ) = -1 ∨ ∃ m ∈ copied, (message.seq : ℤ) = m.seq.toNat :=
    .inr ⟨m, hm, by rw [hseq]⟩
  split_ifs with hne
  · have hlt : ∀ message' ∈ x.emitted, message'.seq < message.seq := by
      intro message' hmem
      have hb := hx.bound message' hmem
      omega
    constructor
    · constructor
      · intro message' hmem
        obtain hmem | hmem := List.mem_append.mp hmem
        · exact hx.sent message' hmem
        · rw [List.mem_singleton.mp hmem]
          exact ⟨m, hm, hu⟩
      · apply List.pairwise_append.mpr
        refine ⟨hx.increasing, List.pairwise_singleton _ _, fun message' hmem message'' hmem' => ?_⟩
        rw [List.mem_singleton.mp hmem']
        exact hlt message' hmem
    · intro message' hmem
      obtain hmem | hmem := List.mem_append.mp hmem
      · have hb := hlt message' hmem
        simp only
        omega
      · rw [List.mem_singleton.mp hmem]
    · exact hlast
    · trivial
  · constructor
    · exact ⟨hx.sent, hx.increasing⟩
    · intro message' hmem
      have hb := hx.bound message' hmem
      simp only
      omega
    · exact hlast
    · trivial

structure Orderly (s : State ι) : Prop where
  sending : Sending s
  reading : ∀ w, Reading s.copied (s.worker w)

theorem Orderly.setServer (h : Orderly s) (ht : Sending t) (hw : t.worker = s.worker)
    (hc : t.copied = s.copied ∨ ∃ m, t.copied = s.copied ++ [m]) : Orderly t := by
  constructor
  · exact ht
  · intro w
    rw [hw]
    obtain hc | ⟨m, hc⟩ := hc
    · rw [hc]
      exact h.reading w
    · rw [hc]
      exact (h.reading w).append m

theorem serverNext_frame (hs : s.serverNext now = some t) :
    t.worker = s.worker ∧ (t.copied = s.copied ∨ ∃ m, t.copied = s.copied ++ [m]) := by
  unfold State.serverNext State.semWait at hs
  split at hs
  case h_5 =>
    split_ifs at hs
    cases hs
    exact ⟨rfl, .inr ⟨_, rfl⟩⟩
  all_goals
    cases hs
    first | exact ⟨rfl, .inl rfl⟩ | (split_ifs <;> exact ⟨rfl, .inl rfl⟩)

theorem storeNext_frame (hs : s.storeNext k = some t) : t.worker = s.worker ∧ t.copied = s.copied := by
  unfold State.storeNext at hs
  split at hs
  · split_ifs at hs
    cases hs
    exact ⟨rfl, rfl⟩
  · cases hs

variable [DecidableEq ι]

theorem Sending.setWorker (h : Sending s) {x : Worker} {v : ℕ} {decoded : List Block} :
    Sending { s.setWorker w x with value := v, decoded := decoded } :=
  ⟨h.sorted, h.upto, h.pending, h.latest⟩

theorem Orderly.setWorker (h : Orderly s) {x : Worker} {v : ℕ} {decoded : List Block}
    (hx : Reading s.copied x) : Orderly { s.setWorker w x with value := v, decoded := decoded } := by
  constructor
  · exact h.sending.setWorker
  · intro w'
    by_cases hw : w' = w
    · rw [hw]
      change Reading _ ((s.setWorker w x).worker w)
      rw [setWorker_self]
      exact hx
    · change Reading _ ((s.setWorker w x).worker w')
      rw [setWorker_other x hw]
      exact h.reading w'

theorem Orderly.worker (hi : Inv s) (h : Orderly s) (hs : s.workerNext w = some t)
    (ha : (s.worker w).pc = .acquire → s.copied ≠ []) : Orderly t := by
  have hx := h.reading w
  have htaken := hx.taken
  -- the new point of the worker, with all but the point unchanged
  have goto {pc : WorkerPoint} {v : ℕ} (ht : InHand s.copied { s.worker w with pc := pc }) :
      Orderly { s.setWorker w { s.worker w with pc := pc } with value := v } :=
    h.setWorker ⟨⟨hx.sent, hx.increasing⟩, hx.bound, hx.last, ht⟩
  unfold State.workerNext at hs
  simp only at hs
  split at hs
  case h_1 hp =>
    cases hs
    apply goto
    cases (s.worker w).running <;> trivial
  case h_2 hp =>
    split_ifs at hs
    cases hs
    exact goto (ha hp)
  case h_3 todo hp =>
    split_ifs at hs with htodo
    cases hs
    apply goto
    have hsnap := hi.snapshot w
    rw [Snapshot, hp] at hsnap
    rw [InHand, hp] at htaken
    apply hx.copied hi h.sending (w := w) _ htaken
    · funext k
      apply hsnap k
      rw [htodo]
      exact Finset.notMem_empty k
    · rw [State.inside, hp]
      rfl
  case h_4 hp =>
    cases hs
    apply goto
    rw [InHand, hp] at htaken
    exact htaken
  case h_5 hp =>
    obtain ⟨message, hu, rfl⟩ := Option.map_eq_some_iff.mp hs
    exact h.setWorker (hx.decode hp hu)
  case h_6 => cases hs

theorem Orderly.load (h : Orderly s) (hs : s.loadNext w k = some t) : Orderly t := by
  have hx := h.reading w
  have htaken := hx.taken
  unfold State.loadNext at hs
  simp only at hs
  split at hs
  · rename_i todo hp
    split_ifs at hs
    cases hs
    rw [InHand, hp] at htaken
    exact h.setWorker ⟨⟨hx.sent, hx.increasing⟩, hx.bound, hx.last, htaken⟩
  · cases hs

theorem Orderly.next {a : Action ι} (hi : Inv s) (h : Orderly s) (hs : s.next a = some t)
    (hassumed : Assumed s a) (hattached : Attached s a) : Orderly t := by
  cases a with
  | server now =>
    obtain ⟨hw, hc⟩ := serverNext_frame hs
    exact h.setServer (h.sending.server hi hs (hassumed.ticks now rfl)) hw hc
  | store k =>
    obtain ⟨hw, hc⟩ := storeNext_frame hs
    exact h.setServer (h.sending.store hs) hw (.inl hc)
  | worker w => exact h.worker hi hs (hattached w rfl)
  | load w k => exact h.load hs
  | sigusr1 =>
    cases hs
    exact h.setServer (h.sending.sigusr1 hassumed.undisturbed) rfl (.inl rfl)
  | stop w =>
    cases hs
    have hx := h.reading w
    exact h.setWorker ⟨⟨hx.sent, hx.increasing⟩, hx.bound, hx.last, hx.taken⟩

def attachedRuns : System (State ι) (Action ι) :=
  channel.restrict fun s a => Assumed s a ∧ Attached s a

theorem inv_of_attached (h : Reachable attachedRuns s) : Inv s := by
  apply inv_of_reachable
  apply h.mono
  · intro s hs
    exact hs.toStart
  · intro s a t hs
    exact ⟨hs.1, hs.2.1.undisturbed⟩

theorem orderly_of_attached (h : Reachable attachedRuns s) : Orderly s := by
  have hinv : Invariant attachedRuns (Orderly (ι := ι)) := by
    constructor
    · intro s hs
      exact ⟨.of_fresh hs, .of_fresh hs⟩
    · intro s a t hr ih hs
      exact ih.next (inv_of_attached hr) hs.1 hs.2.1 hs.2.2
  exact hinv.holds h

structure Early (w : ι) (p : WorkerPoint) (s : State ι) : Prop where
  pc : (s.worker w).pc = p
  copied : s.copied = []
  lastSeq : (s.worker w).lastSeq = -1

theorem Early.goto {p q : WorkerPoint} (h : Early w p s) {x : Worker} (v : ℕ) (hpc : x.pc = q)
    (hl : x.lastSeq = (s.worker w).lastSeq) : Early w q { s.setWorker w x with value := v } := by
  constructor
  · change ((s.setWorker w x).worker w).pc = q
    rw [setWorker_self, hpc]
  · exact h.copied
  · change ((s.setWorker w x).worker w).lastSeq = -1
    rw [setWorker_self, hl, h.lastSeq]

theorem Early.load {todo : Finset (Fin MSG_SIZE)} (h : Early w (.copy todo) s) (hk : k ∈ todo) :
    ∃ t, s.next (.load w k) = some t ∧ Early w (.copy (todo.erase k)) t := by
  simp only [State.next, State.loadNext, h.pc, hk, if_true]
  exact ⟨_, rfl, h.goto s.value rfl rfl⟩

theorem Early.copy (h : Early w (.copy ∅) s) :
    ∃ t, s.next (.worker w) = some t ∧ Early w .release t := by
  simp only [State.next, State.workerNext, h.pc, if_true]
  exact ⟨_, rfl, h.goto s.value rfl rfl⟩

theorem Early.release (h : Early w .release s) :
    ∃ t, s.next (.worker w) = some t ∧ Early w .decode t := by
  simp only [State.next, State.workerNext, h.pc]
  exact ⟨_, rfl, h.goto _ rfl rfl⟩

theorem Early.decode (h : Early w .decode s) :
    ∃ t, s.next (.worker w) = some t ∧ ¬ Delivery t.copied (t.worker w) := by
  have hlen : (List.ofFn (s.worker w).raw).length = MSG_SIZE := List.length_ofFn ..
  obtain ⟨message, hm⟩ := Option.isSome_iff_exists.mp (unpackMsg_isSome hlen)
  have hne : (message.seq : ℤ) ≠ (s.worker w).lastSeq := by
    rw [h.lastSeq]
    omega
  simp only [State.next, State.workerNext, h.pc, hm, hne, Option.map_some, if_true, ne_eq,
    not_false_eq_true]
  refine ⟨_, rfl, fun hd => ?_⟩
  -- nothing has been sent, and a message has been emitted
  have hsent := hd.sent message (by simp [State.setWorker])
  obtain ⟨m, hm, -⟩ := hsent
  change m ∈ s.copied at hm
  rw [h.copied] at hm
  cases hm

omit [DecidableEq ι] in
theorem assumed_load (s : State ι) (w : ι) (k : Fin MSG_SIZE) : Assumed s (.load w k) :=
  ⟨trivial, nofun⟩

omit [DecidableEq ι] in
theorem assumed_worker (s : State ι) (w : ι) : Assumed s (.worker w) := ⟨trivial, nofun⟩

theorem Early.stray {R : System (State ι) (Action ι)} {todo : Finset (Fin MSG_SIZE)}
    (hR : ∀ s a t, s.next a = some t → Assumed s a → R.step s a t) (hr : Reachable R s)
    (h : Early w (.copy todo) s) : ∃ u, Reachable R u ∧ ¬ Delivery u.copied (u.worker w) := by
  have next {s t : State ι} (hr : Reachable R s) (hs : s.next (.worker w) = some t) : Reachable R t :=
    hr.next (hR _ _ _ hs (assumed_worker s w))
  induction todo using Finset.induction generalizing s with
  | empty =>
    obtain ⟨s₁, hs₁, h₁⟩ := h.copy
    obtain ⟨s₂, hs₂, h₂⟩ := h₁.release
    obtain ⟨s₃, hs₃, h₃⟩ := h₂.decode
    exact ⟨s₃, next (next (next hr hs₁) hs₂) hs₃, h₃⟩
  | @insert k todo hk ih =>
    obtain ⟨t, ht, hearly⟩ := h.load (Finset.mem_insert_self k todo)
    rw [Finset.erase_insert hk] at hearly
    exact ih (hr.next (hR _ _ _ ht (assumed_load s w k))) hearly

theorem Early.acquire (h : Early w .acquire s) (hs : s.next (.worker w) = some t) :
    Early w (.copy Finset.univ) t := by
  simp only [State.next, State.workerNext, h.pc] at hs
  split_ifs at hs
  cases hs
  apply h.goto
  · rfl
  · simp

theorem early_of_not_attached (h : Reachable attachedRuns s) (hno : ¬ Attached s (.worker w)) :
    Early w .acquire s := by
  have hearly : (s.worker w).pc = .acquire ∧ s.copied = [] := by
    by_contra hcon
    apply hno
    intro w' hw hpc hc
    cases hw
    exact hcon ⟨hpc, hc⟩
  constructor
  · exact hearly.1
  · exact hearly.2
  · apply ((orderly_of_attached h).reading w).last.resolve_right
    rintro ⟨m, hm, -⟩
    rw [hearly.2] at hm
    cases hm

theorem delivery_attached :
    (∀ s : State ι, Reachable attachedRuns s → ∀ w, Delivery s.copied (s.worker w)) ∧
    ∀ (s t : State ι) (w : ι), Reachable attachedRuns s → s.next (.worker w) = some t →
      ¬ Attached s (.worker w) →
      ∃ u, Reachable ((channel.restrict Assumed).after t) u ∧ ¬ Delivery u.copied (u.worker w) := by
  constructor
  · intro s h w
    exact ((orderly_of_attached h).reading w).toDelivery
  · intro s t w h hs hno
    apply ((early_of_not_attached h hno).acquire hs).stray
    · intro s a t hs ha
      exact ⟨hs, ha⟩
    · exact .start rfl

theorem sharedStart_fresh : Fresh sharedStart :=
  ⟨⟨rfl, rfl, rfl, fun _ => rfl, rfl⟩, rfl, rfl, fun _ => rfl, fun _ => rfl⟩

def polling : State Unit := { sharedStart with worker := fun _ => ⟨.acquire, true, fun _ => 0, -1, []⟩ }

theorem polling_reachable : Reachable attachedRuns polling := by
  have hs : sharedStart.next (.worker ()) = some polling := rfl
  apply (Reachable.start sharedStart_fresh).next (a := .worker ())
  refine ⟨hs, assumed_worker _ _, ?_⟩
  intro w _ hpc
  cases hpc

theorem polling_stray : ∃ u : State Unit, Reachable (channel.restrict Assumed) u ∧
    ¬ Delivery u.copied (u.worker ()) := by
  have hr : Reachable (channel.restrict Assumed) polling := by
    apply polling_reachable.mono
    · intro s hs
      exact hs
    · intro s a t hs
      exact ⟨hs.1, hs.2.1⟩
  have hearly : Early () .acquire polling := ⟨rfl, rfl, rfl⟩
  apply (hearly.acquire rfl).stray
  · intro s a t hs ha
    exact ⟨hs, ha⟩
  · exact hr.next (a := .worker ()) ⟨rfl, assumed_worker _ _⟩

theorem reachable_server (now : UInt64) (h : Reachable attachedRuns s) (hs : s.serverNext now = some t)
    (hticks : s.server.seq.toNat + 1 < 2 ^ 32) : Reachable attachedRuns t := by
  apply h.next (a := .server now)
  refine ⟨hs, ⟨trivial, ?_⟩, nofun⟩
  rintro _ _ _
  exact hticks

theorem reachable_worker (h : Reachable attachedRuns s) (hs : s.workerNext w = some t)
    (hcopied : s.copied ≠ []) : Reachable attachedRuns t := by
  apply h.next (a := .worker w)
  exact ⟨hs, assumed_worker s w, fun _ _ _ => hcopied⟩

theorem stored {todo : Finset (Fin MSG_SIZE)} (h : Reachable attachedRuns s)
    (hpc : s.server.pc = .memcpy todo) :
    Reachable attachedRuns { s with
      block := fun k => if k ∈ todo then s.server.msg.block k else s.block k
      server := { s.server with pc := .memcpy ∅ } } := by
  induction todo using Finset.induction generalizing s with
  | empty => simpa [← hpc] using h
  | @insert k todo hk ih =>
    have hstep : s.next (.store k) = some { s with
        block := Function.update s.block k (s.server.msg.block k)
        server := { s.server with pc := .memcpy todo } } := by
      simp [State.next, State.storeNext, hpc, Finset.erase_insert hk]
    have hstored := ih (h.next ⟨hstep, ⟨trivial, nofun⟩, nofun⟩) rfl
    convert hstored using 3 with j
    by_cases hj : j = k
    · simp [hj]
    · simp [hj]

theorem loaded {todo : Finset (Fin MSG_SIZE)} (h : Reachable attachedRuns s)
    (hpc : (s.worker w).pc = .copy todo) :
    Reachable attachedRuns (s.setWorker w { s.worker w with
      pc := .copy ∅
      raw := fun k => if k ∈ todo then s.block k else (s.worker w).raw k }) := by
  induction todo using Finset.induction generalizing s with
  | empty => simpa [← hpc, State.setWorker] using h
  | @insert k todo hk ih =>
    have hstep : s.next (.load w k) = some (s.setWorker w { s.worker w with
        pc := .copy todo
        raw := Function.update (s.worker w).raw k (s.block k) }) := by
      simp [State.next, State.loadNext, hpc, Finset.erase_insert hk]
    have hloaded := ih (h.next ⟨hstep, assumed_load s w k, nofun⟩) (by simp [State.setWorker])
    convert hloaded using 1
    simp only [State.setWorker, Function.update_idem, Function.update_self]
    congr 3
    funext j
    by_cases hj : j = k
    · simp [hj]
    · simp [hj]

def TICK : IpcMsg := (buildMsg 1 0 0).print 0

def ticked : State Unit where
  value := 1
  block := TICK.block
  server := ⟨.loop, 1, 0, TICK⟩
  worker _ := ⟨.loop, true, fun _ => 0, -1, []⟩
  copied := [TICK]
  decoded := []

theorem ticked_reachable : Reachable attachedRuns ticked := by
  have hbuilt := reachable_server 0 (Reachable.start sharedStart_fresh) rfl (by decide)
  have hprinted := reachable_server 0 hbuilt rfl (by decide)
  have hwaited : Reachable attachedRuns { sharedStart with
      value := 0
      server := ⟨.memcpy Finset.univ, 1, 0, TICK⟩ } := reachable_server 0 hprinted rfl (by decide)
  have hstored := stored hwaited rfl
  simp only [Finset.mem_univ, if_true] at hstored
  have hcopied : Reachable attachedRuns { ticked with value := 0, server := ⟨.semPost, 1, 0, TICK⟩ } :=
    reachable_server 0 hstored rfl (by decide)
  exact reachable_server 0 hcopied rfl (by decide)

def emitted : State Unit := { ticked with
  worker := fun _ => ⟨.loop, true, TICK.block, 1, [⟨1, 0, 0, "tick #1 (SIGUSR1 x0)"⟩]⟩
  decoded := [TICK.block] }

theorem emitted_reachable : Reachable attachedRuns emitted := by
  have hcopied : [TICK] ≠ [] := by simp
  have hstarted : Reachable attachedRuns { ticked with
      worker := fun _ => ⟨.acquire, true, fun _ => 0, -1, []⟩ } :=
    reachable_worker (w := ()) ticked_reachable rfl hcopied
  have hacquired : Reachable attachedRuns { ticked with
      value := 0
      worker := fun _ => ⟨.copy Finset.univ, true, fun _ => 0, -1, []⟩ } :=
    reachable_worker (w := ()) hstarted rfl hcopied
  have hloaded := loaded (w := ()) hacquired rfl
  simp only [Finset.mem_univ, if_true] at hloaded
  have hleft : Reachable attachedRuns { ticked with
      value := 0
      worker := fun _ => ⟨.release, true, TICK.block, -1, []⟩ } :=
    reachable_worker (w := ()) hloaded rfl hcopied
  have hreleased : Reachable attachedRuns { ticked with
      worker := fun _ => ⟨.decode, true, TICK.block, -1, []⟩ } :=
    reachable_worker (w := ()) hleft rfl hcopied
  have hunpacked : unpackMsg (List.ofFn TICK.block) = some ⟨1, 0, 0, "tick #1 (SIGUSR1 x0)"⟩ := by
    rw [ofFn_block]
    exact unpackMsg_holds (tickText_ascii 1 0) (tickText_nul 1 0) (print_holds _ 0)
  apply reachable_worker (w := ()) hreleased _ hcopied
  simp only [State.workerNext, hunpacked]
  rfl

theorem delivery_attached_polling : Delivery emitted.copied (emitted.worker ()) ∧
    ∃ t u, polling.next (.worker ()) = some t ∧ Reachable ((channel.restrict Assumed).after t) u ∧
      ¬ Delivery u.copied (u.worker ()) := by
  constructor
  · exact delivery_attached.1 emitted emitted_reachable ()
  · have hno : ¬ Attached polling (.worker ()) := fun h => h () rfl rfl rfl
    obtain ⟨u, hu⟩ := delivery_attached.2 polling _ () polling_reachable rfl hno
    exact ⟨_, u, rfl, hu⟩

theorem not_delivery : ¬ ∀ s : State Unit, Reachable (channel.restrict Assumed) s →
    Delivery s.copied (s.worker ()) := by
  intro h
  obtain ⟨u, hu, hd⟩ := polling_stray
  exact hd (h u hu)

end EmbeddedLinuxTraining.Ipc
