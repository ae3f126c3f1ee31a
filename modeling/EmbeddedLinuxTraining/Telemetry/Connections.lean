import Mathlib.Data.List.ReduceOption
import Mathlib.Logic.Function.Basic
import EmbeddedLinuxTraining.Telemetry.Message

/-!
The epoll loop of `server_thread_fn` towards its clients, with the descriptors as the kernel sees
them. A step handles one event of the batch.
-/

namespace EmbeddedLinuxTraining.Telemetry.Connections

open Library.Transition

abbrev Fd := ℕ

abbrev Connection := ℕ

inductive Service
  | listen | fifo | timer | notify
  deriving DecidableEq

/-- `evs & (EPOLLHUP | EPOLLERR)` is `hup`. `conn` is history: to whom the descriptor belonged when
`epoll_wait` returned. -/
structure Event where
  fd : Fd
  hup : Bool
  conn : Option Connection

inductive Outcome
  | whole
  | short (n : ℕ)
  | again
  | error

/-- `conn` and `watched` are the kernel's: the connection of each open client descriptor, and the
client descriptors registered in epoll. The bytes that the kernel has accepted for a connection are
`stream`. The last four fields are history: what the calls of `close` have closed, what the calls of
`write` have written to, the messages, and the connections with a short write. -/
structure State where
  running : Bool
  clients : List (Option Fd)
  events : List Event
  conn : Fd → Option Connection
  watched : Fd → Bool
  accepted : ℕ
  stream : Connection → List UInt8
  closed : List (Option Connection)
  written : List (Option Connection)
  sent : List (List UInt8)
  torn : Connection → Bool

inductive Input
  | accepted (fds : List Fd)
  | expired (sample : Sample) (outcomes : List Outcome)
  | received (gone : Bool)
  | nothing

inductive Action
  | poll (events : List (Fd × Bool))
  | handle (input : Input)
  | stop

def Outcome.bytes (message : List UInt8) : Outcome → List UInt8
  | .whole => message
  | .short n => message.take n
  | .again | .error => []

def Outcome.tears : Outcome → Bool
  | .short _ => true
  | _ => false

def Outcome.possible (message : List UInt8) : Outcome → Bool
  | .short n => 0 < n && n < message.length
  | _ => true

variable (service : Fd → Option Service)

namespace State

def close (s : State) (fd : Fd) : State :=
  { s with
    conn := Function.update s.conn fd none
    watched := Function.update s.watched fd false
    closed := s.closed ++ [s.conn fd] }

def epollCtl (s : State) (fd : Fd) (add : Bool) : State :=
  { s with watched := Function.update s.watched fd add }

def addClient (s : State) (fd : Fd) : State :=
  if none ∈ s.clients then { s with clients := Telemetry.addClient s.clients fd } else s.close fd

def removeClient (s : State) (fd : Fd) : State :=
  if some fd ∈ s.clients then
    { (s.epollCtl fd false).close fd with clients := Telemetry.removeClient s.clients fd }
  else s

def accept (s : State) (fd : Fd) : Option State :=
  if service fd = none ∧ s.conn fd = none then
    some (({ s with
      conn := Function.update s.conn fd (some s.accepted)
      accepted := s.accepted + 1 }.epollCtl fd true).addClient fd)
  else none

def write (message : List UInt8) (s : State) (call : Fd × Outcome) : State :=
  match s.conn call.1 with
  | some c =>
    { s with
      written := s.written ++ [some c]
      stream := Function.update s.stream c (s.stream c ++ Outcome.bytes message call.2)
      torn := Function.update s.torn c (s.torn c || Outcome.tears call.2) }
  | none => { s with written := s.written ++ [none] }

def broadcast (s : State) (message : List UInt8) (outcomes : List Outcome) : Option State :=
  let fds := s.clients.reduceOption
  if outcomes.length = fds.length ∧ outcomes.all (Outcome.possible message) then
    some ((fds.zip outcomes).foldl (write message) { s with sent := s.sent ++ [message] })
  else none

def poll (s : State) (events : List (Fd × Bool)) : Option State :=
  if s.running ∧ s.events = [] ∧ (events.map Prod.fst).Nodup ∧ events.length ≤ MAX_EPOLL_EVENTS ∧
      ∀ e ∈ events, (service e.1).isSome ∨ s.watched e.1 then
    some { s with events := events.map fun e => ⟨e.1, e.2, s.conn e.1⟩ }
  else none

def dispatch (s : State) (e : Event) (input : Input) : Option State :=
  match service e.fd, input with
  | some .listen, .accepted fds => fds.foldlM (accept service) s
  | some .timer, .expired sample outcomes =>
    if sample.Fits then s.broadcast (telemetryMessage sample) outcomes else none
  | some .timer, .nothing | some .fifo, .nothing | some .notify, .nothing => some s
  | none, .received gone => some (if e.hup || gone then s.removeClient e.fd else s)
  | _, _ => none

def handle (s : State) (input : Input) : Option State :=
  match s.events with
  | [] => none
  | e :: events => { s with events := events }.dispatch service e input

def stop (s : State) : Option State :=
  if s.running ∧ s.events = [] then
    some { s.clients.reduceOption.foldl close s with running := false }
  else none

def next (s : State) : Action → Option State
  | .poll events => s.poll service events
  | .handle input => s.handle service input
  | .stop => s.stop

end State

structure Start (s : State) : Prop where
  running : s.running = true
  clients : s.clients = List.replicate MAX_CLIENTS none
  events : s.events = []
  conn : ∀ fd, s.conn fd = none
  watched : ∀ fd, s.watched fd = false
  accepted : s.accepted = 0
  history : s.closed = [] ∧ s.written = [] ∧ s.sent = [] ∧ (∀ c, s.torn c = false) ∧ ∀ c, s.stream c = []

def server : System State Action where
  init := Start
  step s a t := s.next service a = some t

structure Kernel (s : State) : Prop where
  own : ∀ fd c, s.conn fd = some c → service fd = none
  numbered : ∀ fd c, s.conn fd = some c → c < s.accepted
  distinct : ∀ fd fd' c, s.conn fd = some c → s.conn fd' = some c → fd = fd'
  once : s.closed.Nodup
  closed : ∀ o, o ∈ s.closed ↔ ∃ c, o = some c ∧ c < s.accepted ∧ ∀ fd, s.conn fd ≠ some c

structure Table (s : State) : Prop where
  size : s.clients.length = MAX_CLIENTS
  nodup : s.clients.reduceOption.Nodup
  used : ∀ fd, fd ∈ s.clients.reduceOption ↔ s.conn fd ≠ none
  watched : ∀ fd, s.watched fd = true ↔ s.conn fd ≠ none

structure Batch (s : State) : Prop where
  nodup : (s.events.map Event.fd).Nodup
  current : ∀ e ∈ s.events, service e.fd = none → s.conn e.fd = e.conn ∧ e.conn ≠ none

variable {service : Fd → Option Service} {s t : State} {fd : Fd}

theorem addClient_perm {clients : List (Option Fd)} (h : none ∈ clients) :
    (Telemetry.addClient clients fd).reduceOption.Perm (fd :: clients.reduceOption) := by
  induction clients with
  | nil => cases h
  | cons client rest ih =>
    cases client with
    | none => simp [Telemetry.addClient]
    | some used =>
      have hrest : none ∈ rest := by simpa using h
      simp only [Telemetry.addClient, List.reduceOption_cons_of_some]
      exact ((ih hrest).cons used).trans (List.Perm.swap ..)

theorem removeClient_perm {clients : List (Option Fd)} (h : some fd ∈ clients) :
    clients.reduceOption.Perm (fd :: (Telemetry.removeClient clients fd).reduceOption) := by
  induction clients with
  | nil => cases h
  | cons client rest ih =>
    unfold Telemetry.removeClient
    split_ifs with he
    · rw [he]
      simp
    · have hrest : some fd ∈ rest := by
        apply (List.mem_cons.mp h).resolve_left
        exact fun hc => he hc.symm
      cases client with
      | none => simpa using ih hrest
      | some used =>
        simp only [List.reduceOption_cons_of_some]
        exact ((ih hrest).cons used).trans (List.Perm.swap ..)

theorem length_addClient (clients : List (Option Fd)) (fd : Fd) :
    (Telemetry.addClient clients fd).length = clients.length := by
  induction clients with
  | nil => rfl
  | cons client rest ih =>
    cases client with
    | none => rfl
    | some used => simp [Telemetry.addClient, ih]

theorem length_removeClient (clients : List (Option Fd)) (fd : Fd) :
    (Telemetry.removeClient clients fd).length = clients.length := by
  induction clients with
  | nil => rfl
  | cons client rest ih =>
    unfold Telemetry.removeClient
    split_ifs
    · simp
    · simp [ih]

theorem Kernel.of_eq (h : Kernel service s) (hc : t.conn = s.conn) (ha : t.accepted = s.accepted)
    (hl : t.closed = s.closed) : Kernel service t := by
  obtain ⟨hown, hnumbered, hdistinct, honce, hclosed⟩ := h
  constructor
  · rwa [hc]
  · rwa [hc, ha]
  · rwa [hc]
  · rwa [hl]
  · rwa [hl, hc, ha]

theorem Table.of_eq (h : Table s) (hl : t.clients = s.clients) (hc : t.conn = s.conn)
    (hw : t.watched = s.watched) : Table t := by
  obtain ⟨hsize, hnodup, hused, hwatched⟩ := h
  constructor
  · rwa [hl]
  · rwa [hl]
  · rwa [hl, hc]
  · rwa [hw, hc]

theorem conn_fresh {fd' : Fd} {c d : Connection} (hf : s.conn fd = none) (hc : s.conn fd' = some c) :
    Function.update s.conn fd (some d) fd' = some c := by
  rw [Function.update_of_ne]
  · exact hc
  · rintro rfl
    rw [hf] at hc
    cases hc

theorem Kernel.accept4 (h : Kernel service s) (hs : service fd = none) (hf : s.conn fd = none) :
    Kernel service { s with
      conn := Function.update s.conn fd (some s.accepted), accepted := s.accepted + 1 } := by
  have hconn {fd' : Fd} {c : Connection} (hc : Function.update s.conn fd (some s.accepted) fd' = some c) :
      fd' = fd ∧ c = s.accepted ∨ fd' ≠ fd ∧ s.conn fd' = some c := by
    by_cases he : fd' = fd
    · rw [he, Function.update_self] at hc
      cases hc
      exact .inl ⟨he, rfl⟩
    · rw [Function.update_of_ne he] at hc
      exact .inr ⟨he, hc⟩
  constructor
  · intro fd' c hc
    obtain ⟨rfl, -⟩ | ⟨-, hc⟩ := hconn hc
    · exact hs
    · exact h.own fd' c hc
  · intro fd' c hc
    obtain ⟨-, rfl⟩ | ⟨-, hc⟩ := hconn hc
    · exact Nat.lt_succ_self _
    · exact Nat.lt_succ_of_lt (h.numbered fd' c hc)
  · intro fd₁ fd₂ c h₁ h₂
    obtain ⟨he₁, hc₁⟩ | ⟨-, hc₁⟩ := hconn h₁ <;> obtain ⟨he₂, hc₂⟩ | ⟨-, hc₂⟩ := hconn h₂
    · exact he₁.trans he₂.symm
    · rw [hc₁] at hc₂
      exact absurd (h.numbered fd₂ _ hc₂) (Nat.lt_irrefl _)
    · rw [hc₂] at hc₁
      exact absurd (h.numbered fd₁ _ hc₁) (Nat.lt_irrefl _)
    · exact h.distinct fd₁ fd₂ c hc₁ hc₂
  · exact h.once
  · intro o
    rw [h.closed]
    constructor
    · rintro ⟨c, rfl, hlt, hno⟩
      refine ⟨c, rfl, Nat.lt_succ_of_lt hlt, fun fd' hc => ?_⟩
      obtain ⟨-, rfl⟩ | ⟨-, hc⟩ := hconn hc
      · exact Nat.lt_irrefl _ hlt
      · exact hno fd' hc
    · rintro ⟨c, rfl, hlt, hno⟩
      have hne : c ≠ s.accepted := by
        rintro rfl
        exact hno fd (Function.update_self ..)
      refine ⟨c, rfl, Nat.lt_of_le_of_ne (Nat.le_of_lt_succ hlt) hne, fun fd' hc => ?_⟩
      exact hno fd' (conn_fresh hf hc)

theorem Kernel.close (h : Kernel service s) {c : Connection} (hc : s.conn fd = some c) :
    Kernel service (s.close fd) := by
  have hconn {fd' : Fd} {c' : Connection} (hc' : Function.update s.conn fd none fd' = some c') :
      fd' ≠ fd ∧ s.conn fd' = some c' := by
    have hne : fd' ≠ fd := by
      rintro rfl
      rw [Function.update_self] at hc'
      cases hc'
    rw [Function.update_of_ne hne] at hc'
    exact ⟨hne, hc'⟩
  constructor
  · intro fd' c' hc'
    exact h.own fd' c' (hconn hc').2
  · intro fd' c' hc'
    exact h.numbered fd' c' (hconn hc').2
  · intro fd₁ fd₂ c' h₁ h₂
    exact h.distinct fd₁ fd₂ c' (hconn h₁).2 (hconn h₂).2
  · change (s.closed ++ [s.conn fd]).Nodup
    rw [hc]
    apply List.nodup_append.mpr
    refine ⟨h.once, List.nodup_singleton _, fun o ho o' ho' => ?_⟩
    rw [List.mem_singleton.mp ho']
    rintro rfl
    obtain ⟨c', he, -, hno⟩ := (h.closed _).mp ho
    cases he
    exact hno fd hc
  · intro o
    change o ∈ s.closed ++ [s.conn fd] ↔ _
    rw [hc, List.mem_append, h.closed, List.mem_singleton]
    constructor
    · rintro (⟨c', rfl, hlt, hno⟩ | rfl)
      · exact ⟨c', rfl, hlt, fun fd' hc' => hno fd' (hconn hc').2⟩
      · refine ⟨c, rfl, h.numbered fd c hc, fun fd' hc' => ?_⟩
        obtain ⟨hne, hc'⟩ := hconn hc'
        exact hne (h.distinct fd' fd c hc' hc)
    · rintro ⟨c', rfl, hlt, hno⟩
      by_cases he : c' = c
      · exact .inr (congrArg some he)
      · refine .inl ⟨c', rfl, hlt, fun fd' hc' => ?_⟩
        apply hno fd'
        change Function.update s.conn fd none fd' = some c'
        rw [Function.update_of_ne]
        · exact hc'
        · rintro rfl
          rw [hc] at hc'
          exact he (Option.some.inj hc').symm

theorem Table.free (h : Table s) (hf : s.conn fd = none) :
    fd ∉ s.clients.reduceOption ∧ s.watched fd = false := by
  constructor
  · intro hmem
    exact (h.used fd).mp hmem hf
  · cases hw : s.watched fd with
    | false => rfl
    | true => exact absurd hf ((h.watched fd).mp hw)

theorem update_ne_none {conn : Fd → Option Connection} (c : Connection) (fd' : Fd) :
    Function.update conn fd (some c) fd' ≠ none ↔ fd' = fd ∨ conn fd' ≠ none := by
  by_cases he : fd' = fd
  · simp [he]
  · simp [he]

theorem Table.add (h : Table s) (hroom : none ∈ s.clients) (hf : s.conn fd = none) (c : Connection) :
    Table { s with
      clients := Telemetry.addClient s.clients fd
      conn := Function.update s.conn fd (some c)
      watched := Function.update s.watched fd true } := by
  have hperm : (Telemetry.addClient s.clients fd).reduceOption.Perm (fd :: s.clients.reduceOption) :=
    addClient_perm hroom
  constructor
  · rw [length_addClient, h.size]
  · apply hperm.nodup_iff.mpr
    exact List.nodup_cons.mpr ⟨(h.free hf).1, h.nodup⟩
  · intro fd'
    rw [update_ne_none, hperm.mem_iff, List.mem_cons, h.used]
  · intro fd'
    rw [update_ne_none]
    by_cases he : fd' = fd
    · simp [he]
    · simp [he, h.watched]

theorem Table.remove (h : Table s) (hmem : some fd ∈ s.clients) : Table (s.removeClient fd) := by
  have hperm : s.clients.reduceOption.Perm (fd :: (Telemetry.removeClient s.clients fd).reduceOption) :=
    removeClient_perm hmem
  obtain ⟨hnot, hnodup⟩ := List.nodup_cons.mp (hperm.nodup_iff.mp h.nodup)
  have hkeep (fd' : Fd) : fd' ∈ (Telemetry.removeClient s.clients fd).reduceOption ↔
      fd' ≠ fd ∧ fd' ∈ s.clients.reduceOption := by
    rw [hperm.mem_iff, List.mem_cons]
    constructor
    · intro hin
      refine ⟨?_, .inr hin⟩
      rintro rfl
      exact hnot hin
    · rintro ⟨hne, hin⟩
      exact hin.resolve_left hne
  have hconn (fd' : Fd) : Function.update s.conn fd none fd' ≠ none ↔ fd' ≠ fd ∧ s.conn fd' ≠ none := by
    by_cases he : fd' = fd
    · simp [he]
    · simp [he]
  rw [State.removeClient, if_pos hmem]
  constructor
  · change (Telemetry.removeClient s.clients fd).length = _
    rw [length_removeClient, h.size]
  · exact hnodup
  · intro fd'
    change _ ∈ (Telemetry.removeClient s.clients fd).reduceOption ↔ Function.update s.conn fd none fd' ≠ none
    rw [hkeep, hconn, h.used]
  · intro fd'
    change Function.update (Function.update s.watched fd false) fd false fd' = true ↔
      Function.update s.conn fd none fd' ≠ none
    rw [hconn, Function.update_idem]
    by_cases he : fd' = fd
    · simp [he]
    · simp [he, h.watched]

structure Accepting (s t : State) : Prop where
  running : t.running = s.running
  events : t.events = s.events
  conn : ∀ fd c, s.conn fd = some c → t.conn fd = some c

theorem Accepting.trans {u : State} (h : Accepting s t) (h' : Accepting t u) : Accepting s u := by
  constructor
  · rw [h'.running, h.running]
  · rw [h'.events, h.events]
  · intro fd c hc
    exact h'.conn fd c (h.conn fd c hc)

theorem accept_keeps (hk : Kernel service s) (ht : Table s) (h : s.accept service fd = some t) :
    Kernel service t ∧ Table t ∧ Accepting s t := by
  unfold State.accept at h
  obtain ⟨⟨hs, hf⟩, h⟩ := Option.ite_none_right_eq_some.mp h
  have hfresh : Kernel service (State.epollCtl { s with
      conn := Function.update s.conn fd (some s.accepted)
      accepted := s.accepted + 1 } fd true) :=
    (hk.accept4 hs hf).of_eq rfl rfl rfl
  cases h
  unfold State.addClient
  split_ifs with hroom
  · refine ⟨hfresh.of_eq rfl rfl rfl, (ht.add hroom hf s.accepted).of_eq rfl rfl rfl, rfl, rfl, ?_⟩
    intro fd' c hc
    exact conn_fresh hf hc
  · have hconn : Function.update (Function.update s.conn fd (some s.accepted)) fd none = s.conn := by
      rw [Function.update_idem, ← hf, Function.update_eq_self]
    have hwatched : Function.update (Function.update s.watched fd true) fd false = s.watched := by
      rw [Function.update_idem, ← (ht.free hf).2, Function.update_eq_self]
    refine ⟨hfresh.close (Function.update_self ..), ht.of_eq rfl hconn hwatched, rfl, rfl, ?_⟩
    intro fd' c hc
    exact (congrFun hconn fd').trans hc

theorem accept_loop_keeps {fds : List Fd} (hk : Kernel service s) (ht : Table s)
    (h : fds.foldlM (State.accept service) s = some t) :
    Kernel service t ∧ Table t ∧ Accepting s t := by
  apply execute_keeps (I := fun t => Kernel service t ∧ Table t ∧ Accepting s t) _ _ h
  · intro u fd v ⟨hk, ht, ha⟩ hv
    obtain ⟨hk', ht', ha'⟩ := accept_keeps hk ht hv
    exact ⟨hk', ht', ha.trans ha'⟩
  · exact ⟨hk, ht, rfl, rfl, fun _ _ hc => hc⟩

theorem foldl_write {α : Type} (field : State → α)
    (hfield : ∀ s written stream torn,
      field { s with written := written, stream := stream, torn := torn } = field s)
    (message : List UInt8) (calls : List (Fd × Outcome)) (s : State) :
    field (calls.foldl (State.write message) s) = field s := by
  induction calls generalizing s with
  | nil => rfl
  | cons call calls ih =>
    rw [List.foldl_cons, ih]
    unfold State.write
    split
    · exact hfield s _ _ _
    · exact hfield s _ s.stream s.torn

theorem written_foldl_write (message : List UInt8) (calls : List (Fd × Outcome)) (s : State) :
    (calls.foldl (State.write message) s).written = s.written ++ calls.map fun call => s.conn call.1 := by
  induction calls generalizing s with
  | nil => simp
  | cons call calls ih =>
    have hconn : (s.write message call).conn = s.conn :=
      foldl_write State.conn (fun _ _ _ _ => rfl) message [call] s
    have hwritten : (s.write message call).written = s.written ++ [s.conn call.1] := by
      unfold State.write
      split
      · rename_i c hc
        rw [hc]
      · rename_i hc
        rw [hc]
    rw [List.foldl_cons, ih, hconn, hwritten, List.map_cons, List.append_assoc]
    rfl

structure Live (service : Fd → Option Service) (s : State) : Prop where
  kernel : Kernel service s
  table : Table s
  batch : Batch service s

theorem Batch.of_sublist (h : Batch service s) (hevents : t.events.Sublist s.events)
    (hconn : ∀ fd ∈ t.events.map Event.fd, ∀ c, s.conn fd = some c → t.conn fd = some c) :
    Batch service t := by
  constructor
  · exact h.nodup.sublist (hevents.map Event.fd)
  · intro e he hs
    obtain ⟨hcurrent, hopen⟩ := h.current e (hevents.subset he) hs
    obtain ⟨c, hc⟩ := Option.ne_none_iff_exists'.mp hopen
    refine ⟨?_, hopen⟩
    rw [hc]
    apply hconn e.fd (List.mem_map_of_mem he) c
    rw [hcurrent, hc]

theorem Live.of_eq (h : Live service s) (hevents : t.events.Sublist s.events)
    (hclients : t.clients = s.clients) (hconn : t.conn = s.conn) (hwatched : t.watched = s.watched)
    (haccepted : t.accepted = s.accepted)
    (hclosed : t.closed = s.closed) : Live service t := by
  constructor
  · exact h.kernel.of_eq hconn haccepted hclosed
  · exact h.table.of_eq hclients hconn hwatched
  · apply h.batch.of_sublist hevents
    intro fd _ c hc
    rw [hconn, hc]

theorem Live.broadcast (h : Live service s) {message : List UInt8} {outcomes : List Outcome}
    (hb : s.broadcast message outcomes = some t) : Live service t ∧ t.running = s.running := by
  unfold State.broadcast at hb
  obtain ⟨-, hb⟩ := Option.ite_none_right_eq_some.mp hb
  cases hb
  constructor
  · apply h.of_eq
    · rw [foldl_write State.events fun _ _ _ _ => rfl]
    · rw [foldl_write State.clients fun _ _ _ _ => rfl]
    · rw [foldl_write State.conn fun _ _ _ _ => rfl]
    · rw [foldl_write State.watched fun _ _ _ _ => rfl]
    · rw [foldl_write State.accepted fun _ _ _ _ => rfl]
    · rw [foldl_write State.closed fun _ _ _ _ => rfl]
  · rw [foldl_write State.running fun _ _ _ _ => rfl]

theorem Live.removeClient (h : Live service s) {c : Connection} (hc : s.conn fd = some c)
    (hfd : fd ∉ s.events.map Event.fd) :
    Live service (s.removeClient fd) ∧ (s.removeClient fd).running = s.running := by
  have hmem : some fd ∈ s.clients := by
    apply List.reduceOption_mem_iff.mp
    apply (h.table.used fd).mpr
    rw [hc]
    exact Option.some_ne_none c
  have htable : Table (s.removeClient fd) := h.table.remove hmem
  rw [State.removeClient, if_pos hmem] at htable ⊢
  refine ⟨⟨(h.kernel.close hc).of_eq rfl rfl rfl, htable, ?_⟩, rfl⟩
  apply h.batch.of_sublist
  · exact List.Sublist.refl _
  intro fd' hfd' c' hc'
  change Function.update s.conn fd none fd' = some c'
  rw [Function.update_of_ne]
  · exact hc'
  · rintro rfl
    exact hfd hfd'

theorem Live.rest (h : Live service s) {e : Event} {events : List Event} (hevents : s.events = e :: events) :
    Live service { s with events := events } := by
  apply h.of_eq
  · rw [hevents]
    exact List.sublist_cons_self e events
  · rfl
  · rfl
  · rfl
  · rfl
  · rfl

theorem Live.dispatch (h : Live service s) {e : Event} {input : Input} (hnot : e.fd ∉ s.events.map Event.fd)
    (hcurrent : service e.fd = none → s.conn e.fd = e.conn ∧ e.conn ≠ none)
    (ht : s.dispatch service e input = some t) : Live service t ∧ t.running = s.running := by
  unfold State.dispatch at ht
  split at ht
  · -- EPOLLIN on the listening socket
    obtain ⟨hkernel, htable, haccept⟩ := accept_loop_keeps h.kernel h.table ht
    refine ⟨⟨hkernel, htable, ?_⟩, haccept.running⟩
    apply h.batch.of_sublist
    · rw [haccept.events]
    · intro fd _ c hc
      exact haccept.conn fd c hc
  · obtain ⟨-, ht⟩ := Option.ite_none_right_eq_some.mp ht
    exact h.broadcast ht
  · cases ht
    exact ⟨h, rfl⟩
  · cases ht
    exact ⟨h, rfl⟩
  · cases ht
    exact ⟨h, rfl⟩
  · -- a client: EPOLLHUP, the end of the stream or something to read
    rename_i hs
    cases ht
    split_ifs
    · obtain ⟨hconn, hopen⟩ := hcurrent hs
      obtain ⟨c, hc⟩ := Option.ne_none_iff_exists'.mp hopen
      exact h.removeClient (hconn.trans hc) hnot
    · exact ⟨h, rfl⟩
  · cases ht

theorem Live.handle (h : Live service s) {input : Input} (ht : s.handle service input = some t) :
    Live service t ∧ t.running = s.running := by
  unfold State.handle at ht
  split at ht
  · cases ht
  · rename_i e events hevents
    have hnodup : (e.fd :: events.map Event.fd).Nodup := by
      have hnodup := h.batch.nodup
      rwa [hevents] at hnodup
    have hmem : e ∈ s.events := by
      rw [hevents]
      exact List.mem_cons_self
    exact (h.rest hevents).dispatch (List.nodup_cons.mp hnodup).1 (h.batch.current e hmem) ht

theorem Live.poll (h : Live service s) {events : List (Fd × Bool)} (ht : s.poll service events = some t) :
    Live service t ∧ t.running = s.running := by
  unfold State.poll at ht
  obtain ⟨⟨-, -, hnodup, -, hregistered⟩, ht⟩ := Option.ite_none_right_eq_some.mp ht
  cases ht
  refine ⟨⟨h.kernel.of_eq rfl rfl rfl, h.table.of_eq rfl rfl rfl, ?_, ?_⟩, rfl⟩
  · rw [List.map_map]
    exact hnodup
  · intro e he hs
    obtain ⟨e, hin, rfl⟩ := List.mem_map.mp he
    refine ⟨rfl, (h.table.watched e.1).mp ((hregistered e hin).resolve_left ?_)⟩
    rw [hs]
    exact Bool.false_ne_true

theorem foldl_close {fds : List Fd} (hk : Kernel service s) (hnodup : fds.Nodup)
    (hopen : ∀ fd ∈ fds, s.conn fd ≠ none) :
    Kernel service (fds.foldl State.close s) ∧ (fds.foldl State.close s).events = s.events ∧
      ∀ fd, (fds.foldl State.close s).conn fd = if fd ∈ fds then none else s.conn fd := by
  induction fds generalizing s with
  | nil => exact ⟨hk, rfl, fun fd => rfl⟩
  | cons first rest ih =>
    obtain ⟨hnot, hrest⟩ := List.nodup_cons.mp hnodup
    obtain ⟨c, hc⟩ := Option.ne_none_iff_exists'.mp (hopen first List.mem_cons_self)
    have hkeep (fd : Fd) (hne : fd ≠ first) : (s.close first).conn fd = s.conn fd :=
      Function.update_of_ne hne ..
    have hstill (fd : Fd) (hin : fd ∈ rest) : (s.close first).conn fd ≠ none := by
      rw [hkeep]
      · exact hopen fd (List.mem_cons_of_mem first hin)
      · rintro rfl
        exact hnot hin
    obtain ⟨hkernel, hevents, hconn⟩ := ih (hk.close hc) hrest hstill
    refine ⟨hkernel, hevents, fun fd => ?_⟩
    rw [List.foldl_cons, hconn]
    by_cases he : fd = first
    · rw [he, if_neg hnot, if_pos List.mem_cons_self]
      exact Function.update_self ..
    · rw [hkeep fd he]
      simp [he]

structure Accounts (service : Fd → Option Service) (s : State) : Prop where
  kernel : Kernel service s
  live : s.running = true → Live service s
  ended : s.running = false → s.events = [] ∧ ∀ fd, s.conn fd = none

theorem Live.accounts (h : Live service s) (hr : s.running = true) : Accounts service s := by
  refine ⟨h.kernel, fun _ => h, ?_⟩
  rw [hr]
  exact fun hc => absurd hc Bool.false_ne_true.symm

theorem Accounts.live_of_events (h : Accounts service s) {e : Event} {events : List Event}
    (hevents : s.events = e :: events) : Live service s := by
  apply h.live
  by_contra hr
  obtain ⟨hnone, -⟩ := h.ended (Bool.not_eq_true _ ▸ hr)
  rw [hnone] at hevents
  cases hevents

theorem Start.live (h : Start s) : Live service s := by
  have hconn (fd : Fd) (c : Connection) : s.conn fd ≠ some c := by
    rw [h.conn]
    exact Option.some_ne_none c |>.symm
  have hfree : s.clients.reduceOption = [] := by
    rw [h.clients]
    rfl
  obtain ⟨hclosed, -⟩ := h.history
  constructor
  · constructor
    · exact fun fd c hc => absurd hc (hconn fd c)
    · exact fun fd c hc => absurd hc (hconn fd c)
    · exact fun fd _ c hc => absurd hc (hconn fd c)
    · rw [hclosed]
      exact List.nodup_nil
    · simp [hclosed, h.accepted]
  · constructor
    · rw [h.clients, List.length_replicate]
    · rw [hfree]
      exact List.nodup_nil
    · simp [hfree, h.conn]
    · simp [h.watched, h.conn]
  · constructor
    · rw [h.events]
      exact List.nodup_nil
    · simp [h.events]

theorem accounts_invariant : Invariant (server service) (Accounts service) := by
  constructor
  · intro s hs
    exact hs.live.accounts hs.running
  · intro s a t _ h ht
    cases a with
    | poll events =>
      have hr : s.running = true := (Option.ite_none_right_eq_some.mp ht).1.1
      obtain ⟨hlive, hrun⟩ := (h.live hr).poll ht
      exact hlive.accounts (hrun.trans hr)
    | handle input =>
      have hr : s.running = true := by
        by_contra hr
        obtain ⟨hnone, -⟩ := h.ended (Bool.not_eq_true _ ▸ hr)
        change s.handle service input = some t at ht
        simp [State.handle, hnone] at ht
      obtain ⟨hlive, hrun⟩ := (h.live hr).handle ht
      exact hlive.accounts (hrun.trans hr)
    | stop =>
      obtain ⟨⟨hr, hevents⟩, ht⟩ := Option.ite_none_right_eq_some.mp ht
      have hlive := h.live hr
      obtain ⟨hkernel, hdone, hconn⟩ :=
        foldl_close h.kernel hlive.table.nodup fun fd => (hlive.table.used fd).mp
      cases ht
      refine ⟨hkernel.of_eq rfl rfl rfl, fun hc => absurd hc Bool.false_ne_true,
        fun _ => ⟨hdone.trans hevents, fun fd => ?_⟩⟩
      · change (List.foldl _ s _).conn fd = none
        rw [hconn]
        split_ifs with hused
        · rfl
        · by_contra hopen
          exact hused ((hlive.table.used fd).mpr hopen)

def State.Open (s : State) (c : Connection) : Prop := c < s.accepted ∧ some c ∉ s.closed

structure InStep (s : State) : Prop where
  distinct : s.clients.reduceOption.Nodup
  bounded : s.clients.reduceOption.length ≤ MAX_CLIENTS
  watched : ∀ fd, fd ∈ s.clients.reduceOption ↔ s.watched fd = true
  used : ∀ fd ∈ s.clients.reduceOption, ∃ c, s.conn fd = some c ∧ s.Open c
  slot : ∀ c, s.Open c → ∃! fd, fd ∈ s.clients.reduceOption ∧ s.conn fd = some c

theorem Kernel.open_iff (h : Kernel service s) (c : Connection) : s.Open c ↔ ∃ fd, s.conn fd = some c := by
  unfold State.Open
  rw [h.closed]
  constructor
  · rintro ⟨hlt, hnot⟩
    by_contra hno
    apply hnot
    refine ⟨c, rfl, hlt, fun fd hc => ?_⟩
    exact hno ⟨fd, hc⟩
  · rintro ⟨fd, hc⟩
    refine ⟨h.numbered fd c hc, ?_⟩
    rintro ⟨c', he, -, hno⟩
    cases he
    exact hno fd hc

theorem Live.inStep (h : Live service s) : InStep s := by
  obtain ⟨hkernel, htable, -⟩ := h
  constructor
  · exact htable.nodup
  · rw [← htable.size]
    exact List.reduceOption_length_le s.clients
  · intro fd
    rw [htable.used, htable.watched]
  · intro fd hfd
    obtain ⟨c, hc⟩ := Option.ne_none_iff_exists'.mp ((htable.used fd).mp hfd)
    exact ⟨c, hc, (hkernel.open_iff c).mpr ⟨fd, hc⟩⟩
  · intro c hopen
    obtain ⟨fd, hc⟩ := (hkernel.open_iff c).mp hopen
    refine ⟨fd, ⟨(htable.used fd).mpr ?_, hc⟩, ?_⟩
    · rw [hc]
      exact Option.some_ne_none c
    · rintro fd' ⟨-, hc'⟩
      exact hkernel.distinct fd' fd c hc' hc

theorem Live.conn_nodup (h : Live service s) : (s.clients.reduceOption.map s.conn).Nodup := by
  apply h.table.nodup.map_on
  intro fd hfd fd' _ he
  obtain ⟨c, hc⟩ := Option.ne_none_iff_exists'.mp ((h.table.used fd).mp hfd)
  exact h.kernel.distinct fd fd' c hc (he.symm.trans hc)

theorem map_conn_zip {outcomes : List Outcome} (s : State)
    (hlength : outcomes.length = s.clients.reduceOption.length) :
    (s.clients.reduceOption.zip outcomes).map (fun call => s.conn call.1) =
      s.clients.reduceOption.map s.conn := by
  have hfst : (s.clients.reduceOption.zip outcomes).map Prod.fst = s.clients.reduceOption :=
    List.map_fst_zip hlength.ge
  conv_rhs => rw [← hfst, List.map_map]
  rfl

theorem Live.written (h : Live service s) {message : List UInt8} {outcomes : List Outcome}
    (hb : s.broadcast message outcomes = some t) :
    ∃ cs, t.written = s.written ++ cs ∧ cs.Nodup ∧ ∀ o, o ∈ cs ↔ ∃ c, o = some c ∧ s.Open c := by
  unfold State.broadcast at hb
  obtain ⟨⟨hlength, -⟩, hb⟩ := Option.ite_none_right_eq_some.mp hb
  cases hb
  refine ⟨s.clients.reduceOption.map s.conn, ?_, h.conn_nodup, fun o => ?_⟩
  · rw [written_foldl_write, ← map_conn_zip s hlength]
  · obtain ⟨hkernel, htable, -⟩ := h
    rw [List.mem_map]
    constructor
    · rintro ⟨fd, hfd, rfl⟩
      obtain ⟨c, hc⟩ := Option.ne_none_iff_exists'.mp ((htable.used fd).mp hfd)
      exact ⟨c, hc, (hkernel.open_iff c).mpr ⟨fd, hc⟩⟩
    · rintro ⟨c, rfl, hopen⟩
      obtain ⟨fd, hc⟩ := (hkernel.open_iff c).mp hopen
      refine ⟨fd, (htable.used fd).mpr ?_, hc⟩
      rw [hc]
      exact Option.some_ne_none c

theorem handle_expired {sample : Sample} {outcomes : List Outcome}
    (h : s.handle service (.expired sample outcomes) = some t) :
    ∃ e events, s.events = e :: events ∧ sample.Fits ∧
      State.broadcast { s with events := events } (telemetryMessage sample) outcomes = some t := by
  unfold State.handle at h
  split at h
  · cases h
  · rename_i e events he
    refine ⟨e, events, he, ?_⟩
    unfold State.dispatch at h
    generalize hinput : Input.expired sample outcomes = input at h
    split at h
    · cases hinput
    · cases hinput
      exact Option.ite_none_right_eq_some.mp h
    · cases hinput
    · cases hinput
    · cases hinput
    · cases hinput
    · cases h

theorem Accounts.closed (h : Accounts service s) (hr : s.running = false) :
    s.closed.Perm ((List.range s.accepted).map some) := by
  apply (List.perm_ext_iff_of_nodup h.kernel.once ?_).mpr
  · intro o
    rw [h.kernel.closed, List.mem_map]
    constructor
    · rintro ⟨c, rfl, hlt, -⟩
      exact ⟨c, List.mem_range.mpr hlt, rfl⟩
    · rintro ⟨c, hc, rfl⟩
      refine ⟨c, rfl, List.mem_range.mp hc, fun fd => ?_⟩
      rw [(h.ended hr).2]
      exact Option.some_ne_none c |>.symm
  · exact List.nodup_range.map (Option.some_injective Connection)

/-- The client table, the open connections and the interest list of epoll stay in step; the event
about to be handled is one of an open connection, the one it came for; a broadcast writes once to
every open connection; and a run that has ended has closed every accepted connection, once. -/
theorem descriptor_lifecycle (service : Fd → Option Service) (s : State)
    (hs : Reachable (server service) s) :
    (s.running = true → InStep s) ∧
    (∀ e events, s.events = e :: events → service e.fd = none →
      ∃ c, e.conn = some c ∧ s.conn e.fd = some c ∧ s.Open c) ∧
    (∀ sample outcomes t, s.handle service (.expired sample outcomes) = some t →
      ∃ cs, t.written = s.written ++ cs ∧ cs.Nodup ∧ ∀ o, o ∈ cs ↔ ∃ c, o = some c ∧ s.Open c) ∧
    (s.running = false → s.closed.Perm ((List.range s.accepted).map some)) := by
  have hall : Accounts service s := accounts_invariant.holds hs
  refine ⟨fun hr => (hall.live hr).inStep, ?_, ?_, hall.closed⟩
  · intro e events he hservice
    have hmem : e ∈ s.events := by
      rw [he]
      exact List.mem_cons_self
    obtain ⟨hconn, hopen⟩ := (hall.live_of_events he).batch.current e hmem hservice
    obtain ⟨c, hc⟩ := Option.ne_none_iff_exists'.mp hopen
    exact ⟨c, hc, hconn.trans hc, (hall.kernel.open_iff c).mpr ⟨e.fd, hconn.trans hc⟩⟩
  · intro sample outcomes t ht
    obtain ⟨e, events, he, -, hb⟩ := handle_expired ht
    exact ((hall.live_of_events he).rest he).written hb

def ports : Fd → Option Service
  | 3 => some .notify
  | 6 => some .listen
  | 7 => some .fifo
  | 8 => some .timer
  | _ => none

def State.initial : State where
  running := true
  clients := List.replicate MAX_CLIENTS none
  events := []
  conn _ := none
  watched _ := false
  accepted := 0
  stream _ := []
  closed := []
  written := []
  sent := []
  torn _ := false

theorem initial_start : Start State.initial :=
  ⟨rfl, rfl, rfl, fun _ => rfl, fun _ => rfl, rfl, rfl, rfl, rfl, fun _ => rfl, fun _ => rfl⟩

theorem reachable_execute {as : List Action} (h : Reachable (server service) s)
    (he : execute (State.next service) s as = some t) : Reachable (server service) t :=
  h.execute (fun _ _ _ ht => ht) he

def arrivals : List Action :=
  [.poll [(6, false)], .handle (.accepted [10, 11, 12, 13, 14, 15, 16, 17, 18, 18]),
    .poll [(10, true), (11, false), (6, false), (8, false)],
    .handle (.received false), .handle (.received true)]

def departures : List Action :=
  [.handle (.accepted [10]), .handle (.expired ⟨0, 0, [], 5⟩ (List.replicate 7 .whole)), .stop]

theorem descriptor_lifecycle_session : ∃ s t, execute (State.next ports) State.initial arrivals = some s ∧
    InStep s ∧ s.closed = [some 8, some 9, some 0, some 1] ∧
    execute (State.next ports) s departures = some t ∧
    t.closed.Perm ((List.range 11).map some) := by
  obtain ⟨s, hs⟩ : ∃ s, execute (State.next ports) State.initial arrivals = some s := ⟨_, rfl⟩
  obtain ⟨t, ht⟩ : ∃ t, execute (State.next ports) s departures = some t := by
    cases hs
    exact ⟨_, rfl⟩
  have hr : Reachable (server ports) s := by
    apply reachable_execute _ hs
    exact .start initial_start
  have ht' := ht
  refine ⟨s, t, hs, (descriptor_lifecycle ports s hr).1 ?_, ?_, ht', ?_⟩
  · cases hs
    rfl
  · cases hs
    rfl
  · have hstopped := (descriptor_lifecycle ports t (reachable_execute hr ht)).2.2.2
    cases hs
    cases ht
    exact hstopped rfl

end EmbeddedLinuxTraining.Telemetry.Connections
