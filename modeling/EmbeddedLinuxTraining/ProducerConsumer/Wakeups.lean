import EmbeddedLinuxTraining.Library.Exec
import EmbeddedLinuxTraining.Library.Wakeup
import EmbeddedLinuxTraining.ProducerConsumer.LabMultithreadingDebug
import EmbeddedLinuxTraining.ProducerConsumer.ProducerConsumer2

namespace EmbeddedLinuxTraining.ProducerConsumer

open Library.BoundedFifo Library.Pthread Library.Transition Config

structure Watch {β : Type} (B : Buffer β Int32) (t : Thread Locals Cond Point) (s : Shared β) : Prop where
  busy : t.mode = .running → ∀ side, t.pc = .thread side .wait → side.busy B s.buffer = true
  cond : ∀ k, t.mode = .blocked k → ∃ side : Side, k = side.cond ∧ t.pc = .thread side .test

def Side.role : Side → Role
  | .producer => .producer
  | .consumer => .consumer

def Side.peer : Side → Side
  | .producer => .consumer
  | .consumer => .producer

def Work {β : Type} (B : Buffer β Int32) (side : Side) (s : Shared β) : Prop :=
  s.gRunning = true ∧ side.busy B s.buffer = false

variable {ι β : Type} {B : Buffer β Int32} {cap : ℕ} {F : B.Implements cap} {buffer : β}
  {role : ι → Role} {c : State ι β} {side : Side}

theorem role_thread (p : Stage) : (Point.thread side p).role = side.role := by
  cases side <;> rfl

theorem signal_code (side : Side) : (code B (.thread side .signal) : Code ι β) =
    .signal side.peer.cond (.thread side .unlock) := by
  cases side <;> rfl

theorem signal_holds {p q : Point} {k : Cond} (h : (code B p : Code ι β) = .signal k q) :
    holds p = true := by
  rcases p with ⟨⟨⟩, p⟩ | p | p <;> cases p <;> cases h <;> rfl

theorem peer_of_ne {side' : Side} (h : side' ≠ side) : side'.peer = side := by
  cases side <;> cases side' <;> first | rfl | exact absurd rfl h

theorem work_statement {p q : Point} {s s' : Shared β} {l l' : Locals}
    (h : Statement B s l p q s' l') (hs : Stand B s p) (hw : Work B side s') :
    Work B side s ∨ ∃ r, (code B q : Code ι β) = .signal side.cond r := by
  cases h with
  | body side' =>
    by_cases he : side' = side
    · subst he
      refine .inl ⟨?_, hs⟩
      have hg := hw.1
      cases side' <;> exact hg
    · refine .inr ⟨.thread side' .unlock, ?_⟩
      rw [signal_code, peer_of_ne he]
  | rest side' => exact .inl hw
  | print => exact .inl hw
  | clear => cases hw.1

theorem watch_knows (F : B.Implements cap) (role : ι → Role) :
    (outline F role).Knows (code B) (Watch B) where
  arrive h := by
    constructor
    · rintro - side rfl
      exact (wait_target h).1
    · intro k hk
      cases hk
  asleep h := by
    obtain ⟨side, -, rfl, rfl⟩ := wait_code h
    constructor
    · intro hm
      cases hm
    · intro k hk
      cases hk
      exact ⟨side, rfl, rfl⟩
  woken := ⟨nofun, nofun⟩
  returned := ⟨nofun, nofun⟩
  start h := absurd rfl h.created
  act hc hf := by
    constructor
    · intro _ side hq
      exact absurd hq (wait_statement (statement_of_act hc hf))
    · intro k hk
      cases hk
  apart := by
    intro p f q hc i j l s x s' l' t hf _ hi _ hj hexcl
    obtain ⟨-, -, hkeep⟩ := hi.statement (statement_of_act hc hf)
    refine ⟨fun hm side hpc => ?_, hj.cond⟩
    cases hp : holds p with
    | true =>
      refine absurd ⟨hm, ?_⟩ (hexcl hp)
      rw [hpc]
      rfl
    | false =>
      rw [(hkeep hp).1]
      exact hj.busy hm side hpc

theorem work_announced (F : B.Implements cap) (role : ι → Role) (side : Side) :
    Announces (code B) ((outline F role).knowing (Watch B)) side.cond (.signal side.cond)
      (Work B side) where
  sleep := by
    rintro p q i l s hc ⟨-, hwatch⟩ ⟨-, hfree⟩
    obtain ⟨side', rfl, hk, -⟩ := wait_code hc
    obtain rfl := cond_injective hk
    rw [hwatch.busy rfl side rfl] at hfree
    cases hfree
  act hc hf h hw := work_statement (statement_of_act hc hf) (h.1.stand rfl) hw

theorem watch_initial (hb : Tracks F [] buffer) (h : Init buffer role c) :
    ((outline F role).knowing (Watch B)).Sat (code B) c := by
  apply (outline_initial hb h).knowing
  intro i
  rw [h.2.2]
  constructor
  · intro _ side hpc
    cases hr : role i <;> rw [hr] at hpc <;> cases hpc
  · intro k hk
    cases hk

theorem work_some (hcap : 1 ≤ cap) (h : F.wf buffer) :
    ∃ side : Side, side.busy B buffer = false := by
  cases he : B.empty buffer with
  | false => exact ⟨.consumer, he⟩
  | true =>
    refine ⟨.producer, Bool.eq_false_iff.mpr fun hf => ?_⟩
    have hlen := (F.full_iff h).mp hf
    rw [(F.empty_iff h).mp he, List.length_nil] at hlen
    omega

def Worker (role : ι → Role) (i : ι) : Prop := role i = .producer ∨ role i = .consumer

theorem worker_of_side {i : ι} (h : role i = side.role) : Worker role i := by
  cases side with
  | producer => exact .inl h
  | consumer => exact .inr h

variable [DecidableEq ι]

theorem watch_sat (hb : Tracks F [] buffer) (h : Reachable (program B buffer role) c) :
    ((outline F role).knowing (Watch B)).Sat (code B) c :=
  ((outline_valid F role).knowing (watch_knows F role)).sound (fun _ => watch_initial hb) h

/-- As long as there is work for a side, one of its threads does not sleep. -/
theorem someAwake (hb : Tracks F [] buffer) (hside : ∃ i, role i = side.role)
    (h : Reachable (program B buffer role) c) (hf : c.owner = none) (hw : Work B side c.shared) :
    SomeAwake side.cond (fun i => role i = side.role) c := by
  have hvalid := (outline_valid F role).knowing (watch_knows F role)
  refine (work_announced F role side).someAwake hvalid ?_ hside signal_holds ?_ h hf hw
  · rintro p k q i l s hc ⟨hrole, hwatch⟩
    obtain ⟨side', hk, rfl⟩ := hwatch.cond _ rfl
    obtain rfl := cond_injective hk
    exact hrole.role.symm.trans (role_thread _)
  · intro c hc
    refine ⟨watch_initial hb hc, fun _ => ?_⟩
    obtain ⟨i, hi⟩ := hside
    refine ⟨i, hi, ?_⟩
    rw [hc.2.2]
    exact nofun

theorem blocked_cond (hb : Tracks F [] buffer) (h : Reachable (program B buffer role) c) {i : ι}
    {k : Cond} (hi : (c.thread i).mode = .blocked k) (hr : role i = side.role) : k = side.cond := by
  obtain ⟨hrole, hwatch⟩ := (watch_sat hb h).each i
  obtain ⟨side', rfl, hpc⟩ := hwatch.cond k hi
  have he : side'.role = side.role := by
    rw [← hr, ← hrole.role, hpc, role_thread]
  cases side <;> cases side' <;> first | rfl | cases he

theorem worker_awake (hcap : 1 ≤ cap) (hb : Tracks F [] buffer)
    (hsides : ∀ side : Side, ∃ i, role i = side.role) (h : Reachable (program B buffer role) c)
    (hg : c.shared.gRunning = true) : ∃ i, Worker role i ∧ ∀ k, (c.thread i).mode ≠ .blocked k := by
  have hsat := program_sat hb h
  cases ho : c.owner with
  | none =>
    obtain ⟨side, hfree⟩ := work_some hcap (hsat.free ho).wf
    obtain ⟨i, hi, hm⟩ := someAwake hb (hsides side) h ho ⟨hg, hfree⟩
    refine ⟨i, worker_of_side hi, fun k hk => hm ?_⟩
    rw [hk, blocked_cond hb h hk hi]
  | some i =>
    -- the holder of the mutex is running
    obtain ⟨hm, hh⟩ := (hsat.owner i).mpr ho
    refine ⟨i, ?_, fun k hk => ?_⟩
    · have hrole := (hsat.each i).role
      generalize (c.thread i).pc = p at hrole hh
      rcases p with ⟨side, p⟩ | p | p
      · exact worker_of_side (hrole.symm.trans (role_thread p))
      · cases hh
      · cases hh
    · rw [hm] at hk
      cases hk

structure Lively (role : ι → Role) (room data : β → Prop) (c : State ι β) : Prop where
  producers : c.owner = none → room c.shared.buffer → SomeAwake .notFull (fun i => role i = .producer) c
  consumers : c.owner = none → data c.shared.buffer → SomeAwake .notEmpty (fun i => role i = .consumer) c
  worker : ∃ i, Worker role i ∧ ∀ k, (c.thread i).mode ≠ .blocked k

theorem lively (hcap : 1 ≤ cap) (hb : Tracks F [] buffer) (hproducer : ∃ i, role i = .producer)
    (hconsumer : ∃ i, role i = .consumer) {room data : β → Prop}
    (hroom : ∀ b, room b → B.full b = false) (hdata : ∀ b, data b → B.empty b = false)
    (h : Reachable (program B buffer role) c) (hg : c.shared.gRunning = true) :
    Lively role room data c := by
  constructor
  · intro hf hr
    have hw : Work B .producer c.shared := ⟨hg, hroom _ hr⟩
    exact someAwake hb hproducer h hf hw
  · intro hf hd
    have hw : Work B .consumer c.shared := ⟨hg, hdata _ hd⟩
    exact someAwake hb hconsumer h hf hw
  · apply worker_awake hcap hb _ h hg
    intro side
    cases side
    · exact hproducer
    · exact hconsumer

theorem no_lost_wakeup :
    (∀ (cap : ℕ) (role : ι → Role) (c : State ι LabMultithreadingDebug.Queue), 1 ≤ cap →
      (∃ i, role i = .producer) → (∃ i, role i = .consumer) →
      Reachable (LabMultithreadingDebug.program cap role) c → c.shared.gRunning = true →
        Lively role (fun b => b.queueCount < (cap : ℤ)) (fun b => 0 < b.queueCount) c) ∧
    ∀ (task : ι → ProducerConsumer2.Task) (c : State ι ProducerConsumer2.Register),
      (∃ i, task i = .producer) → (∃ i, task i = .consumer) →
      Reachable (ProducerConsumer2.program task) c → c.shared.gRunning = true →
        Lively (fun i => (task i).role) (fun b => b.TXE = 1) (fun b => b.RXNE = 1) c := by
  constructor
  · intro cap role c hcap hp hc h hg
    refine lively hcap (LabMultithreadingDebug.Queue.tracks_zero hcap) hp hc ?_ ?_ h hg
    · intro b hlt
      exact beq_eq_false_iff_ne.mpr (by omega)
    · intro b hpos
      exact beq_eq_false_iff_ne.mpr (by omega)
  · rintro task c ⟨i, hi⟩ ⟨j, hj⟩ h hg
    have hp : (task i).role = .producer := by rw [hi]; rfl
    have hc : (task j).role = .consumer := by rw [hj]; rfl
    refine lively (le_refl 1) ProducerConsumer2.Register.tracks_reset ⟨i, hp⟩ ⟨j, hc⟩ ?_ ?_ h hg
    · intro b htxe
      have hne : b.TXE ≠ 0 := by
        rw [htxe]
        decide
      exact beq_eq_false_iff_ne.mpr hne
    · intro b hrxne
      have hne : b.RXNE ≠ 0 := by
        rw [hrxne]
        decide
      exact beq_eq_false_iff_ne.mpr hne

def trioTask : Fin 3 → ProducerConsumer2.Task
  | 0 => .producer
  | _ => .consumer

def trioRole (i : Fin 3) : Role := (trioTask i).role

def trioStart {β : Type} (buffer : β) : State (Fin 3) β where
  shared := ⟨true, buffer, []⟩
  owner := none
  thread i := ⟨(trioRole i).start, ⟨0, 0⟩, .running⟩

def trioSchedule (p c c' : Fin 3) : List (Label (Fin 3) Unit) :=
  [.run c, .run c, .run c, .run c, .run c', .run c', .run c', .run c',
    .run p, .run p, .run p, .run p, .input p (), .wake p c', .run p]

theorem no_lost_wakeup_trio :
    (∃ c : State (Fin 3) LabMultithreadingDebug.Queue, c.owner = none ∧ c.shared.buffer.queueCount = 1 ∧
      (c.thread 1).mode = .blocked .notEmpty ∧
      Lively trioRole (fun b => b.queueCount < 5) (fun b => 0 < b.queueCount) c) ∧
    ∃ c : State (Fin 3) ProducerConsumer2.Register, c.owner = none ∧ c.shared.buffer.RXNE = 1 ∧
      (c.thread 1).mode = .blocked .notEmpty ∧
      Lively trioRole (fun b => b.TXE = 1) (fun b => b.RXNE = 1) c := by
  have hlab : (execAll (code (LabMultithreadingDebug.Queue.buffer 5))
      (trioStart LabMultithreadingDebug.Queue.zero) (trioSchedule 0 1 2)).isSome = true := by decide
  have hlab' : Reachable (LabMultithreadingDebug.program 5 trioRole) (Option.get _ hlab) :=
    reachable_of_execAll ⟨rfl, rfl, fun _ => rfl⟩ (Option.some_get hlab).symm
  have hreg : (execAll (code ProducerConsumer2.Register.buffer)
      (trioStart ProducerConsumer2.Register.reset) (trioSchedule 0 1 2)).isSome = true := by decide
  have hreg' : Reachable (ProducerConsumer2.program trioTask) (Option.get _ hreg) :=
    reachable_of_execAll ⟨rfl, rfl, fun _ => rfl⟩ (Option.some_get hreg).symm
  exact ⟨⟨_, rfl, rfl, rfl, no_lost_wakeup.1 5 trioRole _ (by decide) ⟨0, rfl⟩ ⟨1, rfl⟩ hlab' rfl⟩,
    ⟨_, rfl, rfl, rfl, no_lost_wakeup.2 trioTask _ ⟨0, rfl⟩ ⟨1, rfl⟩ hreg' rfl⟩⟩

end EmbeddedLinuxTraining.ProducerConsumer
