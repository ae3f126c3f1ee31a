import EmbeddedLinuxTraining.Library.Wakeup
import EmbeddedLinuxTraining.ThreadPool.Submissions

namespace EmbeddedLinuxTraining.ThreadPool

open Library.BoundedFifo Library.Pthread Library.Transition Config

variable {ι φ : Type} {v : Version} {worker : ℕ → ι} {role : ι → Role φ} {c d : State ι φ}

theorem closing_next {p : Point} {m : ShutdownPoint}
    (h : (code v worker p : Code ι φ).Next (.shutdownThreadPool m)) (hm : m ≠ .lock) :
    ∃ m', p = .shutdownThreadPool m' := by
  rcases p with p | p | p | p
  · cases p <;> rcases h with h | h <;> cases h
  · cases p <;> rcases h with h | h <;> cases h
  · exact ⟨p, rfl⟩
  · cases p <;> rcases h with h | h <;> cases h
    exact absurd rfl hm

theorem closing_statement {p q : Point} {s s' : Shared φ} {l l' : Locals φ}
    (h : Statement s l p q s' l') :
    p = .shutdownThreadPool .set ∨ s'.shutdown = s.shutdown ∧ ∀ m, q ≠ .shutdownThreadPool m := by
  cases h with
  | set => exact .inl rfl
  | execute =>
    refine .inr ⟨?_, nofun⟩
    unfold runTask
    split <;> rfl
  | store =>
    refine .inr ⟨?_, nofun⟩
    unfold store
    split <;> rfl
  | _ => exact .inr ⟨rfl, nofun⟩

def Closed (s : Shared φ) : Prop := s.shutdown = true ∧ s.queue.taskCount = 0

theorem closed_statement {p q : Point} {s s' : Shared φ} {l l' : Locals φ}
    (h : Statement s l p q s' l') (hs : Closed s) (hstand : Stand v l s p)
    (hp : remaining p l = 0) : Closed s' := by
  cases h with
  | take => exact absurd hs.2 hstand
  | store => simp [remaining, Point.submits, hstand.1] at hp
  | execute =>
    unfold runTask
    split <;> exact hs
  | set => exact ⟨rfl, hs.2⟩
  | _ => exact hs

theorem exit_next {p : Point} (h : (code v worker p : Code ι φ).Next (.startThread .exit)) :
    p = .startThread .leave := by
  rcases p with p | p | p | p <;> cases p <;> rcases h with h | h <;> first | rfl | cases h

theorem exit_statement {p q : Point} {s s' : Shared φ} {l l' : Locals φ}
    (h : Statement s l p q s' l') : q ≠ .startThread .exit := by
  cases h <;> nofun

theorem signals_hold {p q : Point} {k : Cond}
    (h : (code v worker p : Code ι φ) = .signal k q) : holds p = true := by
  rcases p with p | p | p | p <;> cases p <;> cases h
  rfl

theorem broadcasts_hold {p q : Point} {k : Cond}
    (h : (code v worker p : Code ι φ) = .broadcast k q) : holds p = true := by
  rcases p with p | p | p | p <;> cases p <;> cases h
  rfl

theorem waits_at_wait {p q : Point} {k : Cond}
    (h : (code v worker p : Code ι φ) = .wait k q) :
    p = .startThread .wait ∧ q = .startThread .test := by
  rcases p with p | p | p | p <;> cases p <;> cases h
  exact ⟨rfl, rfl⟩

theorem tasks_announced (worker : ℕ → ι) (role : ι → Role φ) :
    Announces (code seance6 worker) (outline seance6 role) .cond (.signal .cond)
      fun s => 0 < s.queue.taskCount where
  sleep := by
    intro p q i l s hc h hwork
    obtain ⟨rfl, -⟩ := waits_at_wait hc
    have hw : seance6.waits s.queue.taskCount s.shutdown = true := h.stand rfl
    simp only [seance6, Bool.and_eq_true, beq_iff_eq] at hw
    omega
  act := by
    intro p f q i l s x s' l' hc hf h hwork
    cases statement_of_act hc hf with
    | store => exact .inr ⟨_, rfl⟩
    | take =>
      refine .inl ?_
      simp only [takeTask, TaskQueue.removeFirst] at hwork
      omega
    | execute =>
      refine .inl ?_
      unfold runTask at hwork
      split at hwork <;> exact hwork
    | _ => exact .inl hwork

theorem shutdown_announced (worker : ℕ → ι) (role : ι → Role φ) :
    Announces (code seance6 worker) (outline seance6 role) .cond (.broadcast .cond)
      fun s => s.shutdown = true where
  sleep := by
    intro p q i l s hc h hwork
    obtain ⟨rfl, -⟩ := waits_at_wait hc
    have hw : seance6.waits s.queue.taskCount s.shutdown = true := h.stand rfl
    simp [seance6, hwork] at hw
  act := by
    intro p f q i l s x s' l' hc hf h hwork
    rcases closing_statement (statement_of_act hc hf) with rfl | ⟨hs, -⟩
    · cases hc
      exact .inr ⟨_, rfl⟩
    · exact .inl (hs ▸ hwork)

theorem start_mode (h : Init role c) {i : ι} :
    (c.thread i).mode ≠ .returned ∧ ∀ k, (c.thread i).mode ≠ .blocked k := by
  obtain ⟨-, -, ht⟩ := h
  rw [ht]
  cases role i with
  | worker created => cases created <;> exact ⟨nofun, nofun⟩
  | caller size calls => exact ⟨nofun, nofun⟩

variable [DecidableEq ι]

/-- A call to `shutdownThreadPool` takes the mutex only when no task remains to be submitted. -/
def InOrder (c : State ι φ) (a : Label ι Unit) : Prop :=
  (c.thread a.actor).pc = .shutdownThreadPool .lock →
    ∀ j, remaining (c.thread j).pc (c.thread j).loc = 0

instance [Fintype ι] (c : State ι φ) (a : Label ι Unit) : Decidable (InOrder c a) :=
  inferInstanceAs (Decidable (_ → _))

def Closing (c : State ι φ) : Prop :=
  c.shared.shutdown = true ∨ ∃ i m, (c.thread i).pc = .shutdownThreadPool m ∧ m ≠ .lock

theorem closing_step {a : Label ι Unit} (hstep : Step (code v worker) c a d)
    (h : Closing d) : Closing c ∨ (c.thread a.actor).pc = .shutdownThreadPool .lock := by
  have entered {m : ShutdownPoint} {l : Locals φ} (hm : c.At a.actor (.shutdownThreadPool m) l) :
      Closing c ∨ (c.thread a.actor).pc = .shutdownThreadPool .lock := by
    have hpc : (c.thread a.actor).pc = .shutdownThreadPool m := congrArg Thread.pc hm
    cases m with
    | lock => exact .inr hpc
    | _ => exact .inl (.inr ⟨_, _, hpc, nofun⟩)
  rcases step_cases hstep with ⟨p, l, q, l', hi, hst, hd⟩ | ⟨hs, -, hp⟩
  · rcases closing_statement hst with rfl | ⟨hs, hq⟩
    · exact entered hi
    · rcases h with h | ⟨i, m, hpc, hm⟩
      · exact .inl (.inl (hs ▸ h))
      · by_cases hia : i = a.actor
        · rw [hia, hd.thread] at hpc
          exact absurd hpc (hq m)
        · rw [(hstep.frame hia).1] at hpc
          exact .inl (.inr ⟨i, m, hpc, hm⟩)
  · rcases h with h | ⟨i, m, hi, hm⟩
    · exact .inl (.inl (hs ▸ h))
    · by_cases hia : i = a.actor
      · subst hia
        rcases hp with hp | ⟨p, l, hat, hp⟩
        · exact .inl (.inr ⟨_, m, hp ▸ hi, hm⟩)
        · rw [hi] at hp
          obtain ⟨m', rfl⟩ := closing_next hp.1 hm
          exact entered hat
      · rw [(hstep.frame hia).1] at hi
        exact .inl (.inr ⟨i, m, hi, hm⟩)

theorem none_remaining (h : Reachable ((pool v worker role).restrict InOrder) c) (hc : Closing c)
    (j : ι) : remaining (c.thread j).pc (c.thread j).loc = 0 := by
  have hinv : Invariant ((pool v worker role).restrict InOrder) fun c =>
      Closing c → ∀ j, remaining (c.thread j).pc (c.thread j).loc = 0 := by
    refine ⟨?_, fun c a d _ ih hstep hd j => ?_⟩
    · rintro c ⟨-, ⟨taskQueue, hs⟩, ht⟩ (hc | ⟨i, m, hi, -⟩)
      · rw [hs] at hc
        cases hc
      · rw [ht] at hi
        cases hr : role i <;> rw [hr] at hi <;> cases hi
    · apply Nat.eq_zero_of_le_zero
      apply (remaining_mono hstep.1 j).trans
      rcases closing_step hstep.1 hd with hc | hc
      · exact (ih hc j).le
      · exact (hstep.2 hc j).le
  exact hinv.holds h hc j

theorem closed_of_exit (h : Reachable ((pool seance6 worker role).restrict InOrder) c) {i : ι}
    (hi : (c.thread i).pc = .startThread .exit) : Closed c.shared := by
  have hinv : Invariant ((pool seance6 worker role).restrict InOrder) fun c =>
      (∃ i, (c.thread i).pc = .startThread .exit) → Closed c.shared := by
    refine ⟨?_, fun c a d hr ih hstep ⟨i, hi⟩ => ?_⟩
    · rintro c ⟨-, -, ht⟩ ⟨i, hi⟩
      rw [ht] at hi
      cases hr : role i <;> rw [hr] at hi <;> cases hi
    · have hsat := pool_sat hr.of_restrict
      rcases step_cases hstep.1 with ⟨p, l, q, l', hat, hst, hd⟩ | ⟨hs, -, hp⟩
      · have hne : i ≠ a.actor := by
          rintro rfl
          rw [hd.thread] at hi
          exact exit_statement hst hi
        have hc := ih ⟨i, (hstep.1.frame hne).1 ▸ hi⟩
        have hno := none_remaining hr (.inl hc.1) a.actor
        rw [hat.thread] at hno
        exact closed_statement hst hc ((hsat.at hat).stand rfl) hno
      · rw [hs]
        by_cases hia : i = a.actor
        · subst hia
          rcases hp with hp | ⟨p, l, hat, hp⟩
          · exact ih ⟨_, hp ▸ hi⟩
          · rw [hi] at hp
            obtain rfl := exit_next hp.1
            have hx : seance6.exits c.shared.queue.taskCount c.shared.shutdown = true :=
              (hsat.at hat).stand rfl
            simp only [seance6, Bool.and_eq_true, beq_iff_eq] at hx
            exact ⟨hx.2, hx.1⟩
        · exact ih ⟨i, (hstep.1.frame hia).1 ▸ hi⟩
  exact hinv.holds h ⟨i, hi⟩

theorem idle_worker (h : Reachable (pool v worker role) c) {i : ι} (hi : (c.thread i).mode = .idle) :
    role i = .worker false := by
  apply idle_of_start _ h hi
  rintro c ⟨-, -, ht⟩ i hi
  rw [ht] at hi
  cases hr : role i with
  | worker created =>
    cases created
    · rfl
    · rw [hr] at hi
      cases hi
  | caller size calls => rw [hr] at hi; cases hi

theorem returned_worker (h : Reachable (pool v worker role) c) {i : ι}
    (hw : (role i).isWorker = true) (hi : (c.thread i).mode = .returned) :
    (c.thread i).pc = .startThread .exit := by
  have hret : (code v worker (c.thread i).pc : Code ι φ) = .ret :=
    returned_at_ret (fun c hc i => (start_mode hc).1) h hi
  have hrole := ((pool_sat h).each i).role
  rw [hw] at hrole
  generalize (c.thread i).pc = p at hret hrole
  rcases p with p | p | p | p <;> cases p <;> cases hret
  · rfl
  · cases hrole

theorem tasks_attended (hw : ∃ i, (role i).isWorker = true) (h : Reachable (pool seance6 worker role) c)
    (hf : c.owner = none) (hc : 0 < c.shared.queue.taskCount) :
    SomeAwake .cond (fun i => (role i).isWorker = true) c := by
  refine (tasks_announced worker role).someAwake (outline_valid ..) ?_ hw signals_hold ?_ h hf hc
  · intro p k q i l s hcode ha
    obtain ⟨-, rfl⟩ := waits_at_wait hcode
    exact ha.role.symm
  · intro c hinit
    refine ⟨outline_initial _ _ hinit, fun hpos => ?_⟩
    obtain ⟨-, ⟨taskQueue, hs⟩, -⟩ := hinit
    rw [hs] at hpos
    exact absurd hpos (lt_irrefl _)

theorem shutdown_heard (h : Reachable (pool seance6 worker role) c) (hf : c.owner = none)
    (hs : c.shared.shutdown = true) : AllAwake .cond c := by
  refine (shutdown_announced worker role).allAwake (outline_valid ..) broadcasts_hold ?_ h hf hs
  intro c hinit
  exact ⟨outline_initial _ _ hinit, fun _ i => (start_mode hinit).2 _⟩

theorem executed_functions (h : Reachable (pool v worker role) c) :
    c.shared.executed = c.shared.handed.filterMap (·.function) := by
  have hinv : Invariant (pool v worker role) fun c =>
      c.shared.executed = c.shared.handed.filterMap (·.function) := by
    constructor
    · rintro c ⟨-, ⟨taskQueue, hs⟩, -⟩
      rw [hs]
      rfl
    · intro c a d _ ih hstep
      rcases step_cases hstep with ⟨p, l, q, l', -, hst, -⟩ | ⟨hs, -⟩
      · generalize d.shared = s at hst ⊢
        cases hst with
        | execute =>
          cases ht : l.task with
          | none => simpa only [runTask_none ht] using ih
          | some task =>
            simp only [runTask_some ht, executeTask, List.filterMap_append, ih]
            cases hfun : task.function <;> simp [hfun]
        | store =>
          unfold store
          split <;> exact ih
        | _ => exact ih
      · rw [hs, ih]
  exact hinv.holds h

theorem closed_of_left (h : Reachable ((pool seance6 worker role).restrict InOrder) c) {i : ι}
    (hi : (role i).isWorker = true)
    (hexit : (c.thread i).pc = .startThread .exit ∨ (c.thread i).mode = .returned) :
    Closed c.shared :=
  closed_of_exit h (hexit.elim id (returned_worker h.of_restrict hi))

variable [Fintype ι]

theorem flying_zero (h : Reachable (pool v worker role) c)
    (hret : ∀ i, (role i).isWorker = true → (c.thread i).mode = .returned) : flying c = 0 := by
  apply Finset.sum_eq_zero
  intro i _
  have hrole := ((pool_sat h).each i).role
  cases hw : (role i).isWorker with
  | true => rw [returned_worker h hw (hret i hw)]; rfl
  | false =>
    rw [hw] at hrole
    generalize (c.thread i).pc = p at hrole
    rcases p with p | p | p | p
    · cases hrole
    all_goals rfl

theorem handed_perm_accepted (hw : ∃ i, (role i).isWorker = true)
    (h : Reachable ((pool seance6 worker role).restrict InOrder) c)
    (hret : ∀ i, (role i).isWorker = true → (c.thread i).mode = .returned) :
    c.shared.handed.Perm (accepted c.shared.log) := by
  have hpool := h.of_restrict
  obtain ⟨i, hi⟩ := hw
  have hcount := (closed_of_left h hi (.inr (hret i hi))).2
  have hempty : c.shared.queue.contents = [] := by
    simp [TaskQueue.contents, hcount]
  have hacc : accepted c.shared.log = delivered c.shared.log := by
    rw [(pool_tracks hpool).legal.balance]
    simp [TaskQueue.fifo, hempty]
  have hhanded := handed_add_flying hpool
  rw [flying_zero hpool hret, add_zero] at hhanded
  rw [hacc]
  exact Multiset.coe_eq_coe.mp hhanded

structure Drained (role : ι → Role φ) (c : State ι φ) : Prop where
  awake : c.owner = none → 0 < c.shared.queue.taskCount → ∃ i, (role i).isWorker = true ∧
    ((c.thread i).mode = .running ∨ (c.thread i).mode = .woken ∨
      (c.thread i).mode = .idle ∧ role i = .worker false)
  called : c.owner = none → c.shared.shutdown = true → ∀ i k, (c.thread i).mode ≠ .blocked k
  leaves : ∀ i, (role i).isWorker = true →
    (c.thread i).pc = .startThread .exit ∨ (c.thread i).mode = .returned →
      c.shared.shutdown = true ∧ c.shared.queue.taskCount = 0
  complete : (∀ i, (role i).isWorker = true → (c.thread i).mode = .returned) →
    c.shared.handed.Perm (accepted c.shared.log) ∧
      c.shared.executed = c.shared.handed.filterMap (·.function)

theorem drained_of_order (worker : ℕ → ι) (role : ι → Role φ)
    (hw : ∃ i, (role i).isWorker = true) (c : State ι φ)
    (h : Reachable ((pool seance6 worker role).restrict InOrder) c) : Drained role c := by
  have hpool := h.of_restrict
  constructor
  · intro hf hpos
    obtain ⟨i, hi, hawake⟩ := tasks_attended hw hpool hf hpos
    refine ⟨i, hi, ?_⟩
    cases hm : (c.thread i).mode with
    | idle => exact .inr (.inr ⟨rfl, idle_worker hpool hm⟩)
    | running => exact .inl rfl
    | blocked k => exact absurd hm hawake
    | woken => exact .inr (.inl rfl)
    | returned =>
      have hcount := (closed_of_left h hi (.inr hm)).2
      omega
  · intro hf hs i k
    exact shutdown_heard hpool hf hs i
  · intro i hi hexit
    exact closed_of_left h hi hexit
  · intro hret
    exact ⟨handed_perm_accepted hw h hret, executed_functions hpool⟩

def drainRole : Fin 2 → Role Unit
  | 0 => .worker true
  | 1 => .caller 0 [.submitTask ⟨some ()⟩, .shutdownThreadPool]

def drainStart : State (Fin 2) Unit where
  shared := initial fun _ => ⟨none⟩
  owner := none
  thread i := (drainRole i).start

def drainSchedule (w m : Fin 2) : List (Label (Fin 2) Unit) :=
  [.run m, .run m, .input m (), .run m, .run m, .run m, .input m (), .run m, .run m,
    .run m, .input m (), .run m, .run m, .input m (), .run m, .run m,
    .run w, .run w, .run w, .input w (), .run w, .input w (),
    .run w, .run w, .run w, .run w, .run w]

theorem drained_of_order_pair : ∃ c : State (Fin 2) Unit,
    (c.thread 0).mode = .returned ∧ c.shared.executed = [()] ∧ Drained drainRole c := by
  have hrun : (execWhere (fun c a => decide (InOrder c a)) (code seance6 fun _ => 0) drainStart
      (drainSchedule 0 1)).isSome = true := by decide
  have hstart : Reachable ((pool seance6 (fun _ => 0) drainRole).restrict InOrder) drainStart :=
    .start ⟨rfl, ⟨_, rfl⟩, fun _ => rfl⟩
  have hreach : Reachable ((pool seance6 (fun _ => 0) drainRole).restrict InOrder)
      (Option.get _ hrun) :=
    reachable_of_execWhere (fun _ _ => of_decide_eq_true) hstart (Option.some_get hrun).symm
  exact ⟨_, rfl, rfl, drained_of_order (fun _ => 0) drainRole ⟨0, rfl⟩ _ hreach⟩

end EmbeddedLinuxTraining.ThreadPool
