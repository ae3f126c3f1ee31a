import Mathlib.Algebra.Order.Group.Multiset
import EmbeddedLinuxTraining.Library.Exec
import EmbeddedLinuxTraining.ThreadPool.Fifo

namespace EmbeddedLinuxTraining.ThreadPool

open Library.BoundedFifo Library.Pthread Library.Transition Config

variable {ι φ : Type} {v : Version} {worker : ℕ → ι} {role : ι → Role φ} {c d : State ι φ}

theorem inFlight_next {p q : Point} (l : Locals φ) (h : (code v worker p : Code ι φ).Next q) :
    inFlight l p = inFlight l q := by
  rcases p with p | p | p | p <;> cases p <;>
    first
      | (cases h; rfl)
      | (rcases h with rfl | rfl <;> rfl)

theorem statement_balance {p q : Point} {s s' : Shared φ} {l l' : Locals φ}
    (h : Statement s l p q s' l') :
    (s'.handed : Multiset (TaskTypeDef φ)) + inFlight l' q + delivered s.log =
      s.handed + inFlight l p + delivered s'.log := by
  cases h with
  | take => simp only [takeTask, inFlight, delivered_get, Option.toList_some, ← Multiset.coe_add,
      Multiset.coe_nil, add_zero]; ac_rfl
  | execute =>
    cases ht : l.task with
    | none => simp only [runTask_none ht, inFlight, ht, Option.toList_none]
    | some task =>
      simp only [runTask_some ht, executeTask, inFlight, ht, Option.toList_some, ← Multiset.coe_add,
        Multiset.coe_nil, add_zero]
  | store =>
    cases ht : l.task with
    | none => simp only [store, ht, inFlight]
    | some task => simp only [store_some ht, delivered_put, inFlight]
  | full | set | createNext | fetch | joinInit | joinNext => rfl

theorem queue_kept [DecidableEq ι] {i : ι} {p : Point} {l : Locals φ} {a : Label ι Unit}
    (hsat : (outline v role).Sat (code v worker) c) (hi : c.At i p l) (hp : holds p = true)
    (hne : ∀ q s' l', Statement c.shared l p q s' l' → s'.queue = c.shared.queue ∧ s'.log = c.shared.log)
    (hstep : Step (code v worker) c a d) :
    d.shared.queue = c.shared.queue ∧ d.shared.log = c.shared.log := by
  rcases step_cases hstep with ⟨p', l', q, m, hj, hst, -⟩ | ⟨hs, -⟩
  · by_cases hji : a.actor = i
    · subst hji
      obtain ⟨rfl, rfl⟩ := hi.unique hj
      exact hne _ _ _ hst
    · obtain ⟨-, -, hkeep, -⟩ := (hsat.at hj).statement hst
      have hno : holds p' = false := by
        cases hh : holds p' with
        | false => rfl
        | true =>
          have hown := (hsat.holds_iff hi).mp hp
          rw [(hsat.holds_iff hj).mp hh] at hown
          exact absurd (Option.some.inj hown) hji
      exact ⟨(hkeep hno).1, (hkeep hno).2.1⟩
  · rw [hs]
    exact ⟨rfl, rfl⟩

variable [Fintype ι]

def flying (c : State ι φ) : Multiset (TaskTypeDef φ) :=
  ∑ i, (inFlight (c.thread i).loc (c.thread i).pc : Multiset (TaskTypeDef φ))

variable [DecidableEq ι]

theorem transfer {M : Type} [AddCancelCommMonoid M] {x x' z z' f f' a b : M} (hf : f' + a = f + b)
    (hx : x' + b + z = x + a + z') (h : x + f = z) : x' + f' = z' := by
  apply add_right_cancel (b := a + z)
  calc x' + f' + (a + z) = x' + (f' + a) + z := by ac_rfl
    _ = (x' + b + z) + f := by rw [hf]; ac_rfl
    _ = (x + f) + a + z' := by rw [hx]; ac_rfl
    _ = z' + (a + z) := by rw [h]; ac_rfl

theorem flying_step {a : Label ι Unit} (hstep : Step (code v worker) c a d)
    (ih : (c.shared.handed : Multiset (TaskTypeDef φ)) + flying c = delivered c.shared.log) :
    (d.shared.handed : Multiset (TaskTypeDef φ)) + flying d = delivered d.shared.log := by
  have hsum : flying d + inFlight (c.thread a.actor).loc (c.thread a.actor).pc =
      flying c + inFlight (d.thread a.actor).loc (d.thread a.actor).pc :=
    hstep.sum (fun p l => (inFlight l p : Multiset (TaskTypeDef φ)))
  rcases step_cases hstep with ⟨p, l, q, l', hi, hst, hd⟩ | ⟨hs, hl, hp⟩
  · rw [hi.thread, hd.thread] at hsum
    exact transfer hsum (statement_balance hst) ih
  · have hsame : inFlight (d.thread a.actor).loc (d.thread a.actor).pc =
        inFlight (c.thread a.actor).loc (c.thread a.actor).pc := by
      rw [hl]
      rcases hp with hp | ⟨p, l, hi, hp⟩
      · rw [hp]
      · rw [hi.thread]
        exact (inFlight_next _ hp.1).symm
    rw [hsame] at hsum
    rw [hs, add_right_cancel hsum, ih]

theorem handed_add_flying (h : Reachable (pool v worker role) c) :
    (c.shared.handed : Multiset (TaskTypeDef φ)) + flying c = delivered c.shared.log := by
  have hinv : Invariant (pool v worker role) fun c =>
      (c.shared.handed : Multiset (TaskTypeDef φ)) + flying c = delivered c.shared.log := by
    refine ⟨?_, fun c a d _ ih hstep => flying_step hstep ih⟩
    rintro c ⟨-, ⟨taskQueue, hs⟩, ht⟩
    have hz : ∀ i, inFlight (c.thread i).loc (c.thread i).pc = [] := by
      intro i
      rw [ht]
      cases role i <;> rfl
    simp [flying, hz, hs, initial]
  exact hinv.holds h

structure ExactlyOnce (v : Version) (worker : ℕ → ι) (c : State ι φ) : Prop where
  bounded : 0 ≤ c.shared.queue.taskCount ∧ c.shared.queue.taskCount ≤ QUEUE_SIZE
  sequence : accepted c.shared.log = delivered c.shared.log ++ c.shared.queue.contents
  full_test : ∀ i l d, c.At i (.submitTask .test) l → ¬ c.shared.queue.taskCount < QUEUE_SIZE →
    Step (code v worker) c (.run i) d → d.At i (.submitTask .full) l ∧ d.shared = c.shared
  full_kept : ∀ i l a d, c.At i (.submitTask .full) l → Step (code v worker) c a d →
    d.shared.queue = c.shared.queue ∧ d.shared.log = c.shared.log ∧
      (a.actor = i → d.At i (.submitTask .unlock) l)
  unlock_kept : ∀ i l a d, c.At i (.submitTask .unlock) l → Step (code v worker) c a d →
    d.shared.queue = c.shared.queue ∧ d.shared.log = c.shared.log
  nonempty : ∀ i l, c.At i (.startThread .take) l → 0 < c.shared.queue.taskCount
  once : c.shared.handed.Subperm (accepted c.shared.log)
  order : ∀ i, (c.thread i).loc.own.Sublist (accepted c.shared.log)

theorem exactly_once_fifo (v : Version) (worker : ℕ → ι) (role : ι → Role φ) (c : State ι φ)
    (h : Reachable (pool v worker role) c) : ExactlyOnce v worker c := by
  have hsat := pool_sat h
  have htr := pool_tracks h
  have hacc := htr.legal.balance
  have hpre : (delivered c.shared.log).Sublist (accepted c.shared.log) := by
    rw [hacc]
    exact List.sublist_append_left ..
  refine ⟨htr.wf, hacc, ?_, ?_, ?_, ?_, ?_, ?_⟩
  · intro i l d hi hfull hstep
    have he := hstep.effect hi
    simp only [code, submitTask, Effect, hfull, decide_false, cond_false] at he
    subst he
    exact ⟨move_self .., rfl⟩
  · intro i l a d hi hstep
    obtain ⟨hq, hl⟩ := queue_kept hsat hi rfl (fun q s' l' hs => by cases hs; exact ⟨rfl, rfl⟩) hstep
    refine ⟨hq, hl, fun ha => ?_⟩
    subst ha
    obtain ⟨x, s', l', hf, rfl⟩ := hstep.effect hi
    cases hf
    exact move_self ..
  · intro i l a d hi hstep
    exact queue_kept hsat hi rfl (fun q s' l' hs => nomatch hs) hstep
  · intro i l hi
    have hne : c.shared.queue.taskCount ≠ 0 := (hsat.at hi).stand rfl
    have := htr.wf.1
    omega
  · have hle : (c.shared.handed : Multiset (TaskTypeDef φ)) ≤ delivered c.shared.log := by
      rw [← handed_add_flying h]
      exact Multiset.le_add_right ..
    exact (Multiset.coe_le.mp hle).trans hpre.subperm
  · intro i
    have ho := (hsat.each i).own
    exact ((List.sublist_append_left ..).trans ho).trans hpre

def pairRole : Fin 2 → Role Unit
  | 0 => .worker true
  | 1 => .caller 0 [.submitTask ⟨some ()⟩]

def pairStart : State (Fin 2) Unit where
  shared := initial fun _ => ⟨none⟩
  owner := none
  thread i := (pairRole i).start

def pairSchedule (w m : Fin 2) : List (Label (Fin 2) Unit) :=
  [.run m, .run m, .input m (), .run m, .run m, .run m, .input m (), .run m, .run m,
    .run w, .run w, .run w, .input w (), .run w, .input w ()]

theorem exactly_once_fifo_pair : ∃ c : State (Fin 2) Unit,
    c.shared.handed = [⟨some ()⟩] ∧ ExactlyOnce seance6 (fun _ => 0) c := by
  have hrun : (execAll (code seance6 fun _ => 0) pairStart (pairSchedule 0 1)).isSome = true := by decide
  have hreach : Reachable (pool seance6 (fun _ => 0) pairRole) (Option.get _ hrun) :=
    reachable_of_execAll ⟨rfl, ⟨_, rfl⟩, fun _ => rfl⟩ (Option.some_get hrun).symm
  exact ⟨_, rfl, exactly_once_fifo seance6 _ _ _ hreach⟩

end EmbeddedLinuxTraining.ThreadPool
