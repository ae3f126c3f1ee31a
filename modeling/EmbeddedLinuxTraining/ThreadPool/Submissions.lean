import Mathlib.Algebra.Order.BigOperators.Group.Finset
import EmbeddedLinuxTraining.ThreadPool.ExactlyOnce

namespace EmbeddedLinuxTraining.ThreadPool

open Library.BoundedFifo Library.Pthread Library.Transition Config

variable {ι φ : Type} {v : Version} {worker : ℕ → ι} {role : ι → Role φ} {c d : State ι φ}

def Call.isSubmit : Call φ → Bool
  | .submitTask _ => true
  | .shutdownThreadPool => false

def Point.submits : Point → Bool
  | .main .dispatch | .submitTask .lock | .submitTask .test | .submitTask .store
  | .submitTask .full => true
  | _ => false

def remaining (p : Point) (l : Locals φ) : ℕ :=
  l.calls.countP Call.isSubmit + if p.submits = true ∧ l.task.isSome = true then 1 else 0

def settled (s : Shared φ) : ℕ := (accepted s.log).length + s.rejected.length

theorem remaining_target {p q : Point} {s : Shared φ} {l : Locals φ}
    (h : (code v worker p : Code ι φ).Target s l q) : remaining p l = remaining q l := by
  obtain ⟨hn, hb⟩ := h
  rcases p with p | p | p | p <;> cases p
  case main.dispatch =>
    -- only the branch taken tells a call to `submitTask` from one to `shutdownThreadPool`
    have hq := hb _ _ _ rfl
    cases ht : l.task.isSome with
    | true =>
      obtain rfl : q = .submitTask .lock := by rw [hq, ht]; rfl
      rfl
    | false =>
      obtain rfl : q = .shutdownThreadPool .lock := by rw [hq, ht]; rfl
      simp only [remaining, ht, Bool.false_eq_true, and_false]
  all_goals first | (cases hn; rfl) | (rcases hn with rfl | rfl <;> rfl)

theorem remaining_fetch (l : Locals φ) :
    remaining (.main .dispatch) (fetch l) = remaining (.main .fetch) l := by
  unfold fetch
  split <;> rename_i hc
  all_goals simp [remaining, hc, Point.submits, List.countP_cons, Call.isSubmit]

theorem remaining_statement {p q : Point} {s s' : Shared φ} {l l' : Locals φ}
    (h : Statement s l p q s' l') : settled s' + remaining q l' = settled s + remaining p l := by
  cases h with
  | take => simp [settled, takeTask, remaining, Point.submits]
  | execute =>
    unfold runTask
    split <;> rfl
  | store =>
    cases ht : l.task with
    | none => simp [store, ht, remaining]
    | some task =>
      simp only [store_some ht, settled, accepted_put, List.length_append, List.length_singleton,
        remaining, ht, Point.submits]
      simp
      omega
  | full =>
    cases ht : l.task <;> simp [printFull, settled, ht, remaining, Point.submits]
    omega
  | fetch => rw [remaining_fetch]
  | set | createNext | joinInit | joinNext => rfl

theorem settled_statement {p q : Point} {s s' : Shared φ} {l l' : Locals φ}
    (h : Statement s l p q s' l') : settled s ≤ settled s' := by
  cases h with
  | take => simp [settled, takeTask]
  | execute =>
    unfold runTask
    split <;> exact le_refl _
  | store =>
    unfold store settled
    split
    · simp only [accepted_put, List.length_append]
      omega
    · exact le_refl _
  | full =>
    simp only [settled, printFull, List.length_append]
    omega
  | _ => exact le_refl _

theorem rejected_statement {p q : Point} {s s' : Shared φ} {l l' : Locals φ}
    (h : Statement s l p q s' l') (hp : p ≠ .submitTask .full) : s'.rejected = s.rejected := by
  cases h with
  | full => exact absurd rfl hp
  | execute =>
    unfold runTask
    split <;> rfl
  | store =>
    unfold store
    split <;> rfl
  | _ => rfl

variable [DecidableEq ι]

theorem remaining_step {a : Label ι Unit} (hstep : Step (code v worker) c a d) :
    settled c.shared ≤ settled d.shared ∧
    settled d.shared + remaining (d.thread a.actor).pc (d.thread a.actor).loc =
      settled c.shared + remaining (c.thread a.actor).pc (c.thread a.actor).loc := by
  rcases step_cases hstep with ⟨p, l, q, l', hi, hst, hd⟩ | ⟨hs, hl, hp⟩
  · rw [hi.thread, hd.thread]
    exact ⟨settled_statement hst, remaining_statement hst⟩
  · rw [hs, hl]
    refine ⟨le_refl _, ?_⟩
    rcases hp with hp | ⟨p, l, hi, hp⟩
    · rw [hp]
    · rw [hi.thread, remaining_target hp]

theorem remaining_mono {a : Label ι Unit} (hstep : Step (code v worker) c a d) (j : ι) :
    remaining (d.thread j).pc (d.thread j).loc ≤ remaining (c.thread j).pc (c.thread j).loc := by
  by_cases hj : j = a.actor
  · obtain ⟨hle, heq⟩ := remaining_step hstep
    rw [hj]
    omega
  · obtain ⟨hp, hl⟩ := hstep.frame hj
    rw [hp, hl]

variable [Fintype ι]

theorem settled_add_remaining (h : Reachable (pool v worker role) c) :
    settled c.shared + ∑ i, remaining (c.thread i).pc (c.thread i).loc =
      ∑ i, remaining (role i).start.pc (role i).start.loc := by
  have hinv : Invariant (pool v worker role) fun c =>
      settled c.shared + ∑ i, remaining (c.thread i).pc (c.thread i).loc =
        ∑ i, remaining (role i).start.pc (role i).start.loc := by
    constructor
    · rintro c ⟨-, ⟨taskQueue, hs⟩, ht⟩
      simp [hs, ht, initial, settled]
    · intro c a d _ ih hstep
      have hsum := hstep.sum (remaining (φ := φ))
      have hact := (remaining_step hstep).2
      omega
  exact hinv.holds h

theorem rejected_nil (hle : ∑ i, remaining (role i).start.pc (role i).start.loc ≤ QUEUE_SIZE)
    (h : Reachable (pool v worker role) c) : c.shared.rejected = [] := by
  have hinv : Invariant (pool v worker role) fun c => c.shared.rejected = [] := by
    constructor
    · rintro c ⟨-, ⟨taskQueue, hs⟩, -⟩
      rw [hs]
      rfl
    · intro c a d hr ih hstep
      rcases step_cases hstep with ⟨p, l, q, l', hi, hst, -⟩ | ⟨hs, -⟩
      · rw [rejected_statement hst, ih]
        rintro rfl
        have hsat := pool_sat hr
        obtain ⟨hsome, hcount⟩ := (hsat.at hi).stand rfl
        -- the tasks in the queue and the one about to be dropped are too many
        have hlen : c.shared.queue.contents.length ≤ (accepted c.shared.log).length := by
          rw [(pool_tracks hr).legal.balance, List.length_append]
          exact Nat.le_add_left ..
        have hone : 1 ≤ ∑ i, remaining (c.thread i).pc (c.thread i).loc := by
          refine le_trans ?_ (Finset.single_le_sum (fun _ _ => Nat.zero_le _) (Finset.mem_univ a.actor))
          rw [hi.thread]
          simp [remaining, Point.submits, hsome]
        have htotal := settled_add_remaining hr
        simp only [TaskQueue.contents, List.length_map, List.length_range] at hlen
        simp only [settled] at htotal
        omega
      · rw [hs, ih]
  exact hinv.holds h

end EmbeddedLinuxTraining.ThreadPool
