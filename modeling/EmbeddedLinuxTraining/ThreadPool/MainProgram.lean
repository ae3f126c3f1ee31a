import Mathlib.Data.Fintype.BigOperators
import EmbeddedLinuxTraining.ThreadPool.Drain

namespace EmbeddedLinuxTraining.ThreadPool

open Library.BoundedFifo Library.Pthread Library.Transition Config

def THREAD_POOL_SIZE : ℕ := 1

def NUM_TASKS : ℕ := 300

inductive Function
  | userFunction
  deriving DecidableEq

def userTask : TaskTypeDef Function := ⟨some .userFunction⟩

def mainCalls (T : ℕ) : List (Call Function) :=
  List.replicate T (.submitTask userTask) ++ [.shutdownThreadPool]

def threads (W i : ℕ) : Option (Fin W) := if h : i < W then some ⟨i, h⟩ else none

/-- `none` is the thread of `main`. -/
def mainRole (W T : ℕ) : Option (Fin W) → Role Function
  | none => .caller W (mainCalls T)
  | some _ => .worker false

def program (W T : ℕ) : System (State (Option (Fin W)) Function) (Label (Option (Fin W)) Unit) :=
  pool seance6 (threads W) (mainRole W T)

def Calling (l : Locals Function) : Prop := ∃ n, l.calls = mainCalls n

def MainAt (returned : ℕ → Prop) (l : Locals Function) : Point → Prop
  | .startThread _ => False
  | .submitTask _ => Calling l ∧ l.task = some userTask
  | .shutdownThreadPool _ => l.calls = []
  | .main .createTest | .main .create | .main .createNext | .main .fetch | .main .failed => Calling l
  | .main .call => Calling l ∨ l.calls = []
  | .main .dispatch => Calling l ∧ l.task = some userTask ∨ l.calls = [] ∧ l.task = none
  | .main .joinInit => l.calls = []
  | .main .joinTest | .main .join => l.calls = [] ∧ ∀ k < l.i, returned k
  | .main .joinNext => l.calls = [] ∧ ∀ k < l.i + 1, returned k
  | .main .finished => l.calls = [] ∧ ∀ k < l.size, returned k

theorem mainCalls_succ (n : ℕ) : mainCalls (n + 1) = .submitTask userTask :: mainCalls n := rfl

variable {W T : ℕ} {returned returned' : ℕ → Prop} {p q : Point} {s s' : Shared Function}
  {l l' : Locals Function}

theorem MainAt.mono (h : MainAt returned l p) (hr : ∀ k, returned k → returned' k) :
    MainAt returned' l p := by
  rcases p with p | p | p | p <;> cases p
  case main.joinTest | main.join | main.joinNext | main.finished =>
    exact ⟨h.1, fun k hk => hr k (h.2 k hk)⟩
  all_goals exact h

theorem mainAt_statement (h : Statement s l p q s' l') (hm : MainAt returned l p) :
    MainAt returned l' q ∧ l'.size = l.size := by
  cases h with
  | take | execute => cases hm
  | store => rw [store_some hm.2]; exact ⟨hm, rfl⟩
  | full | set | createNext => exact ⟨hm, rfl⟩
  | fetch =>
    obtain ⟨n, hn⟩ := hm
    cases n with
    | zero =>
      have hc : l.calls = [.shutdownThreadPool] := hn
      simp [fetch, hc, MainAt]
    | succ n =>
      rw [mainCalls_succ] at hn
      simp only [fetch, hn]
      exact ⟨.inl ⟨⟨n, rfl⟩, rfl⟩, trivial⟩
  | joinInit => exact ⟨⟨hm, nofun⟩, rfl⟩
  | joinNext => exact ⟨hm, rfl⟩

theorem mainAt_target {worker : ℕ → Option (Fin W)}
    (h : (code seance6 worker p : Code (Option (Fin W)) Function).Target s l q)
    (hj : p = .main .join → returned l.i) (hm : MainAt returned l p) : MainAt returned l q := by
  obtain ⟨hn, hb⟩ := h
  rcases p with p | p | p | p
  · exact hm.elim
  · cases p with
    | lock | signal => obtain rfl : q = _ := hn; exact hm
    | test => rcases hn with rfl | rfl <;> exact hm
    | unlock => obtain rfl : q = _ := hn; exact .inl hm.1
    | store | full => cases hn
  · cases p with
    | lock | broadcast => obtain rfl : q = _ := hn; exact hm
    | unlock => obtain rfl : q = _ := hn; exact .inr hm
    | set => cases hn
  · cases p with
    | createTest =>
      rcases hn with rfl | rfl
      · exact hm
      · exact .inl hm
    | create => rcases hn with rfl | rfl <;> exact hm
    | call =>
      have hq := hb _ _ _ rfl
      cases he : l.calls.isEmpty with
      | true =>
        rw [he] at hq
        subst hq
        exact List.isEmpty_iff.mp he
      | false =>
        rw [he] at hq
        subst hq
        refine hm.resolve_right fun hnil => ?_
        rw [hnil] at he
        cases he
    | dispatch =>
      have hq := hb _ _ _ rfl
      rcases hm with ⟨hc, ht⟩ | ⟨hc, ht⟩
      · rw [ht] at hq
        subst hq
        exact ⟨hc, ht⟩
      · rw [ht] at hq
        subst hq
        exact hc
    | joinTest =>
      have hq := hb _ _ _ rfl
      by_cases hlt : l.i < l.size
      · simp only [hlt, decide_true, cond_true] at hq
        subst hq
        exact hm
      · simp only [hlt, decide_false, cond_false] at hq
        subst hq
        exact ⟨hm.1, fun k hk => hm.2 k (by omega)⟩
    | join =>
      obtain rfl : q = _ := hn
      refine ⟨hm.1, fun k hk => ?_⟩
      rcases Nat.lt_succ_iff_lt_or_eq.mp hk with hlt | rfl
      · exact hm.2 k hlt
      · exact hj rfl
    | finished => rcases hn with rfl | rfl <;> exact hm
    | createNext | fetch | joinInit | joinNext | failed => cases hn

def Returned (c : State (Option (Fin W)) Function) (k : ℕ) : Prop :=
  (c.thread (threads W k)).mode = .returned

structure Driven (c : State (Option (Fin W)) Function) : Prop where
  size : (c.thread none).loc.size = W
  main : MainAt (Returned c) (c.thread none).loc (c.thread none).pc
  workers : ∀ k, (c.thread (some k)).loc.calls = []

theorem calls_nil_statement (h : Statement s l p q s' l') (hc : l.calls = []) : l'.calls = [] := by
  cases h with
  | fetch => simp [fetch, hc]
  | store =>
    unfold store
    split <;> exact hc
  | execute =>
    unfold runTask
    split <;> exact hc
  | _ => exact hc

variable {c d : State (Option (Fin W)) Function}

theorem driven (h : Reachable (program W T) c) : Driven c := by
  have hinv : Invariant (program W T) Driven := by
    constructor
    · rintro c ⟨-, -, ht⟩
      refine ⟨?_, ?_, fun k => ?_⟩
      · rw [ht]; rfl
      · rw [ht]; exact ⟨T, rfl⟩
      · rw [ht]; rfl
    · intro c a d _ ih hstep
      have hmono : ∀ k, Returned c k → Returned d k := by
        intro k hk
        rw [Returned, hstep.returned hk]
        exact hk
      have hworkers : ∀ k, (d.thread (some k)).loc.calls = [] := by
        intro k
        by_cases hk : some k = a.actor
        · rcases step_cases hstep with ⟨p, l, q, l', hi, hst, hd⟩ | ⟨-, hl, -⟩
          · have hc := ih.workers k
            rw [hk, hi.thread] at hc
            rw [hk, hd.thread]
            exact calls_nil_statement hst hc
          · rw [hk, hl, ← hk]
            exact ih.workers k
        · rw [(hstep.frame hk).2]
          exact ih.workers k
      by_cases hmain : none = a.actor
      · rcases step_cases hstep with ⟨p, l, q, l', hi, hst, hd⟩ | ⟨-, hl, hp⟩
        · have hm := ih.main
          have hsize := ih.size
          rw [hmain, hi.thread] at hm hsize
          obtain ⟨hat, hs⟩ := mainAt_statement hst (hm.mono hmono)
          refine ⟨?_, ?_, hworkers⟩
          · rw [hmain, hd.thread]
            exact hs.trans hsize
          · rw [hmain, hd.thread]
            exact hat
        · refine ⟨by rw [hmain, hl, ← hmain]; exact ih.size, ?_, hworkers⟩
          rw [hmain, hl]
          have hm := ih.main.mono hmono
          rw [hmain] at hm
          rcases hp with hp | ⟨p, l, hi, hp⟩
          · rw [hp]
            exact hm
          · rw [hi.thread] at hm ⊢
            refine mainAt_target hp ?_ hm
            rintro rfl
            have he := hstep.effect hi
            exact hmono _ he.1
      · obtain ⟨hp, hl⟩ := hstep.frame hmain
        refine ⟨by rw [hl]; exact ih.size, ?_, hworkers⟩
        rw [hp, hl]
        exact ih.main.mono hmono
  exact hinv.holds h

theorem worker_point (h : Reachable (program W T) c) (k : Fin W) :
    ∃ p, (c.thread (some k)).pc = .startThread p := by
  have hrole : (c.thread (some k)).pc.isWorker = true := ((pool_sat h).each (some k)).role
  generalize (c.thread (some k)).pc = p at hrole ⊢
  rcases p with p | p | p | p
  · exact ⟨p, rfl⟩
  all_goals cases hrole

theorem worker_remaining (h : Reachable (program W T) c) (k : Fin W) :
    remaining (c.thread (some k)).pc (c.thread (some k)).loc = 0 := by
  obtain ⟨p, hp⟩ := worker_point h k
  rw [remaining, hp, (driven h).workers k]
  rfl

theorem in_order (h : Reachable (program W T) c) : Reachable ((program W T).restrict InOrder) c := by
  apply h.to_restrict
  intro c a d hr hstep hpc j
  cases j with
  | some k => exact worker_remaining hr k
  | none =>
    have hmain : a.actor = none := by
      cases ha : a.actor with
      | none => rfl
      | some k =>
        obtain ⟨p, hp⟩ := worker_point hr k
        rw [ha, hp] at hpc
        cases hpc
    have hm := (driven hr).main
    rw [hmain] at hpc
    rw [hpc] at hm
    rw [remaining, hpc, show (c.thread none).loc.calls = [] from hm]
    rfl

theorem accepted_userTask (h : Reachable (program W T) c) : ∀ x ∈ accepted c.shared.log, x = userTask := by
  have hinv : Invariant (program W T) fun c => ∀ x ∈ accepted c.shared.log, x = userTask := by
    constructor
    · rintro c ⟨-, ⟨taskQueue, hs⟩, -⟩ x hx
      rw [hs] at hx
      cases hx
    · intro c a d hr ih hstep
      rcases step_cases hstep with ⟨p, l, q, l', hi, hst, -⟩ | ⟨hs, -⟩
      · generalize d.shared = s at hst ⊢
        cases hst with
        | take => simpa only [takeTask, accepted_get] using ih
        | execute =>
          unfold runTask
          split <;> exact ih
        | store =>
          cases ha : a.actor with
          | none =>
            have hm := (driven hr).main
            rw [ha] at hi
            rw [hi.thread] at hm
            have ht : l.task = some userTask := hm.2
            rw [store_some ht]
            intro x hx
            rw [accepted_put, List.mem_append, List.mem_singleton] at hx
            exact hx.elim (ih x) id
          | some k =>
            obtain ⟨p, hp⟩ := worker_point hr k
            rw [← ha, hi.thread] at hp
            cases hp
        | _ => exact ih
      · rw [hs]
        exact ih
  exact hinv.holds h

theorem start_remaining (W T : ℕ) :
    ∑ i, remaining (mainRole W T i).start.pc (mainRole W T i).start.loc = T := by
  rw [Fintype.sum_option]
  have hmain : remaining (mainRole W T none).start.pc (mainRole W T none).start.loc = T := by
    simp [remaining, mainRole, Role.start, mainCalls, Point.submits, List.countP_replicate,
      Call.isSubmit]
  have hworkers : ∀ k : Fin W,
      remaining (mainRole W T (some k)).start.pc (mainRole W T (some k)).start.loc = 0 := fun _ => rfl
  simp [hmain, hworkers]

def Finished (c : State (Option (Fin W)) Function) : Prop := (c.thread none).pc = .main .finished

theorem executed_of_finished (hW : 1 ≤ W) (h : Reachable (program W T) c) (hf : Finished c) :
    c.shared.executed.length + c.shared.rejected.length = T := by
  have hdriven := driven h
  have hm := hdriven.main
  rw [hf] at hm
  obtain ⟨hcalls, hret⟩ := hm
  have hall : ∀ i, (mainRole W T i).isWorker = true → (c.thread i).mode = .returned := by
    intro i hi
    cases i with
    | none => cases hi
    | some k =>
      have hk := hret k.1 (by rw [hdriven.size]; exact k.2)
      simpa [Returned, threads] using hk
  have hw : ∃ i, (mainRole W T i).isWorker = true := ⟨some ⟨0, hW⟩, rfl⟩
  have hperm := handed_perm_accepted hw (in_order h) hall
  have hlen : c.shared.executed.length = c.shared.handed.length := by
    rw [executed_functions h, List.filterMap_length_eq_length]
    intro x hx
    rw [accepted_userTask h x (hperm.subset hx)]
    rfl
  have hzero : ∑ i, remaining (c.thread i).pc (c.thread i).loc = 0 := by
    apply Finset.sum_eq_zero
    intro i _
    cases i with
    | none => rw [remaining, hf, hcalls]; rfl
    | some k => exact worker_remaining h k
  have htotal := settled_add_remaining h
  rw [hzero, start_remaining, settled, ← hperm.length_eq, ← hlen] at htotal
  exact htotal

end EmbeddedLinuxTraining.ThreadPool
