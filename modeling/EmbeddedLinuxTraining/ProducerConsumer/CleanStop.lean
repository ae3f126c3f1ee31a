import EmbeddedLinuxTraining.Library.Wakeup
import EmbeddedLinuxTraining.ProducerConsumer.LabMultithreadingDebug
import EmbeddedLinuxTraining.ProducerConsumer.ProducerConsumer2

namespace EmbeddedLinuxTraining.ProducerConsumer

open Library.BoundedFifo Library.Pthread Library.Transition Config

variable {ι β : Type} {B : Buffer β Int32} {buffer : β} {role : ι → Role} {c d : State ι β} {side : Side}

def Quiet (side : Side) (c : State ι β) : Prop :=
  ∀ j, (c.thread j).mode ≠ .blocked side.cond ∧ (c.thread j).pc ≠ .thread side .wait

theorem handler_statement {p : Point} {m : HandlerPoint} {s s' : Shared β} {l l' : Locals}
    (h : Statement B s l p (.handler m) s' l') : m = .notFull ∧ s'.gRunning = false := by
  cases h
  exact ⟨rfl, rfl⟩

theorem handler_next {p : Point} {m : HandlerPoint} (h : (code B p : Code ι β).Next (.handler m)) :
    p = .handler .notFull ∧ m = .notEmpty ∨ p = .handler .notEmpty ∧ m = .done := by
  rcases p with ⟨⟨⟩, p⟩ | p | p <;> cases p
  case handler.notFull => cases h; exact .inl ⟨rfl, rfl⟩
  case handler.notEmpty => cases h; exact .inr ⟨rfl, rfl⟩
  all_goals rcases h with h | h <;> cases h

def Told (c : State ι β) : HandlerPoint → Prop
  | .clear => True
  | .notFull => c.shared.gRunning = false
  | .notEmpty => c.shared.gRunning = false ∧ Quiet .producer c
  | .done => c.shared.gRunning = false ∧ Quiet .producer c ∧ Quiet .consumer c

/-- A broadcast of the handler finds no thread between the test of its wait and the wait. -/
def Clean (c : State ι β) (a : Label ι Unit) : Prop :=
  ((c.thread a.actor).pc = .handler .notFull → ∀ j, (c.thread j).pc ≠ .thread .producer .wait) ∧
  ((c.thread a.actor).pc = .handler .notEmpty → ∀ j, (c.thread j).pc ≠ .thread .consumer .wait)

instance [Fintype ι] (c : State ι β) (a : Label ι Unit) : Decidable (Clean c a) :=
  inferInstanceAs (Decidable ((_ → _) ∧ (_ → _)))

variable [DecidableEq ι] {a : Label ι Unit}

theorem running_step (hstep : Step (code B) c a d) (hc : c.shared.gRunning = false) :
    d.shared.gRunning = false := by
  rcases step_cases hstep with ⟨p, l, q, l', -, hst, -⟩ | ⟨hs, -⟩
  · exact running_statement hst hc
  · rw [hs, hc]

theorem Quiet.step (h : Quiet side c) (hstep : Step (code B) c a d)
    (hc : c.shared.gRunning = false) : Quiet side d := by
  intro j
  constructor
  · intro hb
    rcases hstep.blocked_cases hb with hb | ⟨p, l, q, hj, hcode, -, -⟩
    · exact (h j).1 hb
    · obtain ⟨side', rfl, hk, -⟩ := wait_code hcode
      obtain rfl := cond_injective hk
      exact (h j).2 (congrArg Thread.pc hj)
  · intro hpc
    by_cases hj : j = a.actor
    · subst hj
      rcases step_cases hstep with ⟨p, l, q, l', -, hst, hd⟩ | ⟨-, -, hp | ⟨p, l, -, hp⟩⟩
      · exact wait_statement hst ((congrArg Thread.pc hd).symm.trans hpc)
      · exact (h a.actor).2 (hp.symm.trans hpc)
      · rw [hpc] at hp
        rw [(wait_target hp).2] at hc
        cases hc
    · exact (h j).2 ((hstep.frame hj).1.symm.trans hpc)

theorem Told.step {m : HandlerPoint} (h : Told c m) (hstep : Step (code B) c a d) : Told d m := by
  cases m with
  | clear => trivial
  | notFull => exact running_step hstep h
  | notEmpty => exact ⟨running_step hstep h.1, h.2.step hstep h.1⟩
  | done => exact ⟨running_step hstep h.1, h.2.1.step hstep h.1, h.2.2.step hstep h.1⟩

theorem quiet_of_broadcast {m : HandlerPoint} {q : Point} {l : Locals} (hstep : Step (code B) c a d)
    (hi : c.At a.actor (.handler m) l) (hm : (code B (.handler m) : Code ι β) = .broadcast side.cond q)
    (hq : q ≠ .thread side .wait) (hno : ∀ j, (c.thread j).pc ≠ .thread side .wait) : Quiet side d := by
  intro j
  refine ⟨allAwake_of_broadcast hi hm hstep j, fun hpc => ?_⟩
  by_cases hj : j = a.actor
  · have he := hstep.effect hi
    rw [hm] at he
    rw [hj, show d = _ from he, (goto_at ..).thread] at hpc
    exact hq hpc
  · exact hno j ((hstep.frame hj).1.symm.trans hpc)

theorem told (h : Reachable ((program B buffer role).restrict Clean) c) {i : ι} {m : HandlerPoint}
    (hi : (c.thread i).pc = .handler m) : Told c m := by
  have hinv : Invariant ((program B buffer role).restrict Clean) fun c =>
      ∀ i m, (c.thread i).pc = .handler m → Told c m := by
    constructor
    · rintro c ⟨-, -, ht⟩ i m hi
      rw [ht] at hi
      cases hr : role i <;> rw [hr] at hi <;> cases hi
      trivial
    · rintro c a d - ih ⟨hstep, hclean⟩ i m hi
      by_cases hia : i = a.actor
      · subst hia
        rcases step_cases hstep with ⟨p, l, q, l', -, hst, hd⟩ | ⟨-, -, hp | ⟨p, l, hat, hp⟩⟩
        · obtain rfl : q = .handler m := (congrArg Thread.pc hd).symm.trans hi
          obtain ⟨rfl, hg⟩ := handler_statement hst
          exact hg
        · exact (ih _ m (hp.symm.trans hi)).step hstep
        · rw [hi] at hp
          have hpc : (c.thread a.actor).pc = p := congrArg Thread.pc hat
          rcases handler_next hp.1 with ⟨rfl, rfl⟩ | ⟨rfl, rfl⟩
          · have ht : Told c .notFull := ih _ _ hpc
            exact ⟨running_step hstep ht, quiet_of_broadcast hstep hat rfl nofun (hclean.1 hpc)⟩
          · have ht : Told c .notEmpty := ih _ _ hpc
            exact ⟨running_step hstep ht.1, ht.2.step hstep ht.1,
              quiet_of_broadcast hstep hat rfl nofun (hclean.2 hpc)⟩
      · exact (ih i m ((hstep.frame hia).1.symm.trans hi)).step hstep
  exact hinv.holds h i m hi

structure Hang (role : ι → Role) (c : State ι β) : Prop where
  handled : ∃ i, role i = .handler ∧ (c.thread i).pc = .handler .done
  stuck : ∃ j, (∃ k, (c.thread j).mode = .blocked k) ∧
    ∀ i, i ≠ j → role i ≠ .handler → (c.thread i).mode = .returned

theorem not_hang (h : Reachable ((program B buffer role).restrict Clean) c) : ¬ Hang role c := by
  rintro ⟨⟨i, -, hi⟩, j, ⟨k, hj⟩, -⟩
  obtain ⟨-, hp, hc⟩ : Told c .done := told h hi
  cases k with
  | notFull => exact (hp j).1 hj
  | notEmpty => exact (hc j).1 hj

theorem clean_stop :
    (∀ (cap : ℕ) (role : ι → Role) (c : State ι LabMultithreadingDebug.Queue),
      Reachable ((LabMultithreadingDebug.program cap role).restrict Clean) c → ¬ Hang role c) ∧
    ∀ (task : ι → ProducerConsumer2.Task) (c : State ι ProducerConsumer2.Register),
      Reachable ((ProducerConsumer2.program task).restrict Clean) c →
        ¬ Hang (fun i => (task i).role) c := by
  constructor
  · intro cap role c h
    exact not_hang h
  · intro task c h
    exact not_hang h

def labRole : Fin 4 → Role
  | 0 => .producer
  | 1 => .consumer
  | 2 => .periodic
  | 3 => .handler

def labStart : State (Fin 4) LabMultithreadingDebug.Queue where
  shared := ⟨true, .zero, []⟩
  owner := none
  thread i := ⟨(labRole i).start, ⟨0, 0⟩, .running⟩

def registerTask : Fin 3 → ProducerConsumer2.Task
  | 0 => .producer
  | 1 => .consumer
  | 2 => .handler

def registerStart : State (Fin 3) ProducerConsumer2.Register where
  shared := ⟨true, .reset, []⟩
  owner := none
  thread i := ⟨(registerTask i).role.start, ⟨0, 0⟩, .running⟩

def labStop : List (Label (Fin 4) Unit) :=
  [.run 1, .run 1, .run 1, .run 1, .input 3 (), .run 3, .run 3, .resume 1, .run 1, .run 1, .run 1, .run 1]

def registerStop : List (Label (Fin 3) Unit) :=
  [.run 1, .run 1, .run 1, .run 1, .input 2 (), .run 2, .run 2, .resume 1, .run 1, .run 1, .run 1, .run 1]

theorem clean_stop_asleep :
    (∃ c : State (Fin 4) LabMultithreadingDebug.Queue, (c.thread 1).mode = .returned ∧ ¬ Hang labRole c) ∧
    ∃ c : State (Fin 3) ProducerConsumer2.Register, (c.thread 1).mode = .returned ∧
      ¬ Hang (fun i => (registerTask i).role) c := by
  have hlab : (execWhere (fun c a => decide (Clean c a)) (code (LabMultithreadingDebug.Queue.buffer
      LabMultithreadingDebug.QUEUE_CAPACITY)) labStart labStop).isSome = true := by decide
  have hlab' : Reachable ((LabMultithreadingDebug.program LabMultithreadingDebug.QUEUE_CAPACITY
      labRole).restrict Clean) (Option.get _ hlab) :=
    reachable_of_execWhere (fun _ _ => of_decide_eq_true) (.start ⟨rfl, rfl, fun _ => rfl⟩)
      (Option.some_get hlab).symm
  have hreg : (execWhere (fun c a => decide (Clean c a)) (code ProducerConsumer2.Register.buffer)
      registerStart registerStop).isSome = true := by decide
  have hreg' : Reachable ((ProducerConsumer2.program registerTask).restrict Clean)
      (Option.get _ hreg) :=
    reachable_of_execWhere (fun _ _ => of_decide_eq_true) (.start ⟨rfl, rfl, fun _ => rfl⟩)
      (Option.some_get hreg).symm
  exact ⟨⟨_, rfl, clean_stop.1 _ _ _ hlab'⟩, ⟨_, rfl, clean_stop.2 _ _ hreg'⟩⟩

def labHang : List (Label (Fin 4) Unit) :=
  [.run 1, .run 1, .run 1, .input 3 (), .run 3, .run 3, .run 3, .run 1, .run 0, .run 0, .run 2, .run 2]

def registerHang : List (Label (Fin 3) Unit) :=
  [.run 1, .run 1, .run 1, .input 2 (), .run 2, .run 2, .run 2, .run 1, .run 0, .run 0]

theorem hang_reachable :
    (∃ c, Reachable (LabMultithreadingDebug.program LabMultithreadingDebug.QUEUE_CAPACITY labRole) c ∧
      Hang labRole c) ∧
    ∃ c, Reachable (ProducerConsumer2.program registerTask) c ∧
      Hang (fun i => (registerTask i).role) c := by
  have hlab : (execAll (code (LabMultithreadingDebug.Queue.buffer
      LabMultithreadingDebug.QUEUE_CAPACITY)) labStart labHang).isSome = true := by decide
  have hreg : (execAll (code ProducerConsumer2.Register.buffer) registerStart
      registerHang).isSome = true := by decide
  constructor
  · refine ⟨_, reachable_of_execAll ⟨rfl, rfl, fun _ => rfl⟩ (Option.some_get hlab).symm, ?_⟩
    refine ⟨⟨3, rfl, rfl⟩, 1, ⟨.notEmpty, rfl⟩, ?_⟩
    exact fun | 0, _, _ => rfl | 1, h, _ => absurd rfl h | 2, _, _ => rfl | 3, _, h => absurd rfl h
  · refine ⟨_, reachable_of_execAll ⟨rfl, rfl, fun _ => rfl⟩ (Option.some_get hreg).symm, ?_⟩
    refine ⟨⟨2, rfl, rfl⟩, 1, ⟨.notEmpty, rfl⟩, ?_⟩
    exact fun | 0, _, _ => rfl | 1, h, _ => absurd rfl h | 2, _, h => absurd rfl h

end EmbeddedLinuxTraining.ProducerConsumer
