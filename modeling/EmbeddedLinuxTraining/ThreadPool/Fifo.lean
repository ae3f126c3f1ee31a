import EmbeddedLinuxTraining.Library.Outline
import EmbeddedLinuxTraining.ThreadPool.Program

namespace EmbeddedLinuxTraining.ThreadPool

open Library.BoundedFifo Library.Pthread Library.Transition

variable {ι φ : Type}

def holds : Point → Bool
  | .startThread .lock | .startThread .execute | .startThread .exit => false
  | .startThread _ => true
  | .submitTask .lock | .shutdownThreadPool .lock => false
  | .submitTask _ | .shutdownThreadPool _ => true
  | .main _ => false

def Stand (v : Version) (l : Locals φ) (s : Shared φ) : Point → Prop
  | .startThread .wait => v.waits s.queue.taskCount s.shutdown = true
  | .startThread .check => v.waits s.queue.taskCount s.shutdown = false
  | .startThread .leave => v.exits s.queue.taskCount s.shutdown = true
  | .startThread .take => s.queue.taskCount ≠ 0
  | .submitTask .store => l.task.isSome = true ∧ s.queue.taskCount < QUEUE_SIZE
  | .submitTask .full => l.task.isSome = true ∧ ¬ s.queue.taskCount < QUEUE_SIZE
  | .submitTask _ => l.task.isSome = true
  | _ => True

def inFlight (l : Locals φ) : Point → List (TaskTypeDef φ)
  | .startThread .unlock | .startThread .execute => l.task.toList
  | _ => []

structure Assertion (v : Version) (r : Role φ) (t : Thread (Locals φ) Cond Point) (s : Shared φ) :
    Prop where
  role : t.pc.isWorker = r.isWorker
  tracks : t.mode = .running → holds t.pc = true → Tracks TaskQueue.fifo s.log s.queue
  stand : t.mode = .running → Stand v t.loc s t.pc
  idle : t.mode = .idle → t.pc = .startThread .lock
  own : (t.loc.own ++ inFlight t.loc t.pc).Sublist (delivered s.log)

def outline (v : Version) (role : ι → Role φ) : Outline ι (Shared φ) (Locals φ) Cond Point where
  holds := holds
  inv s := Tracks TaskQueue.fifo s.log s.queue
  asrt i t s := Assertion v (role i) t s

variable {v : Version} {r : Role φ} {p q : Point} {l : Locals φ} {s : Shared φ}

theorem Assertion.goto (h : Assertion v r ⟨p, l, .running⟩ s) (hr : p.isWorker = q.isWorker)
    (ht : holds q = true → Tracks TaskQueue.fifo s.log s.queue) (hs : Stand v l s q)
    (hq : inFlight l p = inFlight l q) : Assertion v r ⟨q, l, .running⟩ s :=
  ⟨hr ▸ h.role, fun _ => ht, fun _ => hs, nofun, hq ▸ h.own⟩

theorem Stand.stable {s' : Shared φ} (hp : holds p = false) (h : Stand v l s p) :
    Stand v l s' p := by
  rcases p with p | p | p | p <;> cases p <;> first | exact h | cases hp

theorem Assertion.stable {t : Thread (Locals φ) Cond Point} {s' : Shared φ}
    (h : Assertion v r t s) (hno : t.mode = .running → holds t.pc = false)
    (hd : (delivered s.log).Sublist (delivered s'.log)) : Assertion v r t s' := by
  refine ⟨h.role, fun hm hh => ?_, fun hm => (h.stand hm).stable (hno hm), h.idle,
    h.own.trans hd⟩
  rw [hno hm] at hh
  cases hh

theorem Assertion.frame {t : Thread (Locals φ) Cond Point} {s' : Shared φ}
    (h : Assertion v r t s) (hq : s'.queue = s.queue) (hl : s'.log = s.log)
    (hb : s'.shutdown = s.shutdown) : Assertion v r t s' := by
  refine ⟨h.role, fun hm hh => ?_, fun hm => ?_, h.idle, hl ▸ h.own⟩
  · rw [hq, hl]
    exact h.tracks hm hh
  · have := h.stand hm
    generalize t.pc = p at this ⊢
    rcases p with p | p | p | p <;> cases p <;>
      first | exact trivial | simpa only [Stand, hq, hb] using this

theorem tracks_append (h : Tracks TaskQueue.fifo s.log s.queue) (hlt : s.queue.taskCount < QUEUE_SIZE)
    (task : TaskTypeDef φ) :
    Tracks TaskQueue.fifo (s.log ++ [.put task]) (s.queue.append task) :=
  h.put (by simpa [TaskQueue.buffer] using hlt) task

theorem tracks_removeFirst (h : Tracks TaskQueue.fifo s.log s.queue) (hne : s.queue.taskCount ≠ 0) :
    Tracks TaskQueue.fifo (s.log ++ [.get s.queue.removeFirst.1]) s.queue.removeFirst.2 :=
  h.get (by simpa [TaskQueue.buffer] using hne)

theorem Assertion.statement {s' : Shared φ} {l' : Locals φ} (hs : Statement s l p q s' l')
    (h : Assertion v r ⟨p, l, .running⟩ s) :
    Assertion v r ⟨q, l', .running⟩ s' ∧ holds p = holds q ∧
      (holds p = false → s'.queue = s.queue ∧ s'.log = s.log ∧ s'.shutdown = s.shutdown) ∧
      (delivered s.log).Sublist (delivered s'.log) := by
  cases hs with
  | take =>
    have ht := tracks_removeFirst (h.tracks rfl rfl) (h.stand rfl)
    refine ⟨⟨h.role, fun _ _ => ht, fun _ => trivial, nofun, ?_⟩, rfl, nofun, ?_⟩
    · have ho := h.own
      simp only [inFlight, List.append_nil] at ho
      simpa [takeTask, inFlight] using ho
    · simp [takeTask]
  | execute =>
    have ho := h.own
    cases ht : l.task with
    | none =>
      rw [runTask_none ht]
      simp only [inFlight, ht, Option.toList_none] at ho
      exact ⟨⟨h.role, nofun, fun _ => trivial, nofun, ho⟩, rfl, fun _ => ⟨rfl, rfl, rfl⟩, .refl _⟩
    | some task =>
      rw [runTask_some ht]
      simp only [inFlight, ht, Option.toList_some] at ho
      refine ⟨⟨h.role, nofun, fun _ => trivial, nofun, ?_⟩, rfl, fun _ => ⟨rfl, rfl, rfl⟩, .refl _⟩
      simpa only [inFlight, List.append_nil, executeTask] using ho
  | store =>
    have hsome : l.task.isSome = true := (h.stand rfl).1
    obtain ⟨task, ht⟩ := Option.isSome_iff_exists.mp hsome
    have htr := tracks_append (h.tracks rfl rfl) (h.stand rfl).2 task
    have ho := h.own
    rw [store_some ht]
    refine ⟨⟨h.role, fun _ _ => htr, fun _ => hsome, nofun, ?_⟩, rfl, nofun, ?_⟩
    · simpa [inFlight] using ho
    · simp
  | full =>
    exact ⟨⟨h.role, fun _ _ => h.tracks rfl rfl, fun _ => (h.stand rfl).1, nofun, h.own⟩, rfl, nofun,
      .refl _⟩
  | set =>
    exact ⟨⟨h.role, fun _ _ => h.tracks rfl rfl, fun _ => trivial, nofun, h.own⟩, rfl, nofun,
      .refl _⟩
  | createNext | joinInit | joinNext =>
    exact ⟨⟨h.role, nofun, fun _ => trivial, nofun, h.own⟩, rfl, fun _ => ⟨rfl, rfl, rfl⟩, .refl _⟩
  | fetch =>
    refine ⟨⟨h.role, nofun, fun _ => trivial, nofun, ?_⟩, rfl, fun _ => ⟨rfl, rfl, rfl⟩, .refl _⟩
    have ho := h.own
    simpa only [fetch_own, inFlight] using ho

theorem outline_valid (v : Version) (worker : ℕ → ι) (role : ι → Role φ) :
    (outline v role).Valid (code v worker) where
  lock := by
    intro p q hc
    rcases p with p | p | p | p <;> cases p <;> cases hc
    · exact ⟨rfl, rfl, fun h hi => h.goto rfl (fun _ => hi) trivial rfl⟩
    · exact ⟨rfl, rfl, fun h hi => h.goto rfl (fun _ => hi) (h.stand rfl) rfl⟩
    · exact ⟨rfl, rfl, fun h hi => h.goto rfl (fun _ => hi) trivial rfl⟩
  unlock := by
    intro p q hc
    rcases p with p | p | p | p <;> cases p <;> cases hc
    all_goals exact ⟨rfl, rfl, fun h => ⟨h.tracks rfl rfl, h.goto rfl nofun trivial rfl⟩⟩
  wait := by
    intro p k q hc
    rcases p with p | p | p | p <;> cases p <;> cases hc
    exact ⟨rfl, rfl, fun h => ⟨h.tracks rfl rfl, h.role, nofun, nofun, nofun, h.own⟩⟩
  woken h := ⟨h.role, nofun, nofun, nofun, h.own⟩
  resume := by
    intro p k q hc i l s h hi
    rcases p with p | p | p | p <;> cases p <;> cases hc
    exact ⟨h.role, fun _ _ => hi, fun _ => trivial, nofun, h.own⟩
  signal := by
    intro p k q hc
    rcases p with p | p | p | p <;> cases p <;> cases hc
    exact ⟨rfl, fun h => h.goto rfl (fun _ => h.tracks rfl rfl) (h.stand rfl) rfl⟩
  broadcast := by
    intro p k q hc
    rcases p with p | p | p | p <;> cases p <;> cases hc
    exact ⟨rfl, fun h => h.goto rfl (fun _ => h.tracks rfl rfl) trivial rfl⟩
  branch := by
    intro p test yes no hc
    rcases p with p | p | p | p <;> cases p <;> cases hc
    all_goals refine ⟨rfl, rfl, fun h => ?_⟩
    · exact ⟨fun hb => h.goto rfl (fun _ => h.tracks rfl rfl) hb rfl,
        fun hb => h.goto rfl (fun _ => h.tracks rfl rfl) hb rfl⟩
    · exact ⟨fun hb => h.goto rfl (fun _ => h.tracks rfl rfl) hb rfl,
        fun hb => h.goto rfl (fun _ => h.tracks rfl rfl) (v.takes _ _ (h.stand rfl) hb) rfl⟩
    · exact ⟨fun hb => h.goto rfl (fun _ => h.tracks rfl rfl)
          ⟨h.stand rfl, of_decide_eq_true hb⟩ rfl,
        fun hb => h.goto rfl (fun _ => h.tracks rfl rfl)
          ⟨h.stand rfl, of_decide_eq_false hb⟩ rfl⟩
    · exact ⟨fun _ => h.goto rfl nofun trivial rfl, fun _ => h.goto rfl nofun trivial rfl⟩
    · exact ⟨fun _ => h.goto rfl nofun trivial rfl, fun _ => h.goto rfl nofun trivial rfl⟩
    · exact ⟨fun hb => h.goto rfl nofun hb rfl, fun _ => h.goto rfl nofun trivial rfl⟩
    · exact ⟨fun _ => h.goto rfl nofun trivial rfl, fun _ => h.goto rfl nofun trivial rfl⟩
    · exact ⟨fun _ => h.goto rfl nofun trivial rfl, fun _ => h.goto rfl nofun trivial rfl⟩
  act := by
    intro p f q hc
    have hpq : holds p = holds q := by
      rcases p with p | p | p | p <;> cases p <;> cases hc <;> rfl
    refine ⟨hpq, fun hf h => ?_⟩
    obtain ⟨hq, -, hkeep, -⟩ := h.statement (statement_of_act hc hf)
    refine ⟨hq, fun hp hi => ?_⟩
    obtain ⟨hqueue, hlog, -⟩ := hkeep hp
    show Tracks _ _ _
    rw [hqueue, hlog]
    exact hi
  apart := by
    intro p f q hc i j l s x s' l' t hf _ hi hj hexcl
    obtain ⟨-, -, hkeep, hgrow⟩ := hi.statement (statement_of_act hc hf)
    cases hp : holds p with
    | true =>
      exact hj.stable (fun hm => Bool.eq_false_iff.mpr fun hh => hexcl hp ⟨hm, hh⟩) hgrow
    | false =>
      obtain ⟨hqueue, hlog, hshut⟩ := hkeep hp
      exact hj.frame hqueue hlog hshut
  create := by
    intro p child q r hc
    rcases p with p | p | p | p <;> cases p <;> cases hc
    exact ⟨rfl, rfl, fun h => ⟨h.goto rfl nofun trivial rfl, h.goto rfl nofun trivial rfl⟩⟩
  start := by
    intro i p l s h
    obtain rfl : p = .startThread .lock := h.idle rfl
    exact ⟨rfl, h.role, nofun, fun _ => trivial, nofun, h.own⟩
  join := by
    intro p child q hc
    rcases p with p | p | p | p <;> cases p <;> cases hc
    exact ⟨rfl, fun h => h.goto rfl nofun trivial rfl⟩
  ret := by
    intro p hc
    rcases p with p | p | p | p <;> cases p <;> cases hc
    all_goals exact ⟨rfl, fun h => ⟨h.role, nofun, nofun, nofun, h.own⟩⟩

theorem tracks_initial (taskQueue : ℕ → TaskTypeDef φ) :
    Tracks TaskQueue.fifo (initial taskQueue).log (initial taskQueue).queue :=
  ⟨⟨le_refl _, Int.natCast_nonneg _⟩, .nil⟩

variable {worker : ℕ → ι} {role : ι → Role φ} {c d : State ι φ}

theorem outline_initial (v : Version) (worker : ℕ → ι) (h : Init role c) :
    (outline v role).Sat (code v worker) c := by
  obtain ⟨hf, ⟨taskQueue, hs⟩, ht⟩ := h
  have hno (i : ι) : holds (role i).start.pc = false := by cases role i <;> rfl
  refine .of_initial hf ?_ (fun i => ?_) (fun i => ?_)
  · rw [hs]
    exact tracks_initial taskQueue
  · rw [ht]
    cases hr : role i with
    | worker created =>
      cases created
      · exact .inl rfl
      · exact .inr ⟨rfl, rfl⟩
    | caller size calls => exact .inr ⟨rfl, rfl⟩
  · rw [ht, hs]
    refine ⟨?_, fun _ hh => ?_, fun _ => ?_, fun hm => ?_, ?_⟩
    · cases role i <;> rfl
    · rw [hno i] at hh
      cases hh
    · cases role i <;> exact trivial
    · cases hr : role i with
      | worker created => rfl
      | caller size calls => rw [hr] at hm; cases hm
    · cases role i <;> exact .refl _

variable [DecidableEq ι]

theorem pool_sat (h : Reachable (pool v worker role) c) : (outline v role).Sat (code v worker) c :=
  (outline_valid v worker role).sound (fun _ => outline_initial v worker) h

theorem pool_tracks (h : Reachable (pool v worker role) c) :
    Tracks TaskQueue.fifo c.shared.log c.shared.queue := by
  apply (pool_sat h).always (I := fun s => Tracks TaskQueue.fifo s.log s.queue)
  · intro s hs
    exact hs
  · intro i t s ht hholding
    exact ht.tracks hholding.1 hholding.2

end EmbeddedLinuxTraining.ThreadPool
