import EmbeddedLinuxTraining.Library.Pthread
import EmbeddedLinuxTraining.ThreadPool.TaskQueue

/-!
The two versions of lab35_threadpool.c. `startThread` is the worker, `main` creates the
workers, makes a list of calls to `submitTask` and `shutdownThreadPool` and joins the
workers; a `main` that creates no worker stands for any other thread that makes calls.
-/

namespace EmbeddedLinuxTraining.ThreadPool

open Library.BoundedFifo Library.Pthread Library.Transition

variable {ι φ : Type}

inductive Cond
  | cond
  deriving DecidableEq

/-- The last four fields are history: the operations on the queue, the tasks that found it
full, those handed to `executeTask` and the functions it has called. -/
structure Shared (φ : Type) where
  queue : TaskQueue φ
  shutdown : Bool
  log : List (Op (TaskTypeDef φ))
  rejected : List (TaskTypeDef φ)
  handed : List (TaskTypeDef φ)
  executed : List φ

inductive Call (φ : Type)
  | submitTask (task : TaskTypeDef φ)
  | shutdownThreadPool

/-- `size` is the number of workers to create, `i` the loop counter; `own` is history: what
this worker has handed to `executeTask`. -/
structure Locals (φ : Type) where
  size : ℕ
  i : ℕ
  calls : List (Call φ)
  task : Option (TaskTypeDef φ)
  own : List (TaskTypeDef φ)

inductive WorkerPoint
  | lock | test | wait | check | leave | take | unlock | execute | exit
  deriving DecidableEq

inductive SubmitPoint
  | lock | test | store | signal | full | unlock
  deriving DecidableEq

inductive ShutdownPoint
  | lock | set | broadcast | unlock
  deriving DecidableEq

inductive MainPoint
  | createTest | create | createNext | call | fetch | dispatch | joinInit | joinTest | join
  | joinNext | finished | failed
  deriving DecidableEq

inductive Point
  | startThread (p : WorkerPoint)
  | submitTask (p : SubmitPoint)
  | shutdownThreadPool (p : ShutdownPoint)
  | main (p : MainPoint)
  deriving DecidableEq

abbrev Code (ι φ : Type) := Instr ι (Shared φ) (Locals φ) Cond Unit Point

structure Version where
  waits : ℤ → Bool → Bool
  exits : ℤ → Bool → Bool
  takes : ∀ n b, waits n b = false → exits n b = false → n ≠ 0

def seance6 : Version where
  waits taskCount shutdown := taskCount == 0 && !shutdown
  exits taskCount shutdown := taskCount == 0 && shutdown
  takes n b := by cases b <;> simp

/-- thread/lab35_threadpool.c, where workers never leave. -/
def thread : Version where
  waits taskCount _ := taskCount == 0
  exits _ _ := false
  takes n b := by simp

def takeTask (s : Shared φ) (l : Locals φ) : Shared φ × Locals φ :=
  let (task, queue) := s.queue.removeFirst
  ({ s with queue := queue, log := s.log ++ [.get task] }, { l with task := some task })

def executeTask (task : TaskTypeDef φ) (s : Shared φ) : Shared φ :=
  { s with handed := s.handed ++ [task], executed := s.executed ++ task.function.toList }

def runTask (s : Shared φ) (l : Locals φ) : Shared φ × Locals φ :=
  match l.task with
  | some task => (executeTask task s, { l with own := l.own ++ [task] })
  | none => (s, l)

def startThread (v : Version) : WorkerPoint → Code ι φ
  | .lock => .lock (.startThread .test)
  | .test => .branch (fun s _ => v.waits s.queue.taskCount s.shutdown)
      (.startThread .wait) (.startThread .check)
  | .wait => .wait .cond (.startThread .test)
  | .check => .branch (fun s _ => v.exits s.queue.taskCount s.shutdown)
      (.startThread .leave) (.startThread .take)
  | .leave => .unlock (.startThread .exit)
  | .take => .run takeTask (.startThread .unlock)
  | .unlock => .unlock (.startThread .execute)
  | .execute => .run runTask (.startThread .lock)
  | .exit => .ret

def store (s : Shared φ) (l : Locals φ) : Shared φ × Locals φ :=
  match l.task with
  | some task => ({ s with queue := s.queue.append task, log := s.log ++ [.put task] }, l)
  | none => (s, l)

def printFull (s : Shared φ) (l : Locals φ) : Shared φ × Locals φ :=
  ({ s with rejected := s.rejected ++ l.task.toList }, l)

def submitTask : SubmitPoint → Code ι φ
  | .lock => .lock (.submitTask .test)
  | .test => .branch (fun s _ => decide (s.queue.taskCount < QUEUE_SIZE))
      (.submitTask .store) (.submitTask .full)
  | .store => .run store (.submitTask .signal)
  | .signal => .signal .cond (.submitTask .unlock)
  | .full => .run printFull (.submitTask .unlock)
  | .unlock => .unlock (.main .call)

def shutdownThreadPool : ShutdownPoint → Code ι φ
  | .lock => .lock (.shutdownThreadPool .set)
  | .set => .run (fun s l => ({ s with shutdown := true }, l)) (.shutdownThreadPool .broadcast)
  | .broadcast => .broadcast .cond (.shutdownThreadPool .unlock)
  | .unlock => .unlock (.main .call)

def fetch (l : Locals φ) : Locals φ :=
  match l.calls with
  | .submitTask task :: calls => { l with task := some task, calls := calls }
  | .shutdownThreadPool :: calls => { l with task := none, calls := calls }
  | [] => { l with task := none }

def main (worker : ℕ → ι) : MainPoint → Code ι φ
  | .createTest => .branch (fun _ l => decide (l.i < l.size)) (.main .create) (.main .call)
  | .create => .create (fun l => worker l.i) (.main .createNext) (.main .failed)
  | .createNext => .run (fun s l => (s, { l with i := l.i + 1 })) (.main .createTest)
  | .call => .branch (fun _ l => l.calls.isEmpty) (.main .joinInit) (.main .fetch)
  | .fetch => .run (fun s l => (s, fetch l)) (.main .dispatch)
  | .dispatch => .branch (fun _ l => l.task.isSome) (.submitTask .lock) (.shutdownThreadPool .lock)
  | .joinInit => .run (fun s l => (s, { l with i := 0 })) (.main .joinTest)
  | .joinTest => .branch (fun _ l => decide (l.i < l.size)) (.main .join) (.main .finished)
  | .join => .join (fun l => worker l.i) (.main .joinNext)
  | .joinNext => .run (fun s l => (s, { l with i := l.i + 1 })) (.main .joinTest)
  | .finished => .branch (fun _ _ => true) (.main .finished) (.main .finished)
  | .failed => .ret

def code (v : Version) (worker : ℕ → ι) : Point → Code ι φ
  | .startThread p => startThread v p
  | .submitTask p => submitTask p
  | .shutdownThreadPool p => shutdownThreadPool p
  | .main p => main worker p

inductive Statement (s : Shared φ) (l : Locals φ) :
    Point → Point → Shared φ → Locals φ → Prop
  | take : Statement s l (.startThread .take) (.startThread .unlock) (takeTask s l).1 (takeTask s l).2
  | execute : Statement s l (.startThread .execute) (.startThread .lock) (runTask s l).1 (runTask s l).2
  | store : Statement s l (.submitTask .store) (.submitTask .signal) (store s l).1 (store s l).2
  | full : Statement s l (.submitTask .full) (.submitTask .unlock) (printFull s l).1 (printFull s l).2
  | set : Statement s l (.shutdownThreadPool .set) (.shutdownThreadPool .broadcast)
      { s with shutdown := true } l
  | createNext : Statement s l (.main .createNext) (.main .createTest) s { l with i := l.i + 1 }
  | fetch : Statement s l (.main .fetch) (.main .dispatch) s (fetch l)
  | joinInit : Statement s l (.main .joinInit) (.main .joinTest) s { l with i := 0 }
  | joinNext : Statement s l (.main .joinNext) (.main .joinTest) s { l with i := l.i + 1 }

theorem store_some {s : Shared φ} {l : Locals φ} {task : TaskTypeDef φ} (h : l.task = some task) :
    store s l = ({ s with queue := s.queue.append task, log := s.log ++ [.put task] }, l) := by
  simp only [store, h]

theorem runTask_some {s : Shared φ} {l : Locals φ} {task : TaskTypeDef φ} (h : l.task = some task) :
    runTask s l = (executeTask task s, { l with own := l.own ++ [task] }) := by
  simp only [runTask, h]

theorem runTask_none {s : Shared φ} {l : Locals φ} (h : l.task = none) : runTask s l = (s, l) := by
  simp only [runTask, h]

theorem fetch_own (l : Locals φ) : (fetch l).own = l.own := by
  unfold fetch
  split <;> rfl

theorem statement_of_act {v : Version} {worker : ℕ → ι} {p q : Point} {x : Unit}
    {f : Unit → Shared φ → Locals φ → Option (Shared φ × Locals φ)} {s s' : Shared φ}
    {l l' : Locals φ} (hc : code v worker p = .act f q) (hf : f x s l = some (s', l')) :
    Statement s l p q s' l' := by
  rcases p with p | p | p | p <;> cases p <;> cases hc
  all_goals
    obtain rfl := congrArg Prod.fst (Option.some.inj hf)
    obtain rfl := congrArg Prod.snd (Option.some.inj hf)
  · exact .take
  · exact .execute
  · exact .store
  · exact .full
  · exact .set
  · exact .createNext
  · exact .fetch
  · exact .joinInit
  · exact .joinNext

abbrev State (ι φ : Type) := Config ι (Shared φ) (Locals φ) Cond Point

theorem step_cases [DecidableEq ι] {v : Version} {worker : ℕ → ι} {c d : State ι φ} {a : Label ι Unit}
    (h : Step (code v worker) c a d) :
    (∃ p l q l', c.At a.actor p l ∧ Statement c.shared l p q d.shared l' ∧ d.At a.actor q l') ∨
    (d.shared = c.shared ∧ (d.thread a.actor).loc = (c.thread a.actor).loc ∧
      ((d.thread a.actor).pc = (c.thread a.actor).pc ∨
        ∃ p l, c.At a.actor p l ∧
          (code v worker p : Code ι φ).Target c.shared l (d.thread a.actor).pc)) := by
  refine h.actor_cases.imp_left ?_
  rintro ⟨p, l, f, q, x, l', hi, hc, hf, hd⟩
  exact ⟨p, l, q, l', hi, statement_of_act hc hf, hd⟩

def initial (taskQueue : ℕ → TaskTypeDef φ) : Shared φ where
  queue := { taskQueue := taskQueue, taskCount := 0 }
  shutdown := false
  log := []
  rejected := []
  handed := []
  executed := []

def Locals.fresh : Locals φ where
  size := 0
  i := 0
  calls := []
  task := none
  own := []

def Point.isWorker : Point → Bool
  | .startThread _ => true
  | _ => false

inductive Role (φ : Type)
  | worker (created : Bool)
  | caller (size : ℕ) (calls : List (Call φ))

def Role.isWorker : Role φ → Bool
  | .worker _ => true
  | .caller _ _ => false

def Role.start : Role φ → Thread (Locals φ) Cond Point
  | .worker created => ⟨.startThread .lock, .fresh, if created then .running else .idle⟩
  | .caller size calls => ⟨.main .createTest, { Locals.fresh with size := size, calls := calls }, .running⟩

def Init (role : ι → Role φ) (c : State ι φ) : Prop :=
  c.owner = none ∧ (∃ taskQueue, c.shared = initial taskQueue) ∧
    ∀ i, c.thread i = (role i).start

def pool [DecidableEq ι] (v : Version) (worker : ℕ → ι) (role : ι → Role φ) :
    System (State ι φ) (Label ι Unit) :=
  system (code v worker) (Init role)

end EmbeddedLinuxTraining.ThreadPool
