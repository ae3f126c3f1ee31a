import Mathlib.Data.Fintype.Card
import EmbeddedLinuxTraining.Library.Pthread

/-!
The threads of lab22_thread_mutex.c, lab23_thread_spinlock.c and lab24_thread_atomic.c: one loop around
different bodies. A spinlock is a mutex here: it is taken in the one step that finds it free.
-/

namespace EmbeddedLinuxTraining.Counter

open Library Library.Pthread Library.Transition
open Library.Pthread.Config

inductive Op
  | lock | unlock | increment | fetchAdd
  deriving DecidableEq

/-- At `body ops` the operations `ops` of the iteration are still to come; at `store ops` the load of
`counter++` is done and `ops` come after its store. -/
inductive Point
  | init
  | test
  | body (ops : List Op)
  | store (ops : List Op)
  | done
  deriving DecidableEq

structure Shared where
  counter : Int32

/-- `loaded` is the value `counter++` has read. `completed` is history: the increments of the thread that
have reached the counter. -/
structure Locals where
  i : Int32
  loaded : Int32
  completed : ℕ

def clearI (s : Shared) (l : Locals) : Shared × Locals := (s, { l with i := 0 })

def raiseI (s : Shared) (l : Locals) : Shared × Locals := (s, { l with i := l.i + 1 })

def loadCounter (s : Shared) (l : Locals) : Shared × Locals := (s, { l with loaded := s.counter })

def storeCounter (_ : Shared) (l : Locals) : Shared × Locals :=
  (⟨l.loaded + 1⟩, { l with completed := l.completed + 1 })

def atomicFetchAdd (s : Shared) (l : Locals) : Shared × Locals :=
  (⟨s.counter + 1⟩, { l with completed := l.completed + 1 })

abbrev Code (ι : Type) := Instr ι Shared Locals Empty Unit Point

abbrev Cfg (ι : Type) := Config ι Shared Locals Empty Point

variable {ι : Type}

def runOp : Op → List Op → Code ι
  | .lock, ops => .lock (.body ops)
  | .unlock, ops => .unlock (.body ops)
  | .increment, ops => .run loadCounter (.store ops)
  | .fetchAdd, ops => .run atomicFetchAdd (.body ops)

def incrementCounter (K : ℕ) (body : List Op) : Point → Code ι
  | .init => .run clearI .test
  | .test => .branch (fun _ l => l.i.toInt < K) (.body body) .done
  | .body (op :: ops) => runOp op ops
  | .body [] => .run raiseI .test
  | .store ops => .run storeCounter (.body ops)
  | .done => .ret

def lab22Body : List Op := [.lock, .increment, .unlock]

/-- The call of `pthread_spin_unlock` is commented out. -/
def lab23Body : List Op := [.lock, .increment]

def lab24Body : List Op := [.fetchAdd]

def NUM_THREADS : ℕ := 100

def NUM_ITERATIONS : ℕ := 1000

def Start (c : Cfg ι) : Prop :=
  c.shared.counter = 0 ∧ c.owner = none ∧
    ∀ i, (c.thread i).pc = .init ∧ (c.thread i).mode = .running ∧ (c.thread i).loc.completed = 0

def launched : Cfg ι := ⟨⟨0⟩, none, fun _ => ⟨.init, ⟨0, 0, 0⟩, .running⟩⟩

theorem launched_start : Start (launched : Cfg ι) := ⟨rfl, rfl, fun _ => ⟨rfl, rfl, rfl⟩⟩

def Final (c : Cfg ι) : Prop := ∀ i, (c.thread i).mode = .returned

variable [DecidableEq ι]

def threads (ι : Type) [DecidableEq ι] (K : ℕ) (body : List Op) : System (Cfg ι) (Label ι Unit) :=
  system (incrementCounter K body) Start

abbrev lab22 (ι : Type) [DecidableEq ι] (K : ℕ) : System (Cfg ι) (Label ι Unit) := threads ι K lab22Body

abbrev lab23 (ι : Type) [DecidableEq ι] (K : ℕ) : System (Cfg ι) (Label ι Unit) := threads ι K lab23Body

abbrev lab24 (ι : Type) [DecidableEq ι] (K : ℕ) : System (Cfg ι) (Label ι Unit) := threads ι K lab24Body

inductive Move (K : ℕ) (body : List Op) (c : Cfg ι) (i : ι) : Cfg ι → Prop
  | init {l} : c.At i .init l → Move K body c i (c.goto i .test { l with i := 0 })
  | enter {l} : c.At i .test l → l.i.toInt < K → Move K body c i (c.goto i (.body body) l)
  | leave {l} : c.At i .test l → (K : ℤ) ≤ l.i.toInt → Move K body c i (c.goto i .done l)
  | lock {l ops} : c.At i (.body (.lock :: ops)) l → c.owner = none →
      Move K body c i { c.goto i (.body ops) l with owner := some i }
  | unlock {l ops} : c.At i (.body (.unlock :: ops)) l → c.owner = some i →
      Move K body c i { c.goto i (.body ops) l with owner := none }
  | load {l ops} : c.At i (.body (.increment :: ops)) l →
      Move K body c i (c.goto i (.store ops) { l with loaded := c.shared.counter })
  | store {l ops} : c.At i (.store ops) l →
      Move K body c i { c.goto i (.body ops) { l with completed := l.completed + 1 } with
        shared := ⟨l.loaded + 1⟩ }
  | fetchAdd {l ops} : c.At i (.body (.fetchAdd :: ops)) l →
      Move K body c i { c.goto i (.body ops) { l with completed := l.completed + 1 } with
        shared := ⟨c.shared.counter + 1⟩ }
  | next {l} : c.At i (.body []) l → Move K body c i (c.goto i .test { l with i := l.i + 1 })
  | ret {l} : c.At i .done l → Move K body c i (c.move i ⟨.done, l, .returned⟩)

variable {K : ℕ} {body : List Op} {c d : Cfg ι} {a : Label ι Unit}

theorem Move.of_effect {i : ι} {p : Point} {l : Locals} (hi : c.At i p l)
    (h : Effect c i l d (incrementCounter K body p)) : Move K body c i d := by
  cases p with
  | init =>
    obtain ⟨_, _, _, hf, rfl⟩ := h
    cases hf
    exact .init hi
  | test =>
    by_cases hK : l.i.toInt < K
    · rw [show d = c.goto i (.body body) l by simpa [incrementCounter, Effect, hK] using h]
      exact .enter hi hK
    · rw [show d = c.goto i .done l by simpa [incrementCounter, Effect, hK] using h]
      exact .leave hi (Int.not_lt.mp hK)
  | body ops =>
    cases ops with
    | nil =>
      obtain ⟨_, _, _, hf, rfl⟩ := h
      cases hf
      exact .next hi
    | cons op ops =>
      cases op with
      | lock =>
        obtain ⟨ho, rfl⟩ := h
        exact .lock hi ho
      | unlock =>
        obtain ⟨ho, rfl⟩ := h
        exact .unlock hi ho
      | increment =>
        obtain ⟨_, _, _, hf, rfl⟩ := h
        cases hf
        exact .load hi
      | fetchAdd =>
        obtain ⟨_, _, _, hf, rfl⟩ := h
        cases hf
        exact .fetchAdd hi
  | store ops =>
    obtain ⟨_, _, _, hf, rfl⟩ := h
    cases hf
    exact .store hi
  | done =>
    obtain ⟨p, hp, rfl⟩ := h
    obtain ⟨rfl, -⟩ := hi.unique hp
    exact .ret hi

theorem Move.of_step (h : Step (incrementCounter K body) c a d)
    (hr : ∀ i, (c.thread i).mode ≠ .woken) : Move K body c a.actor d := by
  have running {i : ι} {p : Point} {l : Locals} (ha : a.actor = i) (hi : c.At i p l) :
      Move K body c a.actor d := by
    subst ha
    exact .of_effect hi (h.effect hi)
  cases h with
  | lock hi | unlock hi | wait hi | signal_one hi | signal_none hi | broadcast hi | branch hi | act hi
  | create hi | create_fail hi | join hi | ret hi => exact running rfl hi
  | spurious => contradiction
  | @resume i _ _ hi =>
    apply absurd _ (hr i)
    rw [hi]

theorem Move.other {i j : ι} (h : Move K body c i d) (hj : j ≠ i) : d.thread j = c.thread j := by
  cases h <;> exact move_other _ _ hj

theorem can_step {i : ι} {p : Point} {l : Locals} (hi : c.At i p l)
    (hl : ∀ ops, p = .body (.lock :: ops) → c.owner = none)
    (hu : ∀ ops, p = .body (.unlock :: ops) → c.owner = some i) :
    ∃ a d, Step (incrementCounter K body) c a d := by
  cases p with
  | init => exact ⟨_, _, .act (x := ()) hi rfl rfl⟩
  | test => exact ⟨_, _, .branch hi rfl⟩
  | body ops =>
    cases ops with
    | nil => exact ⟨_, _, .act (x := ()) hi rfl rfl⟩
    | cons op ops =>
      cases op with
      | lock => exact ⟨_, _, .lock hi rfl (hl ops rfl)⟩
      | unlock => exact ⟨_, _, .unlock hi rfl (hu ops rfl)⟩
      | increment => exact ⟨_, _, .act (x := ()) hi rfl rfl⟩
      | fetchAdd => exact ⟨_, _, .act (x := ()) hi rfl rfl⟩
  | store ops => exact ⟨_, _, .act (x := ()) hi rfl rfl⟩
  | done => exact ⟨_, _, .ret hi rfl⟩

end EmbeddedLinuxTraining.Counter
