import EmbeddedLinuxTraining.Library.Heap
import EmbeddedLinuxTraining.Library.Pthread

/-!
The build of racecrash.c with USE_LOCK_ON_READ: threads that push samples into the store and threads
that take statistics of it. Every read and write of the store is a step of its own.
-/

namespace EmbeddedLinuxTraining.RaceCrash

open Library Library.Pthread Library.Transition

structure Arithmetic (D : Type) where
  zero : D
  add : D → D → D
  div : D → D → D
  ofCount : ℕ → D

structure Stats (D : Type) where
  avg : D
  count : ℕ

/-- `data`, `count` and `capacity` are `g_store`. A load or a store that misses the live blocks is a
`fault`. The last two fields are history: the samples counted, and what the calls of
`store_stats_safe` return, both in the order of the lock. -/
structure Shared (D : Type) where
  gRunning : Bool
  heap : Heap D
  data : Pointer
  count : ℕ
  capacity : ℕ
  fault : Bool
  pushed : List D
  reports : List (Stats D)

structure Locals (D : Type) where
  value : D
  grown : Pointer
  st : Stats D
  d : Pointer
  sum : D
  i : ℕ

inductive Input (D : Type)
  | sample (value : D)
  | block (p : Pointer)
  | nothing

inductive PushPoint
  | top | sample | lock | test | capacity | realloc | data | element | count | unlock | stop
  deriving DecidableEq

inductive StatsPoint
  | top | lock | count | data | sum | test | body | average | unlock | stop
  deriving DecidableEq

inductive MainPoint
  | clear | done
  deriving DecidableEq

inductive Point
  | producer (p : PushPoint)
  | monitor (p : StatsPoint)
  | main (p : MainPoint)
  deriving DecidableEq

def INITIAL_CAP : ℕ := 4

def GROWTH_CHUNK : ℕ := 64

section

variable {D : Type}

def storeInit (heap : Heap D) (a : ℕ) : Option (Shared D) :=
  (heap.allocate INITIAL_CAP a).map fun heap => ⟨true, heap, some a, 0, INITIAL_CAP, false, [], []⟩

/-- `capacity` samples have been allocated, so that the sum does not exceed a `size_t`. -/
def raiseCapacity (s : Shared D) (l : Locals D) : Shared D × Locals D :=
  ({ s with capacity := s.capacity + GROWTH_CHUNK }, l)

/-- Where memory is `scarce` it may also fail, and leaves the block alone. -/
def reallocData (scarce : Bool) (x : Input D) (s : Shared D) (l : Locals D) : Option (Shared D × Locals D) :=
  match x with
  | .block none => if scarce then some (s, { l with grown := none }) else none
  | .block (some a) =>
    match s.data.bind s.heap with
    | none => some ({ s with fault := true }, l)
    | some _ => (s.heap.reallocate s.data s.capacity a).map fun heap =>
      ({ s with heap := heap }, { l with grown := some a })
  | _ => none

def setData (s : Shared D) (l : Locals D) : Shared D × Locals D := ({ s with data := l.grown }, l)

def storeElement (s : Shared D) (l : Locals D) : Shared D × Locals D :=
  match s.heap.store s.data s.count l.value with
  | some heap => ({ s with heap := heap }, l)
  | none => ({ s with fault := true }, l)

def raiseCount (s : Shared D) (l : Locals D) : Shared D × Locals D :=
  ({ s with count := s.count + 1, pushed := s.pushed ++ [l.value] }, l)

def readCount (s : Shared D) (l : Locals D) : Shared D × Locals D :=
  (s, { l with st := { l.st with count := s.count } })

def readData (s : Shared D) (l : Locals D) : Shared D × Locals D := (s, { l with d := s.data })

variable (arith : Arithmetic D)

def startSum (s : Shared D) (l : Locals D) : Shared D × Locals D := (s, { l with sum := arith.zero, i := 0 })

def addElement (s : Shared D) (l : Locals D) : Shared D × Locals D :=
  match s.heap.load l.d l.i with
  | some v => (s, { l with sum := arith.add l.sum v, i := l.i + 1 })
  | none => ({ s with fault := true }, l)

def setAverage (s : Shared D) (l : Locals D) : Shared D × Locals D :=
  let avg := if l.st.count = 0 then arith.zero else arith.div l.sum (arith.ofCount l.st.count)
  ({ s with reports := s.reports ++ [{ l.st with avg := avg }] }, { l with st := { l.st with avg := avg } })

abbrev Code (ι D : Type) := Instr ι (Shared D) (Locals D) Empty (Input D) Point

def draw (x : Input D) (s : Shared D) (l : Locals D) : Option (Shared D × Locals D) :=
  match x with
  | .sample value => some (s, { l with value := value })
  | _ => none

variable {ι : Type}

def producerMain (scarce : Bool) : PushPoint → Code ι D
  | .top => .branch (fun s _ => s.gRunning) (.producer .sample) (.producer .stop)
  | .sample => .act draw (.producer .lock)
  | .lock => .lock (.producer .test)
  | .test => .branch (fun s _ => s.count == s.capacity) (.producer .capacity) (.producer .element)
  | .capacity => .run raiseCapacity (.producer .realloc)
  | .realloc => .act (reallocData scarce) (.producer .data)
  | .data => .run setData (.producer .element)
  | .element => .run storeElement (.producer .count)
  | .count => .run raiseCount (.producer .unlock)
  | .unlock => .unlock (.producer .top)
  | .stop => .ret

def monitorMain : StatsPoint → Code ι D
  | .top => .branch (fun s _ => s.gRunning) (.monitor .lock) (.monitor .stop)
  | .lock => .lock (.monitor .count)
  | .count => .run readCount (.monitor .data)
  | .data => .run readData (.monitor .sum)
  | .sum => .run (startSum arith) (.monitor .test)
  | .test => .branch (fun _ l => decide (l.i < l.st.count)) (.monitor .body) (.monitor .average)
  | .body => .run (addElement arith) (.monitor .test)
  | .average => .run (setAverage arith) (.monitor .unlock)
  | .unlock => .unlock (.monitor .top)
  | .stop => .ret

def mainThread : MainPoint → Code ι D
  | .clear => .run (fun s l => ({ s with gRunning := false }, l)) (.main .done)
  | .done => .ret

def code (scarce : Bool) : Point → Code ι D
  | .producer p => producerMain scarce p
  | .monitor p => monitorMain arith p
  | .main p => mainThread p

end

abbrev State (ι D : Type) := Config ι (Shared D) (Locals D) Empty Point

inductive Role
  | producer | monitor | main
  deriving DecidableEq

def Role.start : Role → Point
  | .producer => .producer .top
  | .monitor => .monitor .top
  | .main => .main .clear

variable {ι D : Type}

def Init (role : ι → Role) (c : State ι D) : Prop :=
  c.owner = none ∧ (∃ heap a, storeInit heap a = some c.shared) ∧
    ∀ i, ∃ l, c.thread i = ⟨(role i).start, l, .running⟩

def program [DecidableEq ι] (arith : Arithmetic D) (scarce : Bool) (role : ι → Role) :
    System (State ι D) (Label ι (Input D)) :=
  system (code arith scarce) (Init role)

end EmbeddedLinuxTraining.RaceCrash
