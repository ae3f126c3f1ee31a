import EmbeddedLinuxTraining.Library.BoundedFifo
import EmbeddedLinuxTraining.Library.Pthread

/-!
The threads that lab_multithreading_debug.c and producer_consumer2.c have in common, for
any buffer between producers and consumers.
-/

namespace EmbeddedLinuxTraining.ProducerConsumer

open Library.BoundedFifo Library.Pthread Library.Transition

variable {ι β : Type}

/-- `notFull` is `cond_not_full` or `cond_txe`, `notEmpty` is `cond_not_empty` or `cond_rxne`. -/
inductive Cond
  | notFull | notEmpty
  deriving DecidableEq

/-- `log` is history: the operations on the buffer. -/
structure Shared (β : Type) where
  gRunning : Bool
  buffer : β
  log : List (Op Int32)

structure Locals where
  item : Int32
  tick : Int32

inductive Stage
  | top | lock | test | wait | check | leave | body | signal | unlock | rest | stop
  deriving DecidableEq

inductive Side
  | producer | consumer
  deriving DecidableEq

inductive PeriodicPoint
  | top | print | stop
  deriving DecidableEq

inductive HandlerPoint
  | clear | notFull | notEmpty | done
  deriving DecidableEq

inductive Point
  | thread (side : Side) (p : Stage)
  | periodic (p : PeriodicPoint)
  | handler (p : HandlerPoint)
  deriving DecidableEq

abbrev Code (ι β : Type) := Instr ι (Shared β) Locals Cond Unit Point

def loop (side : Side) (busy : β → Bool) (own peer : Cond)
    (body : Shared β → Locals → Shared β × Locals) (rest : Locals → Locals) : Stage → Code ι β
  | .top => .branch (fun s _ => s.gRunning) (.thread side .lock) (.thread side .stop)
  | .lock => .lock (.thread side .test)
  | .test => .branch (fun s _ => busy s.buffer && s.gRunning) (.thread side .wait) (.thread side .check)
  | .wait => .wait own (.thread side .test)
  | .check => .branch (fun s _ => !s.gRunning) (.thread side .leave) (.thread side .body)
  | .leave => .unlock (.thread side .stop)
  | .body => .run body (.thread side .signal)
  | .signal => .signal peer (.thread side .unlock)
  | .unlock => .unlock (.thread side .rest)
  | .rest => .run (fun s l => (s, rest l)) (.thread side .top)
  | .stop => .ret

def produce (B : Buffer β Int32) (s : Shared β) (l : Locals) : Shared β × Locals :=
  ({ s with buffer := B.put l.item s.buffer, log := s.log ++ [.put l.item] }, l)

def consume (B : Buffer β Int32) (s : Shared β) (l : Locals) : Shared β × Locals :=
  let (item, buffer) := B.get s.buffer
  ({ s with buffer := buffer, log := s.log ++ [.get item] }, { l with item := item })

def producerThread (B : Buffer β Int32) : Stage → Code ι β :=
  loop .producer B.full .notFull .notEmpty (produce B) fun l => { l with item := l.item + 1 }

def consumerThread (B : Buffer β Int32) : Stage → Code ι β :=
  loop .consumer B.empty .notEmpty .notFull (consume B) fun l => l

def periodicThread : PeriodicPoint → Code ι β
  | .top => .branch (fun s _ => s.gRunning) (.periodic .print) (.periodic .stop)
  | .print => .run (fun s l => (s, { l with tick := l.tick + 1 })) (.periodic .top)
  | .stop => .ret

/-- Runs without the mutex, between any two steps of the threads. -/
def sigintHandler : HandlerPoint → Code ι β
  | .clear => .run (fun s l => ({ s with gRunning := false }, l)) (.handler .notFull)
  | .notFull => .broadcast .notFull (.handler .notEmpty)
  | .notEmpty => .broadcast .notEmpty (.handler .done)
  | .done => .ret

def code (B : Buffer β Int32) : Point → Code ι β
  | .thread .producer p => producerThread B p
  | .thread .consumer p => consumerThread B p
  | .periodic p => periodicThread p
  | .handler p => sigintHandler p

abbrev State (ι β : Type) := Config ι (Shared β) Locals Cond Point

inductive Role
  | producer | consumer | periodic | handler
  deriving DecidableEq

def Role.start : Role → Point
  | .producer => .thread .producer .top
  | .consumer => .thread .consumer .top
  | .periodic => .periodic .top
  | .handler => .handler .clear

def Init (buffer : β) (role : ι → Role) (c : State ι β) : Prop :=
  c.owner = none ∧ c.shared = ⟨true, buffer, []⟩ ∧
    ∀ i, c.thread i = ⟨(role i).start, ⟨0, 0⟩, .running⟩

def program [DecidableEq ι] (B : Buffer β Int32) (buffer : β) (role : ι → Role) :
    System (State ι β) (Label ι Unit) :=
  system (code B) (Init buffer role)

def Side.work (B : Buffer β Int32) : Side → Shared β → Locals → Shared β × Locals
  | .producer => produce B
  | .consumer => consume B

def Side.busy (B : Buffer β Int32) : Side → β → Bool
  | .producer => B.full
  | .consumer => B.empty

def Side.cond : Side → Cond
  | .producer => .notFull
  | .consumer => .notEmpty

def Side.rest : Side → Locals → Locals
  | .producer, l => { l with item := l.item + 1 }
  | .consumer, l => l

inductive Statement (B : Buffer β Int32) (s : Shared β) (l : Locals) :
    Point → Point → Shared β → Locals → Prop
  | body (side : Side) : Statement B s l (.thread side .body) (.thread side .signal)
      (side.work B s l).1 (side.work B s l).2
  | rest (side : Side) : Statement B s l (.thread side .rest) (.thread side .top) s (side.rest l)
  | print : Statement B s l (.periodic .print) (.periodic .top) s { l with tick := l.tick + 1 }
  | clear : Statement B s l (.handler .clear) (.handler .notFull) { s with gRunning := false } l

variable {B : Buffer β Int32}

theorem statement_of_act {p q : Point} {x : Unit}
    {f : Unit → Shared β → Locals → Option (Shared β × Locals)} {s s' : Shared β} {l l' : Locals}
    (hc : (code B p : Code ι β) = .act f q) (hf : f x s l = some (s', l')) :
    Statement B s l p q s' l' := by
  rcases p with ⟨side, p⟩ | p | p
  · cases side <;> cases p <;> cases hc
    all_goals
      obtain rfl := congrArg Prod.fst (Option.some.inj hf)
      obtain rfl := congrArg Prod.snd (Option.some.inj hf)
    · exact .body .producer
    · exact .rest .producer
    · exact .body .consumer
    · exact .rest .consumer
  · cases p <;> cases hc
    cases hf
    exact .print
  · cases p <;> cases hc
    cases hf
    exact .clear

theorem step_cases [DecidableEq ι] {c d : State ι β} {a : Label ι Unit} (h : Step (code B) c a d) :
    (∃ p l q l', c.At a.actor p l ∧ Statement B c.shared l p q d.shared l' ∧ d.At a.actor q l') ∨
    (d.shared = c.shared ∧ (d.thread a.actor).loc = (c.thread a.actor).loc ∧
      ((d.thread a.actor).pc = (c.thread a.actor).pc ∨
        ∃ p l, c.At a.actor p l ∧ (code B p : Code ι β).Target c.shared l (d.thread a.actor).pc)) := by
  refine h.actor_cases.imp_left ?_
  rintro ⟨p, l, f, q, x, l', hi, hc, hf, hd⟩
  exact ⟨p, l, q, l', hi, statement_of_act hc hf, hd⟩

theorem wait_code {p q : Point} {k : Cond} (h : (code B p : Code ι β) = .wait k q) :
    ∃ side, p = .thread side .wait ∧ k = side.cond ∧ q = .thread side .test := by
  rcases p with ⟨⟨⟩, p⟩ | p | p <;> cases p <;> cases h
  · exact ⟨.producer, rfl, rfl, rfl⟩
  · exact ⟨.consumer, rfl, rfl, rfl⟩

theorem cond_injective {side side' : Side} (h : side.cond = side'.cond) : side = side' := by
  cases side <;> cases side' <;> first | rfl | cases h

theorem wait_statement {side : Side} {p q : Point} {s s' : Shared β} {l l' : Locals}
    (h : Statement B s l p q s' l') : q ≠ .thread side .wait := by
  cases h <;> nofun

theorem running_statement {p q : Point} {s s' : Shared β} {l l' : Locals}
    (h : Statement B s l p q s' l') (hs : s.gRunning = false) : s'.gRunning = false := by
  cases h with
  | body side => cases side <;> exact hs
  | rest | print => exact hs
  | clear => rfl

theorem wait_target {side : Side} {p : Point} {s : Shared β} {l : Locals}
    (h : (code B p : Code ι β).Target s l (.thread side .wait)) :
    side.busy B s.buffer = true ∧ s.gRunning = true := by
  have key (side' : Side) (hq : Point.thread side .wait = bif side'.busy B s.buffer && s.gRunning then
      .thread side' .wait else .thread side' .check) :
      side.busy B s.buffer = true ∧ s.gRunning = true := by
    cases hb : side'.busy B s.buffer && s.gRunning with
    | true =>
      rw [hb] at hq
      cases hq
      exact Bool.and_eq_true_iff.mp hb
    | false =>
      rw [hb] at hq
      cases hq
  obtain ⟨hn, hb⟩ := h
  rcases p with ⟨⟨⟩, p⟩ | p | p <;> cases p
  case thread.producer.test => exact key .producer (hb _ _ _ rfl)
  case thread.consumer.test => exact key .consumer (hb _ _ _ rfl)
  all_goals rcases hn with h | h <;> cases h

end EmbeddedLinuxTraining.ProducerConsumer
