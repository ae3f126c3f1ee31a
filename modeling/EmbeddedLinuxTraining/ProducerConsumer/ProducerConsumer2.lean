import EmbeddedLinuxTraining.Library.Exec
import EmbeddedLinuxTraining.ProducerConsumer.Fifo

namespace EmbeddedLinuxTraining.ProducerConsumer2

open Library.BoundedFifo Library.Pthread Library.Transition ProducerConsumer

structure Register where
  dataReg : Int32
  TXE : Int32
  RXNE : Int32

namespace Register

def reset : Register := ⟨0, 1, 0⟩

def write (item : Int32) (_ : Register) : Register := ⟨item, 0, 1⟩

def read (b : Register) : Int32 × Register := (b.dataReg, { b with RXNE := 0, TXE := 1 })

/-- The waits are `while (!TXE && ...)` and `while (!RXNE && ...)`. -/
def buffer : Buffer Register Int32 where
  full b := b.TXE == 0
  empty b := b.RXNE == 0
  put := write
  get := read

def WellFormed (b : Register) : Prop := b.TXE = 1 ∧ b.RXNE = 0 ∨ b.TXE = 0 ∧ b.RXNE = 1

def contents (b : Register) : List Int32 := if b.RXNE = 1 then [b.dataReg] else []

theorem contents_reading {b : Register} (h : b.RXNE = 1) : b.contents = [b.dataReg] := if_pos h

theorem contents_writing {b : Register} (h : b.RXNE = 0) : b.contents = [] := by
  rw [contents, h]
  rfl

def fifo : buffer.Implements 1 where
  wf := WellFormed
  contents := contents
  bound {b} h := by
    obtain ⟨-, hr⟩ | ⟨-, hr⟩ := h
    · rw [contents_writing hr]
      exact Nat.zero_le 1
    · rw [contents_reading hr]
      exact le_refl 1
  full_iff {b} h := by
    rw [buffer, beq_iff_eq]
    obtain ⟨ht, hr⟩ | ⟨ht, hr⟩ := h
    · rw [contents_writing hr, ht]
      simp
    · rw [contents_reading hr, ht]
      simp
  empty_iff {b} h := by
    rw [buffer, beq_iff_eq]
    obtain ⟨ht, hr⟩ | ⟨ht, hr⟩ := h
    · rw [contents_writing hr, hr]
      simp
    · rw [contents_reading hr, hr]
      simp
  put {b} x h hlt := by
    obtain ⟨-, hr⟩ | ⟨-, hr⟩ := h
    · rw [contents_writing hr]
      exact ⟨.inr ⟨rfl, rfl⟩, rfl⟩
    · rw [contents_reading hr] at hlt
      exact absurd hlt (lt_irrefl 1)
  get {b x xs} h hc := by
    obtain ⟨-, hr⟩ | ⟨-, hr⟩ := h
    · rw [contents_writing hr] at hc
      cases hc
    · rw [contents_reading hr] at hc
      cases hc
      exact ⟨rfl, .inl ⟨rfl, rfl⟩, rfl⟩

theorem tracks_reset : Tracks fifo [] reset := ⟨.inl ⟨rfl, rfl⟩, .nil⟩

end Register

open Register

variable {ι : Type}

def producerThread : Stage → Code ι Register := ProducerConsumer.producerThread buffer

def consumerThread : Stage → Code ι Register := ProducerConsumer.consumerThread buffer

example (p : Stage) : (code buffer (.thread .producer p) : Code ι Register) = producerThread p := rfl

example (p : Stage) : (code buffer (.thread .consumer p) : Code ι Register) = consumerThread p := rfl

inductive Task
  | producer | consumer | handler

def Task.role : Task → Role
  | .producer => .producer
  | .consumer => .consumer
  | .handler => .handler

def program [DecidableEq ι] (task : ι → Task) : System (State ι Register) (Label ι Unit) :=
  ProducerConsumer.program buffer reset fun i => (task i).role

structure Handshake (c : State ι Register) : Prop where
  flags : c.owner = none → c.shared.buffer.TXE = 1 ∧ c.shared.buffer.RXNE = 0 ∨
    c.shared.buffer.TXE = 0 ∧ c.shared.buffer.RXNE = 1
  alternate : ∀ n op, c.shared.log[n]? = some op → op.isPut = decide (n % 2 = 0)
  words : delivered c.shared.log = accepted c.shared.log ∨
    delivered c.shared.log = (accepted c.shared.log).dropLast ∧
      (accepted c.shared.log).getLast? = some c.shared.buffer.dataReg ∧ c.shared.buffer.RXNE = 1

theorem handshake [DecidableEq ι] (task : ι → Task) (c : State ι Register)
    (h : Reachable (program task) c) : Handshake c := by
  have htracks : Tracks fifo c.shared.log c.shared.buffer := program_tracks tracks_reset h
  have hbal : accepted c.shared.log = delivered c.shared.log ++ c.shared.buffer.contents :=
    htracks.legal.balance
  constructor
  · intro _
    exact htracks.wf
  · exact htracks.legal.alternates.2
  · obtain ⟨-, hr⟩ | ⟨-, hr⟩ := htracks.wf
    · rw [contents_writing hr, List.append_nil] at hbal
      exact .inl hbal.symm
    · rw [contents_reading hr] at hbal
      rw [hbal, List.dropLast_concat, List.getLast?_concat]
      exact .inr ⟨rfl, rfl, hr⟩

def pairTask : Fin 2 → Task
  | 0 => .producer
  | 1 => .consumer

def pairStart : State (Fin 2) Register where
  shared := ⟨true, reset, []⟩
  owner := none
  thread i := ⟨(pairTask i).role.start, ⟨0, 0⟩, .running⟩

def pairSchedule (p c : Fin 2) : List (Label (Fin 2) Unit) :=
  [.run c, .run c, .run c, .run c, .run p, .run p, .run p, .run p, .input p (), .wake p c, .run p,
    .resume c, .run c, .run c, .input c (), .run c, .run c]

theorem handshake_pair : ∃ c : State (Fin 2) Register, c.shared.log = [.put 0, .get 0] ∧ Handshake c := by
  have hrun : (execAll (code buffer) pairStart (pairSchedule 0 1)).isSome = true := by decide
  have hreach : Reachable (program pairTask) (Option.get _ hrun) :=
    reachable_of_execAll ⟨rfl, rfl, fun _ => rfl⟩ (Option.some_get hrun).symm
  exact ⟨_, rfl, handshake pairTask _ hreach⟩

end EmbeddedLinuxTraining.ProducerConsumer2
