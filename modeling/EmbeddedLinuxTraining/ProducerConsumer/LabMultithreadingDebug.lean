import Mathlib.Data.Int.ModEq
import EmbeddedLinuxTraining.Library.Exec
import EmbeddedLinuxTraining.ProducerConsumer.Fifo

namespace EmbeddedLinuxTraining.LabMultithreadingDebug

open Library.BoundedFifo Library.Pthread Library.Transition ProducerConsumer

def QUEUE_CAPACITY : ℕ := 5

structure Queue where
  queueBuffer : ℕ → Int32
  queueHead : ℕ
  queueTail : ℕ
  queueCount : ℤ

namespace Queue

def zero : Queue := ⟨fun _ => 0, 0, 0, 0⟩

def store (cap : ℕ) (item : Int32) (b : Queue) : Queue where
  queueBuffer := Function.update b.queueBuffer b.queueTail item
  queueHead := b.queueHead
  queueTail := (b.queueTail + 1) % cap
  queueCount := b.queueCount + 1

def load (cap : ℕ) (b : Queue) : Int32 × Queue :=
  (b.queueBuffer b.queueHead,
    { b with queueHead := (b.queueHead + 1) % cap, queueCount := b.queueCount - 1 })

def buffer (cap : ℕ) : Buffer Queue Int32 where
  full b := b.queueCount == cap
  empty b := b.queueCount == 0
  put := store cap
  get := load cap

def contents (cap : ℕ) (b : Queue) : List Int32 :=
  (List.range b.queueCount.toNat).map fun i => b.queueBuffer ((b.queueHead + i) % cap)

structure WellFormed (cap : ℕ) (b : Queue) : Prop where
  count : 0 ≤ b.queueCount ∧ b.queueCount ≤ cap
  head : b.queueHead < cap
  tail : b.queueTail = (b.queueHead + b.queueCount.toNat) % cap

variable {cap : ℕ} {b : Queue}

theorem length_contents : (b.contents cap).length = b.queueCount.toNat := by
  simp [contents]

theorem slot_ne {h i n : ℕ} (hi : i < n) (hn : n < cap) : (h + i) % cap ≠ (h + n) % cap := by
  intro he
  have hmod : i ≡ n [MOD cap] := Nat.ModEq.add_left_cancel' h he
  have := hmod.eq_of_lt_of_lt (by omega) hn
  omega

theorem contents_store {item : Int32} (hb : b.WellFormed cap) (hlt : b.queueCount < cap) :
    (b.store cap item).contents cap = b.contents cap ++ [item] := by
  have hnn := hb.count.1
  have hn : (b.queueCount + 1).toNat = b.queueCount.toNat + 1 := by omega
  simp only [contents, store, hn, List.range_succ, List.map_append, List.map_cons, List.map_nil]
  congr 1
  · apply List.map_congr_left
    intro i hi
    have hi := List.mem_range.mp hi
    rw [Function.update_of_ne]
    rw [hb.tail]
    exact slot_ne hi (by omega)
  · rw [← hb.tail, Function.update_self]

theorem wellFormed_store {item : Int32} (hb : b.WellFormed cap) (hlt : b.queueCount < cap) :
    (b.store cap item).WellFormed cap := by
  obtain ⟨⟨hnn, hle⟩, hhead, htail⟩ := hb
  constructor
  · simp only [store]
    omega
  · exact hhead
  · have hn : (b.queueCount + 1).toNat = b.queueCount.toNat + 1 := by omega
    simp only [store, hn, htail, Nat.mod_add_mod, Nat.add_assoc]

theorem contents_load {x : Int32} {xs : List Int32} (hb : b.WellFormed cap)
    (hc : b.contents cap = x :: xs) : (b.load cap).1 = x ∧ (b.load cap).2.contents cap = xs := by
  have hlen : b.queueCount.toNat = xs.length + 1 := by
    have hlen : (b.contents cap).length = b.queueCount.toNat := length_contents
    rw [← hlen, hc, List.length_cons]
  have hn : (b.queueCount - 1).toNat = xs.length := by omega
  rw [contents, hlen, List.range_succ_eq_map, List.map_cons, List.map_map] at hc
  obtain ⟨hx, hxs⟩ := List.cons.inj hc
  constructor
  · rw [Nat.add_zero, Nat.mod_eq_of_lt hb.head] at hx
    exact hx
  · simp only [contents, load, hn]
    refine Eq.trans ?_ hxs
    apply List.map_congr_left
    intro i _
    simp only [Function.comp, Nat.mod_add_mod, Nat.succ_eq_add_one, Nat.add_assoc, Nat.add_comm 1 i]

theorem wellFormed_load (hb : b.WellFormed cap) (hpos : 0 < b.queueCount) :
    (b.load cap).2.WellFormed cap := by
  obtain ⟨⟨hnn, hle⟩, hhead, htail⟩ := hb
  constructor
  · simp only [load]
    omega
  · exact Nat.mod_lt _ (by omega)
  · have hn : b.queueCount.toNat = 1 + (b.queueCount - 1).toNat := by omega
    simp only [load, htail, hn, Nat.mod_add_mod, Nat.add_assoc]

def fifo (cap : ℕ) : (buffer cap).Implements cap where
  wf := WellFormed cap
  contents := contents cap
  bound h := by
    rw [length_contents]
    have := h.count
    omega
  full_iff h := by
    have := h.count
    rw [length_contents, buffer, beq_iff_eq]
    omega
  empty_iff h := by
    have := h.count
    rw [← List.length_eq_zero_iff, length_contents, buffer, beq_iff_eq]
    omega
  put x h hlt := by
    rw [length_contents] at hlt
    have hcount : _ := h.count
    exact ⟨wellFormed_store h (by omega), contents_store h (by omega)⟩
  get {b x xs} h hc := by
    obtain ⟨hx, hxs⟩ := contents_load h hc
    have hlen := congrArg List.length hc
    rw [length_contents, List.length_cons] at hlen
    exact ⟨hx, wellFormed_load h (by omega), hxs⟩

theorem tracks_zero (hcap : 1 ≤ cap) : Tracks (fifo cap) [] zero :=
  ⟨⟨⟨le_refl _, Int.natCast_nonneg _⟩, hcap, (Nat.zero_mod cap).symm⟩, .nil⟩

end Queue

open Queue

variable {ι : Type}

def producerThread (cap : ℕ) : Stage → Code ι Queue := ProducerConsumer.producerThread (buffer cap)

def consumerThread (cap : ℕ) : Stage → Code ι Queue := ProducerConsumer.consumerThread (buffer cap)

example (cap : ℕ) (p : Stage) : (code (buffer cap) (.thread .producer p) : Code ι Queue) =
    producerThread cap p := rfl

example (cap : ℕ) (p : Stage) : (code (buffer cap) (.thread .consumer p) : Code ι Queue) =
    consumerThread cap p := rfl

def program [DecidableEq ι] (cap : ℕ) (role : ι → Role) : System (State ι Queue) (Label ι Unit) :=
  ProducerConsumer.program (buffer cap) zero role

structure Intact (cap : ℕ) (role : ι → Role) (c : State ι Queue) : Prop where
  count : c.owner = none → 0 ≤ c.shared.buffer.queueCount ∧ c.shared.buffer.queueCount ≤ cap
  tail : c.owner = none → c.shared.buffer.queueTail =
    (c.shared.buffer.queueHead + c.shared.buffer.queueCount.toNat) % cap
  sequence : c.owner = none →
    accepted c.shared.log = delivered c.shared.log ++ c.shared.buffer.contents cap
  numbers : (∀ i j, role i = .producer → role j = .producer → i = j) →
    (delivered c.shared.log).length ≤ 2 ^ 31 →
    (delivered c.shared.log).map Int32.toInt = (List.range (delivered c.shared.log).length).map Int.ofNat
  -- `item++` wraps after 2 ^ 31 items
  wrapped : (∀ i j, role i = .producer → role j = .producer → i = j) →
    delivered c.shared.log = (List.range (delivered c.shared.log).length).map Int32.ofNat

theorem circular_queue [DecidableEq ι] (cap : ℕ) (hcap : 1 ≤ cap) (role : ι → Role)
    (c : State ι Queue) (h : Reachable (program cap role) c) : Intact cap role c := by
  have htracks : Tracks (fifo cap) c.shared.log c.shared.buffer := program_tracks (tracks_zero hcap) h
  constructor
  · intro _
    exact htracks.wf.count
  · intro _
    exact htracks.wf.tail
  · intro _
    exact htracks.legal.balance
  · intro hone hlen
    rw [← toInt_counting hlen, ← delivered_counting (tracks_zero hcap) hone h]
  · intro hone
    exact delivered_counting (tracks_zero hcap) hone h

def pairRole : Fin 2 → Role
  | 0 => .producer
  | 1 => .consumer

def pairStart : State (Fin 2) Queue where
  shared := ⟨true, zero, []⟩
  owner := none
  thread i := ⟨(pairRole i).start, ⟨0, 0⟩, .running⟩

def pairSchedule : List (Label (Fin 2) Unit) :=
  [.run 0, .run 0, .run 0, .run 0, .input 0 (), .run 0, .run 0, .input 0 (),
    .run 1, .run 1, .run 1, .run 1, .input 1 (), .run 1, .run 1, .input 1 (),
    .run 0, .run 0, .run 0, .run 0, .input 0 (), .run 0, .run 0]

theorem circular_queue_pair : ∃ c : State (Fin 2) Queue,
    accepted c.shared.log = [0, 1] ∧ delivered c.shared.log = [0] ∧ Intact 2 pairRole c := by
  have hrun : (execAll (code (buffer 2)) pairStart pairSchedule).isSome = true := by decide
  have hreach : Reachable (program 2 pairRole) (Option.get _ hrun) :=
    reachable_of_execAll ⟨rfl, rfl, fun _ => rfl⟩ (Option.some_get hrun).symm
  exact ⟨_, rfl, rfl, circular_queue 2 (by decide) pairRole _ hreach⟩

end EmbeddedLinuxTraining.LabMultithreadingDebug
