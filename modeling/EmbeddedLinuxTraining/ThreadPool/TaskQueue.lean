import Mathlib.Logic.Function.Basic
import Mathlib.Data.Int.Notation
import Mathlib.Data.List.Basic
import EmbeddedLinuxTraining.Library.BoundedFifo

namespace EmbeddedLinuxTraining.ThreadPool

open Library.BoundedFifo

def QUEUE_SIZE : ℕ := 256

structure TaskTypeDef (φ : Type) where
  function : Option φ
  deriving DecidableEq

/-- The globals `taskQueue` and `taskCount`; only the first `QUEUE_SIZE` slots are ever used. -/
structure TaskQueue (φ : Type) where
  taskQueue : ℕ → TaskTypeDef φ
  taskCount : ℤ

variable {φ : Type}

namespace TaskQueue

def append (task : TaskTypeDef φ) (b : TaskQueue φ) : TaskQueue φ where
  taskQueue := Function.update b.taskQueue b.taskCount.toNat task
  taskCount := b.taskCount + 1

def shift (taskQueue : ℕ → TaskTypeDef φ) (n : ℕ) : ℕ → TaskTypeDef φ :=
  (List.range n).foldl (fun q i => Function.update q i (q (i + 1))) taskQueue

def removeFirst (b : TaskQueue φ) : TaskTypeDef φ × TaskQueue φ :=
  (b.taskQueue 0,
    { taskQueue := shift b.taskQueue (b.taskCount - 1).toNat
      taskCount := b.taskCount - 1 })

def buffer : Buffer (TaskQueue φ) (TaskTypeDef φ) where
  full b := !decide (b.taskCount < QUEUE_SIZE)
  empty b := b.taskCount == 0
  put := append
  get := removeFirst

def contents (b : TaskQueue φ) : List (TaskTypeDef φ) :=
  (List.range b.taskCount.toNat).map b.taskQueue

theorem shift_succ (q : ℕ → TaskTypeDef φ) (n : ℕ) :
    shift q (n + 1) = Function.update (shift q n) n (shift q n (n + 1)) := by
  simp [shift, List.range_succ]

theorem shift_apply (q : ℕ → TaskTypeDef φ) (n i : ℕ) :
    shift q n i = if i < n then q (i + 1) else q i := by
  induction n generalizing i with
  | zero => simp [shift]
  | succ n ih =>
    rw [shift_succ]
    by_cases hi : i = n
    · subst hi
      rw [Function.update_self, ih, if_neg (by omega), if_pos (by omega)]
    · rw [Function.update_of_ne hi, ih]
      by_cases hlt : i < n
      · rw [if_pos hlt, if_pos (by omega)]
      · rw [if_neg hlt, if_neg (by omega)]

theorem contents_append (task : TaskTypeDef φ) {b : TaskQueue φ} (h : 0 ≤ b.taskCount) :
    contents (b.append task) = contents b ++ [task] := by
  have hn : (b.taskCount + 1).toNat = b.taskCount.toNat + 1 := by omega
  simp only [contents, append, hn, List.range_succ, List.map_append, List.map_cons, List.map_nil,
    Function.update_self]
  congr 1
  apply List.map_congr_left
  intro i hi
  have := List.mem_range.mp hi
  exact Function.update_of_ne (by omega) ..

theorem contents_removeFirst {b : TaskQueue φ} {x : TaskTypeDef φ} {xs : List (TaskTypeDef φ)}
    (h : contents b = x :: xs) : b.taskQueue 0 = x ∧ contents (b.removeFirst).2 = xs := by
  have hlen : b.taskCount.toNat = xs.length + 1 := by
    have := congrArg List.length h
    simpa [contents] using this
  have hn : (b.taskCount - 1).toNat = xs.length := by omega
  rw [contents, hlen, List.range_succ_eq_map, List.map_cons, List.map_map] at h
  obtain ⟨hx, hxs⟩ := List.cons.inj h
  refine ⟨hx, ?_⟩
  simp only [contents, removeFirst, hn]
  refine Eq.trans ?_ hxs
  apply List.map_congr_left
  intro i hi
  rw [shift_apply, if_pos (List.mem_range.mp hi)]
  rfl

def fifo : (buffer (φ := φ)).Implements QUEUE_SIZE where
  wf b := 0 ≤ b.taskCount ∧ b.taskCount ≤ QUEUE_SIZE
  contents := contents
  bound h := by
    simp only [contents, List.length_map, List.length_range]
    omega
  full_iff h := by
    simp only [buffer, contents, List.length_map, List.length_range, Bool.not_eq_true',
      decide_eq_false_iff_not]
    omega
  empty_iff h := by
    simp only [buffer, contents, beq_iff_eq, List.map_eq_nil_iff, List.range_eq_nil]
    omega
  put x h hlt := by
    refine ⟨?_, contents_append x h.1⟩
    simp only [contents, List.length_map, List.length_range] at hlt
    simp only [buffer, append]
    omega
  get {b x xs} h hc := by
    obtain ⟨hx, hxs⟩ := contents_removeFirst hc
    refine ⟨hx, ?_, hxs⟩
    have hlen := congrArg List.length hc
    simp only [contents, List.length_map, List.length_range, List.length_cons] at hlen
    simp only [buffer, removeFirst]
    omega

end TaskQueue

end EmbeddedLinuxTraining.ThreadPool
