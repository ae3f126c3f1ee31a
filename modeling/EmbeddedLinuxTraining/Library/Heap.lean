import Mathlib.Data.List.Basic
import Mathlib.Logic.Function.Basic

namespace EmbeddedLinuxTraining.Library

abbrev Heap (α : Type) := ℕ → Option (List (Option α))

abbrev Pointer := Option ℕ

namespace Heap

variable {α : Type}

def load (h : Heap α) (p : Pointer) (i : ℕ) : Option α :=
  (p.bind h).bind fun cells => cells[i]?.join

def store (h : Heap α) (p : Pointer) (i : ℕ) (v : α) : Option (Heap α) :=
  p.bind fun a => (h a).bind fun cells =>
    if i < cells.length then some (Function.update h a (some (cells.set i (some v)))) else none

def allocate (h : Heap α) (n a : ℕ) : Option (Heap α) :=
  if h a = none then some (Function.update h a (some (List.replicate n none))) else none

def resize (n : ℕ) (cells : List (Option α)) : List (Option α) :=
  cells.take n ++ List.replicate (n - cells.length) none

/-- The block at `p` becomes one of `n` cells at `a`, its old address or a free one. -/
def reallocate (h : Heap α) (p : Pointer) (n a : ℕ) : Option (Heap α) :=
  p.bind fun old => (h old).bind fun cells =>
    if a = old ∨ h a = none then
      some (Function.update (Function.update h old none) a (some (resize n cells)))
    else none

def Block (h : Heap α) (p : Pointer) (n : ℕ) (xs : List α) : Prop :=
  ∃ cells, p.bind h = some cells ∧ cells.length = n ∧ xs.map some <+: cells

variable {h h' : Heap α} {p : Pointer} {n m a i : ℕ} {xs : List α} {v : α}

theorem Block.live (hb : Block h p n xs) : ∃ a cells, p = some a ∧ h a = some cells := by
  obtain ⟨cells, hp, -⟩ := hb
  obtain ⟨a, rfl, ha⟩ := Option.bind_eq_some_iff.mp hp
  exact ⟨a, cells, rfl, ha⟩

theorem allocate_block (ha : h a = none) : ∃ h', allocate h n a = some h' ∧ Block h' (some a) n [] := by
  refine ⟨_, if_pos ha, List.replicate n none, ?_, List.length_replicate, List.nil_prefix⟩
  exact Function.update_self ..

theorem Block.load (hb : Block h p n xs) (hi : xs[i]? = some v) : load h p i = some v := by
  obtain ⟨cells, hp, -, rest, rfl⟩ := hb
  have hlt : i < xs.length := (List.getElem?_eq_some_iff.mp hi).1
  rw [Heap.load, hp, Option.bind_some, List.getElem?_append_left, List.getElem?_map, hi]
  · rfl
  · rwa [List.length_map]

theorem Block.store (hb : Block h p n xs) (hlt : xs.length < n) (v : α) :
    ∃ h', store h p xs.length v = some h' ∧ Block h' p n (xs ++ [v]) := by
  obtain ⟨cells, hp, rfl, rest, hrest⟩ := hb
  obtain ⟨a, rfl, ha⟩ := Option.bind_eq_some_iff.mp hp
  refine ⟨Function.update h a (some (cells.set xs.length (some v))), ?_,
    cells.set xs.length (some v), ?_, ?_, ?_⟩
  · rw [Heap.store, Option.bind_some, ha, Option.bind_some, if_pos hlt]
  · rw [Option.bind_some, Function.update_self]
  · rw [List.length_set]
  · rw [← hrest, List.set_append_right]
    · cases rest with
      | nil =>
        rw [← hrest] at hlt
        simp at hlt
      | cons cell rest =>
        refine ⟨rest, ?_⟩
        simp
    · exact Nat.le_of_eq (List.length_map some)

theorem Block.reallocate_some (hb : Block h p n xs) (ha : p = some a ∨ h a = none) (m : ℕ) :
    ∃ h', reallocate h p m a = some h' := by
  obtain ⟨old, cells, rfl, hold⟩ := hb.live
  rw [Option.some_inj, eq_comm] at ha
  rw [Heap.reallocate, Option.bind_some, hold, Option.bind_some, if_pos ha]
  exact ⟨_, rfl⟩

theorem Block.reallocate (hb : Block h p n xs) (hle : n ≤ m) (hr : reallocate h p m a = some h') :
    Block h' (some a) m xs := by
  obtain ⟨cells, hp, rfl, hxs⟩ := hb
  obtain ⟨old, rfl, hold⟩ := Option.bind_eq_some_iff.mp hp
  rw [Heap.reallocate, Option.bind_some, hold, Option.bind_some] at hr
  obtain ⟨-, hr⟩ := Option.ite_none_right_eq_some.mp hr
  cases hr
  refine ⟨resize m cells, ?_, ?_, ?_⟩
  · rw [Option.bind_some, Function.update_self]
  · rw [resize, List.take_of_length_le hle, List.length_append, List.length_replicate]
    omega
  · rw [resize, List.take_of_length_le hle]
    exact hxs.trans (List.prefix_append _ _)

end Heap

end EmbeddedLinuxTraining.Library
