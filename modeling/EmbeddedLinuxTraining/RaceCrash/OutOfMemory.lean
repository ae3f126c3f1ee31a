import EmbeddedLinuxTraining.Library.Solo
import EmbeddedLinuxTraining.RaceCrash.Program

namespace EmbeddedLinuxTraining.RaceCrash

open Library Library.Pthread

variable {D : Type}

def appendElement (s : Shared D) (l : Locals D) : Shared D × Locals D :=
  let r := storeElement s l
  raiseCount r.1 r.2

def storePush (x : Input D) (s : Shared D) (l : Locals D) : Option (Shared D × Locals D) :=
  if s.count == s.capacity then
    let r := raiseCapacity s l
    (reallocData true x r.1 r.2).map fun r =>
      let r := setData r.1 r.2
      appendElement r.1 r.2
  else some (appendElement s l)

/-- It is what a producer does that nobody interrupts, from its `lock` to the next turn. -/
theorem soloRun_storePush {ι : Type} [DecidableEq ι] (arith : Arithmetic D) (i : ι) {x : Input D}
    {s t : Shared D} {l l' : Locals D} (h : storePush x s l = some (t, l')) :
    ∃ n, soloRun (code arith true) x i n ⟨s, none, .producer .lock, l⟩ =
      some ⟨t, none, .producer .top, l'⟩ := by
  unfold storePush at h
  by_cases hfull : s.count = s.capacity
  · rw [if_pos (beq_iff_eq.mpr hfull)] at h
    obtain ⟨r, hr, happend⟩ := Option.map_eq_some_iff.mp h
    have htest : (s.count == s.capacity) = true := beq_iff_eq.mpr hfull
    refine ⟨8, ?_⟩
    simp only [soloRun, soloNext, code, producerMain, Instr.run, htest, hr, if_true, cond_true,
      Option.map_some, Option.bind_some]
    cases happend
    rfl
  · have htest : (s.count == s.capacity) = false := beq_false_of_ne hfull
    rw [htest] at h
    refine ⟨5, ?_⟩
    simp only [soloRun, soloNext, code, producerMain, Instr.run, htest, if_true, cond_false, Option.map_some,
      Option.bind_some]
    cases h
    rfl

structure Represents (s : Shared D) : Prop where
  fault : s.fault = false
  room : s.count ≤ s.capacity
  counted : s.pushed.length = s.count
  block : s.heap.Block s.data s.capacity s.pushed

def Answer (s : Shared D) : Pointer → Prop
  | none => True
  | some a => s.data = some a ∨ s.heap a = none

def Starved (s : Shared D) (grown : Pointer) : Prop := s.count = s.capacity ∧ grown = none

structure Kept (s t : Shared D) (value : D) (grown : Pointer) : Prop where
  represents : Represents t
  reachable : ∀ i v, s.pushed[i]? = some v → t.heap.load t.data i = some v
  appended : ¬ Starved s grown → t.pushed = s.pushed ++ [value]
  unchanged : Starved s grown → t = s

variable {s t : Shared D} {l : Locals D} {grown : Pointer}

theorem Kept.of_represents {value : D} (ht : Represents t) (hpushed : t.pushed = s.pushed ++ [value])
    (h : ¬ Starved s grown) : Kept s t value grown := by
  constructor
  · exact ht
  · intro i v hi
    apply ht.block.load
    rw [hpushed, List.getElem?_append_left, hi]
    exact (List.getElem?_eq_some_iff.mp hi).1
  · intro _
    exact hpushed
  · intro hstarved
    exact absurd hstarved h

theorem appendElement_represents (h : Represents s) (hlt : s.count < s.capacity) :
    Represents (appendElement s l).1 ∧ (appendElement s l).1.pushed = s.pushed ++ [l.value] := by
  have hroom : s.pushed.length < s.capacity := by
    rw [h.counted]
    exact hlt
  obtain ⟨heap, hstore, hblock⟩ := h.block.store hroom l.value
  rw [h.counted] at hstore
  simp only [appendElement, storeElement, hstore, raiseCount]
  refine ⟨⟨h.fault, hlt, ?_, hblock⟩, trivial⟩
  simp [h.counted]

theorem storePush_grown {a : ℕ} (h : Represents s) (hfull : s.count = s.capacity) (ha : Answer s (some a)) :
    ∃ t l', storePush (.block (some a)) s l = some (t, l') ∧ Represents t ∧
      t.pushed = s.pushed ++ [l.value] := by
  obtain ⟨old, cells, hdata, hold⟩ := h.block.live
  have hlive : s.data.bind s.heap = some cells := by
    rw [hdata, Option.bind_some, hold]
  obtain ⟨heap, hheap⟩ := h.block.reallocate_some ha (s.capacity + GROWTH_CHUNK)
  have hblock := h.block.reallocate (Nat.le_add_right _ _) hheap
  have hlt : s.count < s.capacity + GROWTH_CHUNK := by
    have hroom := h.room
    have hpos : 0 < GROWTH_CHUNK := by decide
    omega
  rw [storePush, if_pos (beq_iff_eq.mpr hfull)]
  simp only [raiseCapacity, reallocData, hlive, hheap, Option.map_some, setData]
  refine ⟨_, _, rfl, ?_⟩
  apply appendElement_represents _ hlt
  constructor
  · exact h.fault
  · exact Nat.le_of_lt hlt
  · exact h.counted
  · exact hblock

theorem storePush_room (h : Represents s) (hlt : s.count < s.capacity) (x : Input D) :
    ∃ t l', storePush x s l = some (t, l') ∧ Represents t ∧ t.pushed = s.pushed ++ [l.value] := by
  have hne : (s.count == s.capacity) = false := by simpa using Nat.ne_of_lt hlt
  rw [storePush, hne]
  exact ⟨_, _, rfl, appendElement_represents h hlt⟩

theorem storePush_starved (hfull : s.count = s.capacity) :
    ∃ t l', storePush (.block none) s l = some (t, l') ∧ t.fault = true := by
  rw [storePush, if_pos (beq_iff_eq.mpr hfull)]
  exact ⟨_, _, rfl, rfl⟩

theorem storePush_kept_iff (h : Represents s) (l : Locals D) (hgrown : Answer s grown) :
    ∃ t l', storePush (.block grown) s l = some (t, l') ∧
      (Kept s t l.value grown ↔ ¬ Starved s grown) := by
  by_cases hfull : s.count = s.capacity
  · cases grown with
    | none =>
      obtain ⟨t, l', hpush, hfault⟩ := storePush_starved (l := l) hfull
      refine ⟨t, l', hpush, ?_⟩
      have hstarved : Starved s none := ⟨hfull, rfl⟩
      apply iff_of_false _ (not_not_intro hstarved)
      intro hkept
      have hno := hkept.represents.fault
      rw [hfault] at hno
      cases hno
    | some a =>
      obtain ⟨t, l', hpush, ht, hpushed⟩ := storePush_grown (l := l) h hfull hgrown
      have hnot : ¬ Starved s (some a) := fun hstarved => Option.some_ne_none a hstarved.2
      exact ⟨t, l', hpush, iff_of_true (.of_represents ht hpushed hnot) hnot⟩
  · have hlt : s.count < s.capacity := Nat.lt_of_le_of_ne h.room hfull
    obtain ⟨t, l', hpush, ht, hpushed⟩ := storePush_room (l := l) h hlt (.block grown)
    have hnot : ¬ Starved s grown := fun hstarved => hfull hstarved.1
    exact ⟨t, l', hpush, iff_of_true (.of_represents ht hpushed hnot) hnot⟩

def fullStore : Shared ℕ :=
  ⟨true, Function.update (fun _ => none) 0 (some [some 7, some 8, some 9, some 6]), some 0, 4,
    INITIAL_CAP, false, [7, 8, 9, 6], []⟩

theorem fullStore_represents : Represents fullStore := by
  constructor
  · rfl
  · decide
  · rfl
  · exact ⟨[some 7, some 8, some 9, some 6], rfl, rfl, List.prefix_rfl⟩

def pushing (value : ℕ) : Locals ℕ := ⟨value, none, ⟨0, 0⟩, none, 0, 0⟩

theorem storePush_kept_grown : ∃ t l', storePush (.block (some 1)) fullStore (pushing 5) = some (t, l') ∧
    (Kept fullStore t (pushing 5).value (some 1) ↔ ¬ Starved fullStore (some 1)) :=
  storePush_kept_iff fullStore_represents (pushing 5) (.inr rfl)

theorem not_storePush_kept : ¬ ∀ (s : Shared ℕ) (l : Locals ℕ) (grown : Pointer),
    Represents s → Answer s grown → ∃ t l', storePush (.block grown) s l = some (t, l') ∧ Kept s t l.value grown := by
  intro h
  obtain ⟨t, l', hpush, hkept⟩ := h fullStore (pushing 5) none fullStore_represents trivial
  obtain ⟨t', l'', hpush', hfault⟩ := storePush_starved (s := fullStore) (l := pushing 5) rfl
  rw [hpush] at hpush'
  cases hpush'
  have hno := hkept.represents.fault
  rw [hfault] at hno
  cases hno

end EmbeddedLinuxTraining.RaceCrash
