import Mathlib.Algebra.BigOperators.Group.Finset.Piecewise
import Mathlib.Data.Fintype.EquivFin
import EmbeddedLinuxTraining.Counter.Synchronised

namespace EmbeddedLinuxTraining.Counter

open Library Library.Pthread Library.Transition
open Library.Pthread.Config
open scoped BigOperators

inductive Turn (ι : Type)
  | step (a : Label ι Unit)
  | spin (i : ι)

def spinning (ι : Type) [DecidableEq ι] (K : ℕ) : System (Cfg ι) (Turn ι) where
  init := Start
  step c t d :=
    match t with
    | .step a => (lab23 ι K).step c a d
    | .spin i => (∃ ops, (c.thread i).pc = .body (.lock :: ops)) ∧ c.owner ≠ none ∧ d = c

structure SpinlockCounter (ι : Type) [DecidableEq ι] [Fintype ι] (K : ℕ) : Prop where
  live : ∀ c, Reachable (spinning ι K) c → ¬ Final c → ∃ a d, (spinning ι K).step c (.step a) d
  final : ∀ c, Reachable (spinning ι K) c → Final c → c.shared.counter.toInt = Fintype.card ι * K

def acquired (l : Locals) : Point → ℕ
  | .body [.increment] | .store _ => l.completed + 1
  | _ => l.completed

variable {ι : Type} [DecidableEq ι] {K : ℕ} {c d : Cfg ι} {i : ι}

theorem spinning_iff : Reachable (spinning ι K) c ↔ Reachable (lab23 ι K) c := by
  constructor
  · intro h
    apply h.refine id
    · exact fun c hc => hc
    · rintro c (a | i) d - hs
      · exact .inr ⟨a, hs⟩
      · exact .inl hs.2.2
  · intro h
    apply h.refine id
    · exact fun c hc => hc
    · exact fun c a d _ hs => .inr ⟨.step a, hs⟩

theorem completed_le_acquired (l : Locals) (p : Point) : l.completed ≤ acquired l p := by
  unfold acquired
  split
  · exact Nat.le_succ _
  · exact Nat.le_succ _
  · exact Nat.le_refl _

theorem Move.acquired_cases (hc : Sound K lab23Body (c.thread i)) (h : Move K lab23Body c i d) :
    (d.owner = c.owner ∧ acquired (d.thread i).loc (d.thread i).pc =
      acquired (c.thread i).loc (c.thread i).pc) ∨
    (c.owner = none ∧ d.owner = some i ∧ acquired (d.thread i).loc (d.thread i).pc =
      acquired (c.thread i).loc (c.thread i).pc + 1) := by
  cases h with
  | init hi | enter hi | leave hi | next hi =>
    refine .inl ⟨rfl, ?_⟩
    rw [hi.thread, (goto_at ..).thread]
    rfl
  | ret hi =>
    refine .inl ⟨rfl, ?_⟩
    rw [hi.thread, move_self]
  | @lock _ ops hi ho =>
    obtain rfl : ops = [.increment] := by simpa using (hc.at hi).1
    refine .inr ⟨ho, rfl, ?_⟩
    rw [hi.thread, (goto_at ..).thread]
    rfl
  | unlock hi ho =>
    have hsuffix := (hc.at hi).1
    simp at hsuffix
  | @load _ ops hi =>
    obtain rfl : ops = [] := by simpa using (hc.at hi).1
    refine .inl ⟨rfl, ?_⟩
    rw [hi.thread, (goto_at ..).thread]
    rfl
  | @store _ ops hi =>
    obtain rfl : ops = [] := by simpa using (hc.at hi).1
    refine .inl ⟨rfl, ?_⟩
    rw [hi.thread, (goto_at ..).thread]
    rfl
  | fetchAdd hi =>
    have hsuffix := (hc.at hi).1
    simp at hsuffix

variable [Fintype ι]

structure Taken (K : ℕ) (c : Cfg ι) : Prop where
  safe : Safe K lab23Body c
  once : ∀ i, acquired (c.thread i).loc (c.thread i).pc = if c.owner = some i then 1 else 0

theorem Taken.total_le (h : Taken K c) : total c ≤ 1 := by
  calc total c ≤ ∑ i, acquired (c.thread i).loc (c.thread i).pc :=
        Finset.sum_le_sum fun i _ => completed_le_acquired ..
    _ = ∑ i, if c.owner = some i then 1 else 0 := Finset.sum_congr rfl fun i _ => h.once i
    _ ≤ 1 := by
        cases c.owner with
        | none => simp
        | some j => simp

theorem Taken.completed_lt (h : Taken K c) (i : ι) : (c.thread i).loc.completed < 2 ^ 31 := by
  have hle := completed_le_acquired (c.thread i).loc (c.thread i).pc
  rw [h.once i] at hle
  split at hle <;> omega

theorem Taken.step (hc : Taken K c) (h : Move K lab23Body c i d) : Taken K d := by
  constructor
  · constructor
    · exact h.sound rfl hc.safe.sound hc.completed_lt
    · apply hc.safe.exact.step h
      apply h.shared_of_held
      · intro j ops hj
        have honce := hc.once j
        rw [hj, acquired] at honce
        split at honce
        · assumption
        · cases honce
      · intro ops l hi
        simpa using ((hc.safe.sound i).at hi).1
  · intro j
    have honce := hc.once j
    rcases h.acquired_cases (hc.safe.sound i) with ⟨ho, he⟩ | ⟨ho, ho', he⟩
    · rw [ho, ← honce]
      by_cases hji : j = i
      · rw [hji, he]
      · rw [h.other hji]
    · rw [ho] at honce
      by_cases hji : j = i
      · subst hji
        rw [he, honce, ho']
        simp
      · rw [h.other hji, honce, ho']
        simp [Ne.symm hji]

theorem taken_of_reachable (h : Reachable (lab23 ι K) c) : Taken K c := by
  have hinv : Invariant (lab23 ι K) (Taken K) := by
    constructor
    · intro c hc
      refine ⟨hc.safe, fun i => ?_⟩
      rw [(hc.2.2 i).1, hc.2.1]
      exact (hc.2.2 i).2.2
    · exact fun c a d _ hc hs => hc.step (hc.safe.move hs)
  exact hinv.holds h

theorem Taken.counter (h : Taken K c) : c.shared.counter.toInt = total c := by
  have hle := h.total_le
  rw [h.safe.exact.counter, Int32.toInt_ofNat_of_lt (by omega)]

theorem SpinlockCounter.le_one (h : SpinlockCounter ι K) : Fintype.card ι * K ≤ 1 := by
  have hstart : Reachable (lab23 ι K) launched := .start launched_start
  obtain ⟨c, hr, hf⟩ : ∃ c, Reachable ((lab23 ι K).after launched) c ∧ Final c := by
    apply hstart.exists_final (work K lab23Body)
    · intro c a d hr hs
      have hc := taken_of_reachable hr
      exact (hc.safe.move hs).work_lt rfl (hc.safe.sound _) (hc.completed_lt _)
    · exact fun c hr hf => h.live c (spinning_iff.mpr hr) hf
  have hr := hstart.trans hr
  have hc := taken_of_reachable hr
  have hcount := h.final c (spinning_iff.mpr hr) hf
  rw [hc.counter] at hcount
  have hle := hc.total_le
  have hprod : ((Fintype.card ι * K : ℕ) : ℤ) = total c := by
    rw [hcount]
    exact Int.natCast_mul _ _
  omega

theorem spinlockCounter_one (hι : Fintype.card ι = 1) : SpinlockCounter ι 1 := by
  have := Fintype.card_le_one_iff_subsingleton.mp (Nat.le_of_eq hι)
  constructor
  · intro c hr hf
    have hc := taken_of_reachable (spinning_iff.mp hr)
    obtain ⟨i, hi⟩ := not_forall.mp hf
    have hsound := hc.safe.sound i
    have hcount := hsound.counting
    apply can_step (hsound.running hi)
    · intro ops hp
      have honce := hc.once i
      rw [hp] at hcount honce
      obtain ⟨hsuffix, n, hn, -, hl⟩ := hcount
      obtain rfl : ops = [.increment] := by simpa using hsuffix
      have hnone : (c.thread i).loc.completed = 0 := by
        rw [increments_lock, increments_increment] at hl
        omega
      cases ho : c.owner with
      | none => rfl
      | some j => simp [acquired, hnone, ho, Subsingleton.elim j i] at honce
    · intro ops hp
      rw [hp] at hcount
      simpa using hcount.1
  · intro c hr hf
    have hc := taken_of_reachable (spinning_iff.mp hr)
    rw [hc.counter, hc.safe.final hf]
    exact Int.natCast_mul _ _

/-- The unlock that is commented out is missed by every run but that of one thread with one iteration. -/
theorem spinlock_counter [Nonempty ι] (hK : 1 ≤ K) :
    SpinlockCounter ι K ↔ Fintype.card ι = 1 ∧ K = 1 := by
  constructor
  · intro h
    have hpos := Nat.mul_pos (Fintype.card_pos_iff.mpr ‹Nonempty ι›) hK
    have h1 : Fintype.card ι * K = 1 := Nat.le_antisymm h.le_one hpos
    exact ⟨Nat.eq_one_of_mul_eq_one_right h1, Nat.eq_one_of_mul_eq_one_left h1⟩
  · rintro ⟨hι, rfl⟩
    exact spinlockCounter_one hι

theorem spinlock_counter_alone : SpinlockCounter (Fin 1) 1 ∧ ¬ SpinlockCounter (Fin 2) 1 := by
  constructor
  · exact (spinlock_counter (Nat.le_refl 1)).mpr ⟨rfl, rfl⟩
  · intro h
    exact absurd ((spinlock_counter (Nat.le_refl 1)).mp h).1 (by decide)

theorem spinlock_counter_hangs : ¬ SpinlockCounter (Fin NUM_THREADS) NUM_ITERATIONS := by
  intro h
  exact absurd h.le_one (by decide)

end EmbeddedLinuxTraining.Counter
