import Mathlib.Algebra.BigOperators.Group.Finset.Piecewise
import Mathlib.Algebra.Order.BigOperators.Group.Finset
import Mathlib.Data.Fintype.EquivFin
import Mathlib.Tactic.Simps.Basic
import EmbeddedLinuxTraining.Library.Transition

namespace EmbeddedLinuxTraining.Library.Race

open Transition
open scoped BigOperators

structure State (ι : Type) where
  value : ℕ
  done : ι → ℕ
  read : ι → Option ℕ

/-- The values that `n` threads with `k` increments each can end with begin here. -/
def lower (n k : ℕ) : ℕ := if n ≤ 1 then n * k else min k 2

variable {ι : Type}

def State.zero : State ι := ⟨0, fun _ => 0, fun _ => none⟩

def Finished (K : ℕ) (s : State ι) : Prop := ∀ i, s.done i = K

def total [Fintype ι] (s : State ι) : ℕ := ∑ i, s.done i

structure Inv (K : ℕ) (s : State ι) : Prop where
  done_le : ∀ i, s.done i ≤ K
  done_lt : ∀ i r, s.read i = some r → s.done i < K
  read_zero : ∀ i, s.read i = some 0 → s.done i = 0
  value_zero : s.value = 0 → ∀ i, s.done i = 0
  value_one : s.value = 1 → ∃ i, s.done i = 1

variable {K : ℕ} {s t : State ι} {i : ι}

theorem Inv.zero : Inv K (.zero : State ι) := by
  constructor
  · exact fun _ => Nat.zero_le K
  · rintro i r ⟨⟩
  · exact fun _ _ => rfl
  · exact fun _ _ => rfl
  · rintro ⟨⟩

theorem total_finished [Fintype ι] (h : Finished K s) : total s = Fintype.card ι * K :=
  Finset.sum_const_nat fun i _ => h i

variable [DecidableEq ι]

@[simps]
def State.load (s : State ι) (i : ι) : State ι := { s with read := Function.update s.read i (some s.value) }

@[simps]
def State.store (s : State ι) (i : ι) (r : ℕ) : State ι :=
  ⟨r + 1, Function.update s.done i (s.done i + 1), Function.update s.read i none⟩

inductive Step (K : ℕ) (s : State ι) (i : ι) : State ι → Prop
  | load : s.read i = none → s.done i < K → Step K s i (s.load i)
  | store {r : ℕ} : s.read i = some r → Step K s i (s.store i r)

def race (ι : Type) [DecidableEq ι] (K : ℕ) : System (State ι) ι where
  init s := s = .zero
  step := Step K

theorem load_read {r : ℕ} {j : ι} (h : (s.load i).read j = some r) : j = i ∧ r = s.value ∨ s.read j = some r := by
  by_cases hj : j = i
  · rw [State.load_read, hj, Function.update_self] at h
    exact .inl ⟨hj, (Option.some.inj h).symm⟩
  · rw [State.load_read, Function.update_of_ne hj] at h
    exact .inr h

theorem store_read {r r' : ℕ} {j : ι} (h : (s.store i r).read j = some r') : j ≠ i ∧ s.read j = some r' := by
  by_cases hj : j = i
  · rw [State.store_read, hj, Function.update_self] at h
    cases h
  · rw [State.store_read, Function.update_of_ne hj] at h
    exact ⟨hj, h⟩

theorem store_done {r : ℕ} : (s.store i r).done i = s.done i + 1 := Function.update_self ..

theorem store_done_other {r : ℕ} {j : ι} (h : j ≠ i) : (s.store i r).done j = s.done j :=
  Function.update_of_ne h ..

theorem Inv.load (h : Inv K s) (hi : s.done i < K) : Inv K (s.load i) := by
  constructor
  · exact h.done_le
  · intro j r hj
    obtain ⟨rfl, -⟩ | hj := load_read hj
    · exact hi
    · exact h.done_lt j r hj
  · intro j hj
    obtain ⟨rfl, hzero⟩ | hj := load_read hj
    · exact h.value_zero hzero.symm j
    · exact h.read_zero j hj
  · exact h.value_zero
  · exact h.value_one

theorem Inv.store {r : ℕ} (h : Inv K s) (hi : s.read i = some r) : Inv K (s.store i r) := by
  have hlt := h.done_lt i r hi
  constructor
  · intro j
    by_cases hj : j = i
    · rw [hj, store_done]
      exact hlt
    · rw [store_done_other hj]
      exact h.done_le j
  · intro j r' hread
    obtain ⟨hj, hread⟩ := store_read hread
    rw [store_done_other hj]
    exact h.done_lt j r' hread
  · intro j hread
    obtain ⟨hj, hread⟩ := store_read hread
    rw [store_done_other hj]
    exact h.read_zero j hread
  · exact fun hzero => absurd hzero (Nat.succ_ne_zero r)
  · intro hone
    obtain rfl : r = 0 := Nat.succ.inj hone
    refine ⟨i, ?_⟩
    rw [store_done, h.read_zero i hi]

theorem inv_of_reachable (h : Reachable (race ι K) s) : Inv K s := by
  have hinv : Invariant (race ι K) (Inv K) := by
    constructor
    · rintro s rfl
      exact .zero
    · intro s i t _ hs hstep
      cases hstep with
      | load _ hi => exact hs.load hi
      | store hi => exact hs.store hi
  exact hinv.holds h

theorem alone [Subsingleton ι] (h : Reachable (race ι K) s) (i : ι) :
    s.value = s.done i ∧ ∀ r, s.read i = some r → r = s.value := by
  have hinv : Invariant (race ι K) fun s => s.value = s.done i ∧ ∀ r, s.read i = some r → r = s.value := by
    constructor
    · rintro s rfl
      exact ⟨rfl, by rintro r ⟨⟩⟩
    · rintro s j t - ⟨hvalue, hread⟩ hstep
      obtain rfl := Subsingleton.elim i j
      cases hstep with
      | load =>
        refine ⟨hvalue, fun r hr => ?_⟩
        obtain ⟨-, hr⟩ | hr := load_read hr
        · exact hr
        · exact hread r hr
      | @store r hi =>
        refine ⟨?_, fun r' hr' => absurd rfl (store_read hr').1⟩
        rw [store_done, ← hvalue, ← hread r hi]
        rfl
  exact hinv.holds h

section Total

theorem add_one {v : ℕ} {m : ι → ℕ} {read : ι → Option ℕ} (h : Reachable (race ι K) ⟨v, m, read⟩)
    (hread : read i = none) (hlt : m i < K) :
    Reachable (race ι K) ⟨v + 1, Function.update m i (m i + 1), read⟩ := by
  have hload := h.next (a := i) (.load hread hlt)
  have hstore := hload.next (a := i) (.store (r := v) (Function.update_self ..))
  have hback : Function.update (Function.update read i (some v)) i none = read := by
    rw [Function.update_idem, ← hread, Function.update_eq_self]
  simpa only [State.store, State.load, hback] using hstore

variable [Fintype ι]

theorem sum_update (f : ι → ℕ) (i : ι) (x : ℕ) : ∑ j, Function.update f i x j + f i = ∑ j, f j + x := by
  rw [Finset.sum_update_of_mem (Finset.mem_univ i), ← Finset.add_sum_erase _ f (Finset.mem_univ i),
    Finset.sdiff_singleton_eq_erase]
  omega

theorem total_store (s : State ι) (i : ι) (r : ℕ) : total (s.store i r) = total s + 1 := by
  have hsum := sum_update s.done i (s.done i + 1)
  simp only [total, State.store_done]
  omega

theorem value_le_total (h : Reachable (race ι K) s) :
    s.value ≤ total s ∧ ∀ i r, s.read i = some r → r ≤ total s := by
  have hinv : Invariant (race ι K) fun s => s.value ≤ total s ∧ ∀ i r, s.read i = some r → r ≤ total s := by
    constructor
    · rintro s rfl
      exact ⟨Nat.zero_le _, by rintro i r ⟨⟩⟩
    · rintro s i t - ⟨hvalue, hread⟩ hstep
      cases hstep with
      | load =>
        refine ⟨hvalue, fun j r hj => ?_⟩
        obtain ⟨-, rfl⟩ | hj := load_read hj
        · exact hvalue
        · exact hread j r hj
      | @store r hi =>
        rw [total_store]
        refine ⟨Nat.succ_le_succ (hread i r hi), fun j r' hj => ?_⟩
        exact Nat.le_succ_of_le (hread j r' (store_read hj).2)
  exact hinv.holds h

theorem value_bounds (h : Reachable (race ι K) s) (hf : Finished K s) :
    lower (Fintype.card ι) K ≤ s.value ∧ s.value ≤ Fintype.card ι * K := by
  have hinv := inv_of_reachable h
  refine ⟨?_, total_finished hf ▸ (value_le_total h).1⟩
  unfold lower
  split_ifs with hcard
  · have hsub : Subsingleton ι := Fintype.card_le_one_iff_subsingleton.mp hcard
    cases isEmpty_or_nonempty ι with
    | inl hempty => simp
    | inr hne =>
      obtain ⟨i⟩ := hne
      have hone : Fintype.card ι = 1 := Nat.le_antisymm hcard (Fintype.card_pos_iff.mpr ⟨i⟩)
      rw [hone, Nat.one_mul, (alone h i).1, hf i]
  · obtain ⟨i⟩ : Nonempty ι := Fintype.card_pos_iff.mp (by omega)
    -- zero and one are left only where nobody has a second increment
    by_contra hlt
    obtain hzero | hone : s.value = 0 ∨ s.value = 1 := by omega
    · have hK := hinv.value_zero hzero i
      rw [hf i] at hK
      omega
    · obtain ⟨j, hj⟩ := hinv.value_one hone
      rw [hf j] at hj
      omega

theorem exists_choice {n : ℕ} (cap : ι → ℕ) (h : n ≤ ∑ i, cap i) : ∃ m : ι → ℕ, (∀ i, m i ≤ cap i) ∧ ∑ i, m i = n := by
  induction n with
  | zero => exact ⟨fun _ => 0, fun _ => Nat.zero_le _, Finset.sum_const_zero⟩
  | succ n ih =>
    obtain ⟨m, hle, hsum⟩ := ih (Nat.le_of_succ_le h)
    have hlt : ∑ i, m i < ∑ i, cap i := by omega
    obtain ⟨i, -, hi⟩ := Finset.exists_lt_of_sum_lt hlt
    refine ⟨Function.update m i (m i + 1), fun j => ?_, ?_⟩
    · by_cases hj : j = i
      · rw [hj, Function.update_self]
        exact hi
      · rw [Function.update_of_ne hj]
        exact hle j
    · have hupdate := sum_update m i (m i + 1)
      omega

theorem add_all {v : ℕ} {m : ι → ℕ} {read : ι → Option ℕ} (n : ι → ℕ)
    (h : Reachable (race ι K) ⟨v, m, read⟩) (hread : ∀ i, 0 < n i → read i = none) (hle : ∀ i, m i + n i ≤ K) :
    Reachable (race ι K) ⟨v + ∑ i, n i, fun i => m i + n i, read⟩ := by
  generalize hx : ∑ i, n i = x
  induction x generalizing v m n with
  | zero =>
    have hzero : ∀ i, n i = 0 := fun i => Finset.sum_eq_zero_iff.mp hx i (Finset.mem_univ i)
    simpa only [hzero, Nat.add_zero] using h
  | succ x ih =>
    obtain ⟨i, -, hi⟩ := Finset.exists_ne_zero_of_sum_ne_zero (hx.trans_ne (Nat.succ_ne_zero x))
    have hlt : m i < K := by
      have hbound := hle i
      omega
    have hstep := add_one h (hread i (Nat.pos_of_ne_zero hi)) hlt
    have hupdate := sum_update n i (n i - 1)
    have hrun := ih (Function.update n i (n i - 1)) hstep ?_ ?_ (by omega)
    · have hdone : (fun j => Function.update m i (m i + 1) j + Function.update n i (n i - 1) j) =
          fun j => m j + n j := by
        funext j
        by_cases hj : j = i
        · subst hj
          simp only [Function.update_self]
          omega
        · simp only [Function.update_of_ne hj]
      rw [hdone, Nat.add_right_comm] at hrun
      exact hrun
    · intro j hj
      apply hread j
      by_cases hji : j = i
      · rw [hji]
        exact Nat.pos_of_ne_zero hi
      · rwa [Function.update_of_ne hji] at hj
    · intro j
      have hbound := hle j
      by_cases hj : j = i
      · subst hj
        simp only [Function.update_self]
        omega
      · simp only [Function.update_of_ne hj]
        exact hbound

def Rested (K : ℕ) (v : ℕ) (m : ι → ℕ) : Prop := Reachable (race ι K) ⟨v, m, fun _ => none⟩

theorem Rested.add {v : ℕ} {m : ι → ℕ} (h : Rested K v m) (n m' : ι → ℕ) (hle : ∀ i, m i + n i ≤ K)
    (hm' : ∀ i, m i + n i = m' i) : Rested K (v + ∑ i, n i) m' := by
  have hrun := add_all n h (fun _ _ => rfl) hle
  rwa [funext hm'] at hrun

theorem Rested.waste {v : ℕ} {m : ι → ℕ} (h : Rested K v m) (i : ι) (n m' : ι → ℕ) (hi : m i < K)
    (hni : n i = 0) (hle : ∀ j, m j + n j ≤ K) (hm' : ∀ j, m j + n j + (if j = i then 1 else 0) = m' j) :
    Rested K (v + 1) m' := by
  have hload := h.next (a := i) (.load rfl hi)
  have hrun := add_all n hload (fun j hj => ?_) hle
  · have hstore := hrun.next (a := i) (.store (r := v) (Function.update_self ..))
    have hback : Function.update (Function.update (fun _ => none) i (some v)) i none = fun _ => none := by
      rw [Function.update_idem, Function.update_eq_self_iff]
    have hdone : Function.update (fun j => m j + n j) i (m i + n i + 1) = m' := by
      funext j
      rw [← hm' j]
      by_cases hj : j = i
      · rw [hj, Function.update_self, if_pos rfl]
      · rw [Function.update_of_ne hj, if_neg hj, Nat.add_zero]
    rw [State.store, hback, hdone] at hstore
    exact hstore
  · have hne : j ≠ i := by
      rintro rfl
      omega
    exact Function.update_of_ne hne ..

theorem rested_zero (ι : Type) [DecidableEq ι] (K : ℕ) : Rested K 0 (fun _ : ι => 0) := .start rfl

theorem sum_card (ι : Type) [Fintype ι] (k : ℕ) : ∑ _i : ι, k = Fintype.card ι * k :=
  Finset.sum_const_nat fun _ _ => rfl

theorem rested_all (ι : Type) [DecidableEq ι] [Fintype ι] (K : ℕ) : Rested K (Fintype.card ι * K) (fun _ : ι => K) := by
  have hrun := (rested_zero ι K).add (fun _ => K) (fun _ => K) (fun _ => Nat.le_of_eq (Nat.zero_add K))
    (fun _ => Nat.zero_add K)
  rwa [Nat.zero_add, sum_card] at hrun

theorem rested_single {v : ℕ} (i : ι) (hv : 1 ≤ v) (hle : v ≤ Fintype.card ι) : Rested 1 v (fun _ : ι => 1) := by
  have hcap := sum_update (fun _ => 1) i 0
  rw [sum_card] at hcap
  obtain ⟨m, hm, hsum⟩ := exists_choice (n := v - 1) (Function.update (fun _ => 1) i 0) (by omega)
  have hone (j : ι) : m j ≤ 1 := (hm j).trans (by by_cases hj : j = i <;> simp [hj])
  have hmi : m i = 0 := Nat.le_zero.mp ((hm i).trans_eq (Function.update_self ..))
  have hfirst := (rested_zero ι 1).waste i (fun j => if j = i then 0 else 1 - m j) (fun j => 1 - m j)
    (by decide) (if_pos rfl) ?_ ?_
  · have hrun := hfirst.add m (fun _ => 1) ?_ ?_
    · rwa [hsum, show 0 + 1 + (v - 1) = v by omega] at hrun
    · intro j
      have hj := hone j
      omega
    · intro j
      have hj := hone j
      omega
  · intro j
    split_ifs <;> omega
  · intro j
    split_ifs with hj
    · rw [hj, hmi]
    · omega

theorem rested_double {v : ℕ} {i i' : ι} (hne : i ≠ i') (hK : 2 ≤ K) (hv : 2 ≤ v) (hle : v ≤ Fintype.card ι * K) :
    Rested K v (fun _ : ι => K) := by
  have hcap := sum_update (fun _ => K) i (K - 1)
  have hcap' := sum_update (Function.update (fun _ => K) i (K - 1)) i' (K - 1)
  rw [sum_card] at hcap
  rw [Function.update_of_ne hne.symm] at hcap'
  obtain ⟨m, hm, hsum⟩ := exists_choice (n := v - 2)
    (Function.update (Function.update (fun _ => K) i (K - 1)) i' (K - 1)) (by omega)
  have hall (j : ι) : m j ≤ K := (hm j).trans (by by_cases hj : j = i <;> by_cases hj' : j = i' <;> simp [*])
  have hmi : m i ≤ K - 1 := (hm i).trans_eq (by simp [hne])
  have hmi' : m i' ≤ K - 1 := (hm i').trans_eq (Function.update_self ..)
  -- what `i'` does at first is kept, and what the others do before the write of `i` is lost
  have hfirst := (rested_zero ι K).add (fun j => if j = i' then m i' else 0) (fun j => if j = i' then m i' else 0)
    ?_ (fun j => Nat.zero_add _)
  · rw [Finset.sum_ite_eq' Finset.univ i', if_pos (Finset.mem_univ i')] at hfirst
    have hsecond := hfirst.waste i (fun j => if j = i then 0 else if j = i' then K - 1 - m i' else K - m j)
      (fun j => if j = i then 1 else if j = i' then K - 1 else K - m j) ?_ (if_pos rfl) ?_ ?_
    · -- what `i` does before the last write of `i'` is lost as well
      have hthird := hsecond.waste i' (fun j => if j = i then K - 1 - m i else 0)
        (fun j => if j = i' then K else K - m j) ?_ (if_neg hne.symm) ?_ ?_
      · have hrest := sum_update m i' 0
        have hlast := hthird.add (Function.update m i' 0) (fun _ => K) ?_ ?_
        · rwa [show 0 + m i' + 1 + 1 + ∑ j, Function.update m i' 0 j = v by omega] at hlast
        · intro j
          have hj := hall j
          by_cases hj' : j = i'
          · simp [hj']
          · simp [hj']
            omega
        · intro j
          have hj := hall j
          by_cases hj' : j = i'
          · simp [hj']
          · simp [hj']
            omega
      · rw [if_neg hne.symm, if_pos rfl]
        omega
      · intro j
        have hj := hall j
        split_ifs <;> omega
      · intro j
        have hj := hall j
        split_ifs <;> simp_all <;> omega
    · rw [if_neg hne]
      omega
    · intro j
      have hj := hall j
      split_ifs <;> omega
    · intro j
      split_ifs <;> simp_all
  · intro j
    have hj := hall i'
    split_ifs <;> omega

theorem outcomes {v : ℕ} : (∃ s, Reachable (race ι K) s ∧ Finished K s ∧ s.value = v) ↔
    lower (Fintype.card ι) K ≤ v ∧ v ≤ Fintype.card ι * K := by
  constructor
  · rintro ⟨s, hs, hf, rfl⟩
    exact value_bounds hs hf
  · rintro ⟨hlower, hupper⟩
    have rested (h : Rested K v (fun _ : ι => K)) :
        ∃ s, Reachable (race ι K) s ∧ Finished K s ∧ s.value = v := ⟨_, h, fun _ => rfl, rfl⟩
    unfold lower at hlower
    split_ifs at hlower with hcard
    · rw [Nat.le_antisymm hupper hlower] at rested ⊢
      exact rested (rested_all ι K)
    · obtain ⟨i, i', hne⟩ := Fintype.exists_pair_of_one_lt_card (Nat.not_le.mp hcard)
      obtain rfl | rfl | hK : K = 0 ∨ K = 1 ∨ 2 ≤ K := by omega
      · rw [Nat.mul_zero, Nat.le_zero] at hupper
        rw [hupper] at rested ⊢
        exact rested (rested_zero ι 0)
      · exact rested (rested_single i hlower (by omega))
      · exact rested (rested_double hne hK (by omega) hupper)

end Total

end EmbeddedLinuxTraining.Library.Race
