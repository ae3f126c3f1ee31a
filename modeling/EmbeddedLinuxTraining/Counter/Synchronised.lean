import Mathlib.Algebra.Order.BigOperators.Group.Finset
import EmbeddedLinuxTraining.Counter.Counting

namespace EmbeddedLinuxTraining.Counter

open Library Library.Pthread Library.Transition
open Library.Pthread.Config
open scoped BigOperators

variable {ι : Type} {K : ℕ} {body : List Op} {c d : Cfg ι} {i : ι} {a : Label ι Unit}

def progress (c : Cfg ι) (i : ι) : ℕ := (c.thread i).loc.completed

structure Safe [Fintype ι] (K : ℕ) (body : List Op) (c : Cfg ι) : Prop where
  sound : ∀ i, Sound K body (c.thread i)
  exact : Exact c

section

variable [Fintype ι]

theorem Start.safe (h : Start c) : Safe K body c := by
  obtain ⟨hs, -, ht⟩ := h
  constructor
  · intro i
    obtain ⟨hp, hm, hl⟩ := ht i
    refine ⟨.inl hm, ?_⟩
    rw [hp]
    exact hl
  · constructor
    · rw [hs, show total c = 0 from Finset.sum_eq_zero fun i _ => (ht i).2.2]
      rfl
    · intro i ops hi
      rw [(ht i).1] at hi
      cases hi

theorem Safe.not_woken (h : Safe K body c) (i : ι) : (c.thread i).mode ≠ .woken := by
  rcases (h.sound i).mode with hm | ⟨hm, -⟩
  · rw [hm]
    simp
  · rw [hm]
    simp

theorem Safe.completed_lt (hK : Fintype.card ι * K < 2 ^ 31) (h : Safe K body c) (i : ι) :
    (c.thread i).loc.completed < 2 ^ 31 := by
  have hle := (h.sound i).counting.completed_le
  have hcard := Nat.le_mul_of_pos_left K (Fintype.card_pos_iff.mpr ⟨i⟩)
  omega

theorem Safe.final (h : Safe K body c) (hf : Final c) : total c = Fintype.card ι * K := by
  have hdone : ∀ i, (c.thread i).loc.completed = K := by
    intro i
    rcases (h.sound i).mode with hm | ⟨-, hp⟩
    · rw [hf i] at hm
      cases hm
    · have hc := (h.sound i).counting
      rw [hp] at hc
      exact hc
  exact Finset.sum_const_nat fun i _ => hdone i

end

variable [DecidableEq ι]

def tally (ι : Type) [DecidableEq ι] (K : ℕ) : System (ι → ℕ) ι where
  init t := ∀ i, t i = 0
  step t i u := t i < K ∧ u = Function.update t i (t i + 1)

theorem tally_le {t : ι → ℕ} (h : Reachable (tally ι K) t) (i : ι) : t i ≤ K := by
  have hinv : Invariant (tally ι K) fun t => ∀ i, t i ≤ K := by
    constructor
    · intro t ht i
      rw [ht i]
      exact Nat.zero_le K
    · rintro t j _ - ih ⟨hlt, rfl⟩ i
      by_cases hi : i = j
      · rw [hi, Function.update_self]
        exact hlt
      · rw [Function.update_of_ne hi]
        exact ih i
  exact hinv.holds h i

theorem tally_sum_le [Fintype ι] {t : ι → ℕ} (h : Reachable (tally ι K) t) :
    ∑ i, t i ≤ Fintype.card ι * K :=
  Finset.sum_le_card_nsmul _ _ _ fun i _ => tally_le h i

structure Synchronised [Fintype ι] (K : ℕ) (S : System (Cfg ι) (Label ι Unit)) : Prop where
  exact : ∀ c, Reachable S c → c.shared.counter.toInt = total c
  refines : ∀ c, Reachable S c → Reachable (tally ι K) (progress c)
  free : ∀ c, Reachable S c → ¬ Final c → ∃ a d, S.step c a d
  final : ∀ c, Reachable S c → Final c → c.shared.counter.toInt = Fintype.card ι * K
  ends : ∀ c, Reachable S c → ∃ d, Reachable (S.after c) d ∧ Final d

def outcomes (S : System (Cfg ι) (Label ι Unit)) (v : ℤ) : Prop :=
  ∃ c, Reachable S c ∧ Final c ∧ c.shared.counter.toInt = v

def inside : Point → Prop
  | .body [.increment, .unlock] | .body [.unlock] | .store _ => True
  | _ => False

theorem Move.inside_cases (hc : Sound K lab22Body (c.thread i)) (h : Move K lab22Body c i d) :
    (d.owner = c.owner ∧ (inside (d.thread i).pc ↔ inside (c.thread i).pc)) ∨
      (c.owner = none ∧ d.owner = some i ∧ inside (d.thread i).pc) ∨
      (c.owner = some i ∧ d.owner = none ∧ ¬ inside (d.thread i).pc) := by
  cases h with
  | init hi | enter hi | leave hi | next hi =>
    refine .inl ⟨rfl, ?_⟩
    rw [hi.thread, (goto_at ..).thread]
    rfl
  | ret hi =>
    refine .inl ⟨rfl, ?_⟩
    rw [hi.thread, move_self]
  | @lock _ ops hi ho =>
    obtain rfl : ops = [.increment, .unlock] := by simpa using (hc.at hi).1
    refine .inr (.inl ⟨ho, rfl, ?_⟩)
    rw [(goto_at ..).thread]
    trivial
  | @unlock _ ops hi ho =>
    obtain rfl : ops = [] := by simpa using (hc.at hi).1
    refine .inr (.inr ⟨ho, rfl, ?_⟩)
    rw [(goto_at ..).thread]
    exact not_false
  | @load _ ops hi =>
    obtain rfl : ops = [.unlock] := by simpa using (hc.at hi).1
    refine .inl ⟨rfl, ?_⟩
    rw [hi.thread, (goto_at ..).thread]
    rfl
  | @store _ ops hi =>
    obtain rfl : ops = [.unlock] := by simpa using (hc.at hi).1
    refine .inl ⟨rfl, ?_⟩
    rw [hi.thread, (goto_at ..).thread]
    rfl
  | fetchAdd hi =>
    have hsuffix := (hc.at hi).1
    simp at hsuffix

variable [Fintype ι]

theorem Safe.move (h : Safe K body c) (hs : (threads ι K body).step c a d) :
    Move K body c a.actor d := Move.of_step hs h.not_woken

theorem Safe.step (hK : Fintype.card ι * K < 2 ^ 31) (hb : increments body = 1) (hc : Safe K body c)
    (h : Move K body c i d)
    (hx : ∀ j ops, j ≠ i → (c.thread j).pc = .store ops → d.shared = c.shared) : Safe K body d where
  sound := h.sound hb hc.sound (hc.completed_lt hK)
  exact := hc.exact.step h hx

theorem Safe.tick (hd : Safe K body d) (h : Move K body c i d) :
    progress d = progress c ∨ ∃ b, (tally ι K).step (progress c) b (progress d) := by
  have hother : ∀ j, j ≠ i → progress d j = progress c j := by
    intro j hj
    rw [progress, h.other hj]
    rfl
  rcases h.shared_cases with ⟨-, hl⟩ | ⟨hl, -⟩
  · refine .inl (funext fun j => ?_)
    by_cases hj : j = i
    · rw [hj]
      exact hl
    · exact hother j hj
  · have hle := (hd.sound i).counting.completed_le
    refine .inr ⟨i, ?_, Function.eq_update_iff.mpr ⟨hl, hother⟩⟩
    rw [progress]
    omega

theorem synchronised_of_safe (hK : Fintype.card ι * K < 2 ^ 31) (hb : increments body = 1)
    (hsafe : ∀ c, Reachable (threads ι K body) c → Safe K body c)
    (hfree : ∀ c, Reachable (threads ι K body) c → ¬ Final c → ∃ a d, (threads ι K body).step c a d) :
    Synchronised K (threads ι K body) := by
  have hrefines : ∀ c, Reachable (threads ι K body) c → Reachable (tally ι K) (progress c) := by
    intro c hc
    apply hc.refine progress
    · exact fun c h i => (h.2.2 i).2.2
    · exact fun c a d hr hs => (hsafe d (hr.next hs)).tick ((hsafe c hr).move hs)
  have hexact : ∀ c, Reachable (threads ι K body) c → c.shared.counter.toInt = total c := by
    intro c hc
    have hle : total c ≤ Fintype.card ι * K := tally_sum_le (hrefines c hc)
    rw [(hsafe c hc).exact.counter, Int32.toInt_ofNat_of_lt (by omega)]
  constructor
  · exact hexact
  · exact hrefines
  · exact hfree
  · intro c hc hf
    rw [hexact c hc, (hsafe c hc).final hf]
    exact Int.natCast_mul _ _
  · intro c hc
    apply hc.exists_final (work K body) _ hfree
    intro c a d hr hs
    have hc := hsafe c hr
    exact (hc.move hs).work_lt hb (hc.sound _) (hc.completed_lt hK _)

structure Guarded (K : ℕ) (c : Cfg ι) : Prop where
  safe : Safe K lab22Body c
  held : ∀ i, c.owner = some i ↔ inside (c.thread i).pc

theorem Guarded.step (hK : Fintype.card ι * K < 2 ^ 31) (hc : Guarded K c) (h : Move K lab22Body c i d) :
    Guarded K d := by
  have hstore : ∀ j ops, (c.thread j).pc = .store ops → c.owner = some j := by
    intro j ops hj
    rw [hc.held, hj]
    trivial
  constructor
  · apply hc.safe.step hK rfl h
    apply h.shared_of_held hstore
    intro ops l hi
    simpa using ((hc.safe.sound i).at hi).1
  · intro j
    by_cases hji : j = i
    · subst hji
      rcases h.inside_cases (hc.safe.sound j) with ⟨ho, hin⟩ | ⟨-, ho, hin⟩ | ⟨-, ho, hout⟩
      · rw [ho, hin]
        exact hc.held j
      · simp [ho, hin]
      · simp [ho, hout]
    · rw [h.other hji, ← hc.held j]
      rcases h.inside_cases (hc.safe.sound i) with ⟨ho, -⟩ | ⟨ho, ho', -⟩ | ⟨ho, ho', -⟩
      · rw [ho]
      · simp [ho, ho', Ne.symm hji]
      · simp [ho, ho', Ne.symm hji]

theorem Guarded.free (hc : Guarded K c) (hf : ¬ Final c) :
    ∃ a d, Step (incrementCounter K lab22Body) c a d := by
  cases ho : c.owner with
  | some i =>
    -- the owner is inside, so that it is neither at the lock nor kept from the unlock
    have hin := (hc.held i).mp ho
    have hi : (c.thread i).mode ≠ .returned := by
      intro hm
      rcases (hc.safe.sound i).mode with hm' | ⟨-, hp⟩
      · rw [hm] at hm'
        cases hm'
      · rw [hp] at hin
        exact hin
    apply can_step ((hc.safe.sound i).running hi)
    · intro ops hp
      rw [hp] at hin
      exact absurd hin not_false
    · intro ops _
      exact ho
  | none =>
    obtain ⟨i, hi⟩ := not_forall.mp hf
    have hat := (hc.safe.sound i).running hi
    apply can_step hat
    · intro ops _
      exact ho
    · intro ops hp
      rw [hp] at hat
      obtain rfl : ops = [] := by simpa using ((hc.safe.sound i).at hat).1
      apply (hc.held i).mpr
      rw [hp]
      trivial

theorem guarded_of_reachable (hK : Fintype.card ι * K < 2 ^ 31) (h : Reachable (lab22 ι K) c) :
    Guarded K c := by
  have hinv : Invariant (lab22 ι K) (Guarded K) := by
    constructor
    · intro c hc
      refine ⟨hc.safe, fun i => ?_⟩
      rw [hc.2.1, (hc.2.2 i).1]
      exact ⟨fun h => absurd h.symm (Option.some_ne_none i), False.elim⟩
    · exact fun c a d _ hc hs => hc.step hK (hc.safe.move hs)
  exact hinv.holds h

theorem lab22_synchronised (hK : Fintype.card ι * K < 2 ^ 31) : Synchronised K (lab22 ι K) := by
  apply synchronised_of_safe hK rfl
  · exact fun c hc => (guarded_of_reachable hK hc).safe
  · exact fun c hc hf => (guarded_of_reachable hK hc).free hf

theorem lab24_safe (hK : Fintype.card ι * K < 2 ^ 31) (h : Reachable (lab24 ι K) c) :
    Safe K lab24Body c := by
  have hinv : Invariant (lab24 ι K) (Safe K lab24Body) := by
    constructor
    · exact fun c hc => hc.safe
    · intro c a d _ hc hs
      apply hc.step hK rfl (hc.move hs)
      intro j ops _ hj
      have hcount := (hc.sound j).counting
      rw [hj] at hcount
      simpa using hcount.1
  exact hinv.holds h

theorem lab24_free (hK : Fintype.card ι * K < 2 ^ 31) (h : Reachable (lab24 ι K) c) (hf : ¬ Final c) :
    ∃ a d, Step (incrementCounter K lab24Body) c a d := by
  obtain ⟨i, hi⟩ := not_forall.mp hf
  have hsound := (lab24_safe hK h).sound i
  have hcount := hsound.counting
  apply can_step (hsound.running hi)
  · intro ops hp
    rw [hp] at hcount
    simpa using hcount.1
  · intro ops hp
    rw [hp] at hcount
    simpa using hcount.1

theorem lab24_synchronised (hK : Fintype.card ι * K < 2 ^ 31) : Synchronised K (lab24 ι K) :=
  synchronised_of_safe hK rfl (fun _ => lab24_safe hK) fun _ => lab24_free hK

theorem Synchronised.outcome {body : List Op} (h : Synchronised K (threads ι K body)) (v : ℤ) :
    outcomes (threads ι K body) v ↔ v = Fintype.card ι * K := by
  constructor
  · rintro ⟨c, hr, hf, rfl⟩
    exact h.final c hr hf
  · rintro rfl
    have hstart : Reachable (threads ι K body) launched := .start launched_start
    obtain ⟨c, hr, hf⟩ := h.ends launched hstart
    exact ⟨c, hstart.trans hr, hf, h.final c (hstart.trans hr) hf⟩

/-- The mutex and the atomic addition come to the same: every increment arrives, no thread hangs, and
the counter ends at `N * K` whatever the interleaving. -/
theorem synchronised_counters (hK : Fintype.card ι * K < 2 ^ 31) :
    Synchronised K (lab22 ι K) ∧ Synchronised K (lab24 ι K) ∧
      ∀ v, (outcomes (lab22 ι K) v ↔ v = Fintype.card ι * K) ∧
        (outcomes (lab24 ι K) v ↔ outcomes (lab22 ι K) v) := by
  refine ⟨lab22_synchronised hK, lab24_synchronised hK, fun v => ?_⟩
  have h22 := (lab22_synchronised hK).outcome v
  have h24 := (lab24_synchronised hK).outcome v
  exact ⟨h22, h24.trans h22.symm⟩

theorem synchronised_counters_main :
    Fintype.card (Fin NUM_THREADS) * NUM_ITERATIONS < 2 ^ 31 ∧
      ∀ v, outcomes (lab22 (Fin NUM_THREADS) NUM_ITERATIONS) v ↔ v = 100000 := by
  have hK : Fintype.card (Fin NUM_THREADS) * NUM_ITERATIONS < 2 ^ 31 := by decide
  refine ⟨hK, fun v => ?_⟩
  exact ((synchronised_counters hK).2.2 v).1

end EmbeddedLinuxTraining.Counter
