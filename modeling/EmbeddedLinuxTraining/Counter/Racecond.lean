import EmbeddedLinuxTraining.Counter.Counting
import EmbeddedLinuxTraining.Library.Race
import EmbeddedLinuxTraining.Library.Solo

namespace EmbeddedLinuxTraining.Counter

open Library Library.Pthread Library.Transition
open Library.Pthread.Config
open Library.Race (race lower)

def lab21Body : List Op := [.increment]

abbrev lab21 (ι : Type) [DecidableEq ι] (K : ℕ) : System (Cfg ι) (Label ι Unit) := threads ι K lab21Body

theorem suffix_lab21Body {ops : List Op} : ops <:+ lab21Body ↔ ops = [.increment] ∨ ops = [] := by
  simp [lab21Body, List.suffix_cons_iff]

inductive Agrees : Thread Locals Empty Point → ℕ → Option ℕ → Prop
  | store {ops : List Op} {l : Locals} {m : Mode Empty} {r : ℕ} : l.loaded = .ofNat r →
      Agrees ⟨.store ops, l, m⟩ l.completed (some r)
  | other {p : Point} {l : Locals} {m : Mode Empty} : (∀ ops, p ≠ .store ops) → Agrees ⟨p, l, m⟩ l.completed none

inductive Parked : Thread Locals Empty Point → ℕ → Option ℕ → Prop
  | init {l : Locals} : l.completed = 0 → Parked ⟨.init, l, .running⟩ 0 none
  | test {l : Locals} : l.i = .ofNat l.completed → Parked ⟨.test, l, .running⟩ l.completed none
  | store {l : Locals} {r : ℕ} : l.i = .ofNat l.completed → l.loaded = .ofNat r →
      Parked ⟨.store [], l, .running⟩ l.completed (some r)

structure Matches {ι : Type} (R : Thread Locals Empty Point → ℕ → Option ℕ → Prop) (c : Cfg ι)
    (s : Race.State ι) : Prop where
  counter : c.shared.counter = .ofNat s.value
  thread : ∀ i, R (c.thread i) (s.done i) (s.read i)

variable {ι : Type} {R : Thread Locals Empty Point → ℕ → Option ℕ → Prop} {K : ℕ} {c d : Cfg ι}
  {s : Race.State ι} {i : ι}

theorem Agrees.of_at {p : Point} {l : Locals} (h : Matches Agrees c s) (hi : c.At i p l)
    (hp : ∀ ops, p ≠ .store ops) : s.read i = none ∧ s.done i = l.completed := by
  have hagrees := h.thread i
  rw [hi.thread] at hagrees
  generalize s.done i = n, s.read i = read at hagrees
  cases hagrees with
  | store => exact absurd rfl (hp _)
  | other => exact ⟨rfl, rfl⟩

variable [DecidableEq ι]

theorem Matches.keep (h : Matches R c s) (hs : d.shared.counter = c.shared.counter) (hi : R (d.thread i) (s.done i) (s.read i))
    (hother : ∀ j, j ≠ i → d.thread j = c.thread j) : Matches R d s := by
  constructor
  · rw [hs]
    exact h.counter
  · intro j
    by_cases hj : j = i
    · rw [hj]
      exact hi
    · rw [hother j hj]
      exact h.thread j

theorem Matches.load (h : Matches R c s) (hs : d.shared.counter = c.shared.counter)
    (hi : R (d.thread i) (s.done i) (some s.value)) (hother : ∀ j, j ≠ i → d.thread j = c.thread j) :
    Matches R d (s.load i) := by
  constructor
  · rw [hs]
    exact h.counter
  · intro j
    by_cases hj : j = i
    · rw [hj, Race.State.load_read, Function.update_self]
      exact hi
    · rw [hother j hj, Race.State.load_read, Function.update_of_ne hj]
      exact h.thread j

theorem Matches.store {r : ℕ} (h : Matches R c s) (hs : d.shared.counter = .ofNat (r + 1))
    (hi : R (d.thread i) (s.done i + 1) none) (hother : ∀ j, j ≠ i → d.thread j = c.thread j) :
    Matches R d (s.store i r) := by
  constructor
  · exact hs
  · intro j
    by_cases hj : j = i
    · rw [hj, Race.store_done, Race.State.store_read, Function.update_self]
      exact hi
    · rw [hother j hj, Race.store_done_other hj, Race.State.store_read, Function.update_of_ne hj]
      exact h.thread j

theorem Move.race (hsound : Sound K lab21Body (c.thread i)) (h : Matches Agrees c s) (hm : Move K lab21Body c i d) :
    ∃ t, (t = s ∨ Race.Step K s i t) ∧ Matches Agrees d t := by
  have hother : ∀ j, j ≠ i → d.thread j = c.thread j := fun j hj => hm.other hj
  have stay {p q : Point} {l l' : Locals} {m : Mode Empty} (hi : c.At i p l) (hd : d.thread i = ⟨q, l', m⟩)
      (hs : d.shared.counter = c.shared.counter) (hl : l'.completed = l.completed) (hp : ∀ ops, p ≠ .store ops)
      (hq : ∀ ops, q ≠ .store ops) : ∃ t, (t = s ∨ Race.Step K s i t) ∧ Matches Agrees d t := by
    obtain ⟨hread, hdone⟩ := Agrees.of_at h hi hp
    refine ⟨s, .inl rfl, h.keep hs ?_ hother⟩
    rw [hd, hread, hdone, ← hl]
    exact .other hq
  cases hm with
  | init hi | next hi | enter hi | leave hi | lock hi | unlock hi =>
    exact stay hi (goto_at ..).thread rfl rfl (by simp) (by simp)
  | ret hi => exact stay hi (move_self ..) rfl rfl (by simp) (by simp)
  | @load l ops hi =>
    obtain ⟨hread, hdone⟩ := Agrees.of_at h hi (by simp)
    obtain ⟨-, n, hn, -, hcount⟩ := hsound.at hi
    rw [increments_increment] at hcount
    refine ⟨_, .inr (.load hread (by omega)), h.load rfl ?_ hother⟩
    rw [(goto_at ..).thread, hdone]
    exact .store h.counter
  | @store l ops hi =>
    have hagrees := h.thread i
    rw [hi.thread] at hagrees
    generalize hdone : s.done i = n, hread : s.read i = read at hagrees
    cases hagrees with
    | other hp => exact absurd rfl (hp ops)
    | @store _ _ _ r hloaded =>
      refine ⟨_, .inr (.store hread), h.store ?_ ?_ hother⟩
      · rw [Int32.ofNat_add, ← hloaded]
        rfl
      · rw [hdone]
        have hself : (c.goto i (.body ops) { l with completed := l.completed + 1 }).thread i = _ := goto_at ..
        rw [hself]
        exact .other (by simp)
  | fetchAdd hi =>
    obtain ⟨hsuffix, -⟩ := hsound.at hi
    simp [suffix_lab21Body] at hsuffix

structure Racing (K : ℕ) (c : Cfg ι) : Prop where
  sound : ∀ i, Sound K lab21Body (c.thread i)
  run : ∃ s, Reachable (race ι K) s ∧ Matches Agrees c s

theorem Start.racing (h : Start c) : Racing K c := by
  obtain ⟨hs, -, ht⟩ := h
  constructor
  · intro i
    obtain ⟨hp, hm, hl⟩ := ht i
    refine ⟨.inl hm, ?_⟩
    rw [hp]
    exact hl
  · refine ⟨.zero, .start rfl, hs, fun i => ?_⟩
    obtain ⟨hp, hm, hl⟩ := ht i
    have hthread : c.thread i = ⟨.init, (c.thread i).loc, .running⟩ := by rw [← hp, ← hm]
    have hagrees : Agrees ⟨.init, (c.thread i).loc, .running⟩ (c.thread i).loc.completed none := .other (by simp)
    rw [← hthread, hl] at hagrees
    exact hagrees

theorem Racing.not_woken (h : Racing K c) (i : ι) : (c.thread i).mode ≠ .woken := by
  rcases (h.sound i).mode with hm | ⟨hm, -⟩
  · rw [hm]
    simp
  · rw [hm]
    simp

theorem Racing.completed_lt [Fintype ι] (hK : Fintype.card ι * K < 2 ^ 31) (h : Racing K c) (i : ι) :
    (c.thread i).loc.completed < 2 ^ 31 := by
  have hle := (h.sound i).counting.completed_le
  have hcard := Nat.le_mul_of_pos_left K (Fintype.card_pos_iff.mpr ⟨i⟩)
  omega

theorem racing_of_reachable [Fintype ι] (hK : Fintype.card ι * K < 2 ^ 31) (h : Reachable (lab21 ι K) c) :
    Racing K c := by
  have hinv : Invariant (lab21 ι K) (Racing K) := by
    constructor
    · exact fun c hc => hc.racing
    · intro c a d _ hc hstep
      have hmove := Move.of_step hstep hc.not_woken
      obtain ⟨s, hs, hmatches⟩ := hc.run
      obtain ⟨t, ht, hd⟩ := hmove.race (hc.sound _) hmatches
      refine ⟨fun j => hmove.sound rfl hc.sound (hc.completed_lt hK) j, t, ?_, hd⟩
      obtain rfl | ht := ht
      · exact hs
      · exact hs.next ht
  exact hinv.holds h

theorem Racing.finished (h : Racing K c) (hf : Final c) :
    ∃ s, Reachable (race ι K) s ∧ Race.Finished K s ∧ c.shared.counter = .ofNat s.value := by
  obtain ⟨s, hs, hmatches⟩ := h.run
  refine ⟨s, hs, fun i => ?_, hmatches.counter⟩
  rcases (h.sound i).mode with hm | ⟨-, hp⟩
  · rw [hf i] at hm
    cases hm
  · have hcounting := (h.sound i).counting
    rw [hp] at hcounting
    have hagrees := hmatches.thread i
    have hthread : c.thread i = ⟨.done, (c.thread i).loc, (c.thread i).mode⟩ := by rw [← hp]
    rw [hthread] at hagrees
    generalize s.done i = n, s.read i = read at hagrees
    cases hagrees with
    | other => exact hcounting

theorem alone {l : Locals} {p : Point} (k : ℕ) (q : Point) (l' : Locals) (x : Int32) (hc : Reachable (lab21 ι K) c)
    (hi : c.At i p l)
    (hrun : ∀ owner : Option ι, soloRun (incrementCounter K lab21Body) () i k ⟨c.shared, owner, p, l⟩ =
      some ⟨⟨x⟩, owner, q, l'⟩) :
    ∃ d, Reachable (lab21 ι K) d ∧ d.shared.counter = x ∧ d.At i q l' ∧ ∀ j, j ≠ i → d.thread j = c.thread j := by
  have hawake : ∀ j (k : Empty), (c.thread j).mode ≠ .blocked k := by
    rintro j ⟨⟩
  obtain ⟨d, hd, hsolo⟩ := reachable_of_soloRun hc hawake hi (hrun c.owner)
  exact ⟨d, hd, congrArg Shared.counter hsolo.shared, hsolo.self, hsolo.others⟩

theorem parked_of_race (hK : K < 2 ^ 31) (h : Reachable (race ι K) s) :
    ∃ c, Reachable (lab21 ι K) c ∧ Matches Parked c s := by
  induction h with
  | start hs =>
    obtain rfl : _ = Race.State.zero := hs
    exact ⟨launched, .start launched_start, rfl, fun i => .init rfl⟩
  | @next s t i hr hstep ih =>
    obtain ⟨c, hc, hmatches⟩ := ih
    have hparked := hmatches.thread i
    cases hstep with
    | load hread hlt =>
      rw [hread] at hparked
      generalize hdone : s.done i = n at hparked hlt
      generalize hthread : c.thread i = thread at hparked
      cases hparked with
      | @init l hl =>
        obtain ⟨d, hd, hcounter, hself, hother⟩ := alone 3 (.store []) ⟨0, c.shared.counter, l.completed⟩
          c.shared.counter hc hthread (fun owner => by
            simp [soloRun, soloNext, incrementCounter, lab21Body, runOp, Instr.run, clearI, loadCounter, hlt])
        refine ⟨d, hd, hmatches.load hcounter ?_ hother⟩
        rw [hself.thread, hdone, ← hl]
        apply Parked.store
        · rw [hl]
          rfl
        · exact hmatches.counter
      | @test l hl =>
        have htest : l.i.toInt < K := by
          rw [hl, Int32.toInt_ofNat_of_lt (by omega)]
          exact Int.ofNat_lt.mpr hlt
        obtain ⟨d, hd, hcounter, hself, hother⟩ := alone 2 (.store []) { l with loaded := c.shared.counter }
          c.shared.counter hc hthread (fun owner => by
            simp [soloRun, soloNext, incrementCounter, lab21Body, runOp, Instr.run, loadCounter, htest])
        refine ⟨d, hd, hmatches.load hcounter ?_ hother⟩
        rw [hself.thread, hdone]
        exact .store hl hmatches.counter
    | @store r hread =>
      rw [hread] at hparked
      generalize hdone : s.done i = n at hparked
      generalize hthread : c.thread i = thread at hparked
      cases hparked with
      | @store l _ hl hloaded =>
        obtain ⟨d, hd, hcounter, hself, hother⟩ := alone 2 .test ⟨l.i + 1, l.loaded, l.completed + 1⟩
          (l.loaded + 1) hc hthread (fun owner => by
            simp [soloRun, soloNext, incrementCounter, Instr.run, storeCounter, raiseI])
        refine ⟨d, hd, hmatches.store ?_ ?_ hother⟩
        · rw [hcounter, hloaded, Int32.ofNat_add]
          rfl
        · rw [hself.thread, hdone]
          apply Parked.test
          simp only [hl, Int32.ofNat_add]
          rfl

theorem leave {n : ℕ} (hK : K < 2 ^ 31) (hc : Reachable (lab21 ι K) c) (hparked : Parked (c.thread i) n none)
    (hn : n = K) :
    ∃ d l, Reachable (lab21 ι K) d ∧ d.shared.counter = c.shared.counter ∧ d.At i .done l ∧
      ∀ j, j ≠ i → d.thread j = c.thread j := by
  generalize hthread : c.thread i = thread at hparked
  cases hparked with
  | @init l hl =>
    obtain ⟨d, hd, hrest⟩ := alone 2 .done ⟨0, l.loaded, l.completed⟩ c.shared.counter hc hthread (fun owner => by
      simp [soloRun, soloNext, incrementCounter, Instr.run, clearI, ← hn])
    exact ⟨d, _, hd, hrest⟩
  | @test l hl =>
    have htest : ¬ l.i.toInt < K := by
      rw [hl, hn, Int32.toInt_ofNat_of_lt hK]
      exact Int.lt_irrefl _
    obtain ⟨d, hd, hrest⟩ := alone 1 .done l c.shared.counter hc hthread (fun owner => by
      simp [soloRun, soloNext, incrementCounter, htest])
    exact ⟨d, _, hd, hrest⟩

theorem all_return (hK : K < 2 ^ 31) (hc : Reachable (lab21 ι K) c) (hparked : ∀ i, Parked (c.thread i) K none)
    (S : Finset ι) :
    ∃ d, Reachable (lab21 ι K) d ∧ d.shared.counter = c.shared.counter ∧
      (∀ i ∈ S, (d.thread i).mode = .returned) ∧ ∀ i ∉ S, d.thread i = c.thread i := by
  induction S using Finset.induction_on with
  | empty => exact ⟨c, hc, rfl, fun i hi => absurd hi (Finset.notMem_empty i), fun _ _ => rfl⟩
  | insert i S hi ih =>
    obtain ⟨d, hd, hcounter, hreturned, hrest⟩ := ih
    obtain ⟨e, l, he, hcounter', hself, hother⟩ := leave hK hd (hrest i hi ▸ hparked i) rfl
    refine ⟨e.move i ⟨.done, l, .returned⟩, he.next (.ret hself rfl), hcounter'.trans hcounter, ?_, ?_⟩
    · intro j hj
      by_cases hji : j = i
      · rw [hji, move_self]
      · rw [move_other _ _ hji, hother j hji]
        exact hreturned j (Finset.mem_of_mem_insert_of_ne hj hji)
    · intro j hj
      have hji : j ≠ i := fun h => hj (h ▸ Finset.mem_insert_self i S)
      rw [move_other _ _ hji, hother j hji]
      exact hrest j fun h => hj (Finset.mem_insert_of_mem h)

/-- What is left of the increments may be any number from two on, but with one thread all of them and with one
iteration at least one. -/
theorem race_outcomes (ι : Type) [DecidableEq ι] [Fintype ι] (K : ℕ) (hK : Fintype.card ι * K < 2 ^ 31) (v : ℤ) :
    (∃ c, Reachable (lab21 ι K) c ∧ Final c ∧ c.shared.counter.toInt = v) ↔
      lower (Fintype.card ι) K ≤ v ∧ v ≤ Fintype.card ι * K := by
  have toInt {n : ℕ} (hn : n ≤ Fintype.card ι * K) : (Int32.ofNat n).toInt = n :=
    Int32.toInt_ofNat_of_lt (by omega)
  constructor
  · rintro ⟨c, hc, hf, rfl⟩
    obtain ⟨s, hs, hdone, hcounter⟩ := (racing_of_reachable hK hc).finished hf
    obtain ⟨hlower, hupper⟩ := Race.value_bounds hs hdone
    rw [hcounter, toInt hupper]
    exact ⟨Int.ofNat_le.mpr hlower, by exact_mod_cast hupper⟩
  · rintro ⟨hlower, hupper⟩
    obtain ⟨n, rfl⟩ := Int.eq_ofNat_of_zero_le ((Int.natCast_nonneg _).trans hlower)
    have hle : n ≤ Fintype.card ι * K := by exact_mod_cast hupper
    obtain ⟨s, hs, hdone, rfl⟩ := Race.outcomes.mpr ⟨Int.ofNat_le.mp hlower, hle⟩
    cases isEmpty_or_nonempty ι with
    | inl hempty =>
      have hzero : s.value = 0 := by
        rw [Fintype.card_eq_zero, Nat.zero_mul] at hle
        exact Nat.le_zero.mp hle
      rw [hzero]
      exact ⟨launched, .start launched_start, fun i => hempty.elim i, rfl⟩
    | inr hne =>
      have hlt : K < 2 ^ 31 := Nat.lt_of_le_of_lt (Nat.le_mul_of_pos_left K Fintype.card_pos) hK
      obtain ⟨c, hc, hmatches⟩ := parked_of_race hlt hs
      have hparked (i : ι) : Parked (c.thread i) K none := by
        have hthread := hmatches.thread i
        have hinv := Race.inv_of_reachable hs
        cases hread : s.read i with
        | none => rwa [hdone i, hread] at hthread
        | some r =>
          have hdone_lt := hinv.done_lt i r hread
          rw [hdone i] at hdone_lt
          exact absurd hdone_lt (Nat.lt_irrefl K)
      obtain ⟨d, hd, hcounter, hreturned, -⟩ := all_return hlt hc hparked Finset.univ
      refine ⟨d, hd, fun i => hreturned i (Finset.mem_univ i), ?_⟩
      rw [hcounter, hmatches.counter]
      exact toInt hle

theorem race_outcomes_two :
    ∃ c, Reachable (lab21 (Fin NUM_THREADS) NUM_ITERATIONS) c ∧ Final c ∧ c.shared.counter.toInt = 2 :=
  (race_outcomes (Fin NUM_THREADS) NUM_ITERATIONS (by decide) 2).mpr (by decide)

end EmbeddedLinuxTraining.Counter
