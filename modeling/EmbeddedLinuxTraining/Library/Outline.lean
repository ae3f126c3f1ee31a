import EmbeddedLinuxTraining.Library.Pthread

/-!
Proof outlines for threads under one mutex: `inv` holds whenever the mutex is free,
and every thread satisfies the assertion attached to where it stands.
-/

namespace EmbeddedLinuxTraining.Library.Pthread

open Transition Config

variable {ι σ L κ χ P : Type}

structure Outline (ι σ L κ P : Type) where
  holds : P → Bool
  inv : σ → Prop
  asrt : ι → Thread L κ P → σ → Prop

namespace Outline

def running (O : Outline ι σ L κ P) (i : ι) (p : P) (l : L) (s : σ) : Prop :=
  O.asrt i ⟨p, l, .running⟩ s

def Holding (O : Outline ι σ L κ P) (t : Thread L κ P) : Prop :=
  t.mode = .running ∧ O.holds t.pc = true

structure Valid (code : P → Instr ι σ L κ χ P) (O : Outline ι σ L κ P) : Prop where
  lock : ∀ {p q}, code p = .lock q → O.holds p = false ∧ O.holds q = true ∧
    ∀ {i l s}, O.running i p l s → O.inv s → O.running i q l s
  unlock : ∀ {p q}, code p = .unlock q → O.holds p = true ∧ O.holds q = false ∧
    ∀ {i l s}, O.running i p l s → O.inv s ∧ O.running i q l s
  wait : ∀ {p k q}, code p = .wait k q → O.holds p = true ∧ O.holds q = true ∧
    ∀ {i l s}, O.running i p l s → O.inv s ∧ O.asrt i ⟨q, l, .blocked k⟩ s
  woken : ∀ {i p l k s}, O.asrt i ⟨p, l, .blocked k⟩ s → O.asrt i ⟨p, l, .woken⟩ s
  resume : ∀ {p k q}, code p = .wait k q →
    ∀ {i l s}, O.asrt i ⟨q, l, .woken⟩ s → O.inv s → O.running i q l s
  signal : ∀ {p k q}, code p = .signal k q → O.holds p = O.holds q ∧
    ∀ {i l s}, O.running i p l s → O.running i q l s
  broadcast : ∀ {p k q}, code p = .broadcast k q → O.holds p = O.holds q ∧
    ∀ {i l s}, O.running i p l s → O.running i q l s
  branch : ∀ {p test yes no}, code p = .branch test yes no →
    O.holds yes = O.holds p ∧ O.holds no = O.holds p ∧
    ∀ {i l s}, O.running i p l s →
      (test s l = true → O.running i yes l s) ∧ (test s l = false → O.running i no l s)
  act : ∀ {p f q}, code p = .act f q → O.holds p = O.holds q ∧
    ∀ {i l s x s' l'}, f x s l = some (s', l') → O.running i p l s →
      O.running i q l' s' ∧ (O.holds p = false → O.inv s → O.inv s')
  apart : ∀ {p f q}, code p = .act f q → ∀ {i j l s x s' l' t}, f x s l = some (s', l') →
    i ≠ j → O.running i p l s → O.asrt j t s → (O.holds p = true → ¬ O.Holding t) → O.asrt j t s'
  create : ∀ {p child q r}, code p = .create child q r → O.holds p = O.holds q ∧
    O.holds p = O.holds r ∧ ∀ {i l s}, O.running i p l s → O.running i q l s ∧ O.running i r l s
  start : ∀ {i p l s}, O.asrt i ⟨p, l, .idle⟩ s → O.holds p = false ∧ O.running i p l s
  join : ∀ {p child q}, code p = .join child q → O.holds p = O.holds q ∧
    ∀ {i l s}, O.running i p l s → O.running i q l s
  ret : ∀ {p}, code p = .ret → O.holds p = false ∧
    ∀ {i l s}, O.running i p l s → O.asrt i ⟨p, l, .returned⟩ s

structure Sat (code : P → Instr ι σ L κ χ P) (O : Outline ι σ L κ P) (c : Config ι σ L κ P) :
    Prop where
  owner : ∀ i, O.Holding (c.thread i) ↔ c.owner = some i
  resumes : ∀ i, ((∃ k, (c.thread i).mode = .blocked k) ∨ (c.thread i).mode = .woken) →
    ∃ p k, code p = .wait k (c.thread i).pc
  free : c.owner = none → O.inv c.shared
  each : ∀ i, O.asrt i (c.thread i) c.shared

variable {code : P → Instr ι σ L κ χ P} {O : Outline ι σ L κ P}

theorem Sat.at {c : Config ι σ L κ P} (h : O.Sat code c) {i : ι} {p : P} {l : L}
    (hi : c.At i p l) : O.running i p l c.shared := by
  have := h.each i
  rwa [hi.thread] at this

theorem Sat.holds_iff {c : Config ι σ L κ P} (h : O.Sat code c) {i : ι} {p : P} {l : L}
    (hi : c.At i p l) : O.holds p = true ↔ c.owner = some i := by
  rw [← h.owner i, hi.thread]
  simp [Holding]

theorem Sat.exclusive {c : Config ι σ L κ P} (h : O.Sat code c) {i j : ι}
    (hi : O.Holding (c.thread i)) (hj : O.Holding (c.thread j)) : i = j :=
  Option.some.inj (((h.owner i).mp hi).symm.trans ((h.owner j).mp hj))

section

variable [DecidableEq ι]

theorem Sat.of_move {c d : Config ι σ L κ P} (h : O.Sat code c) {i : ι} {t : Thread L κ P}
    (hd : d.thread = (c.move i t).thread) (self : O.Holding t ↔ d.owner = some i)
    (others : ∀ j, j ≠ i → (c.owner = some j ↔ d.owner = some j))
    (resumes : ((∃ k, t.mode = .blocked k) ∨ t.mode = .woken) → ∃ p k, code p = .wait k t.pc)
    (free : d.owner = none → O.inv d.shared) (each : O.asrt i t d.shared)
    (apart : ∀ j, j ≠ i → O.asrt j (c.thread j) c.shared → O.asrt j (c.thread j) d.shared) :
    O.Sat code d := by
  have hi : d.thread i = t := by rw [hd, move_self]
  have ho : ∀ j, j ≠ i → d.thread j = c.thread j := fun j hj => by rw [hd, move_other _ _ hj]
  refine ⟨fun j => ?_, fun j => ?_, free, fun j => ?_⟩
  · by_cases hj : j = i
    · rw [hj, hi, self]
    · rw [ho j hj, h.owner j, others j hj]
  · by_cases hj : j = i
    · rw [hj, hi]; exact resumes
    · rw [ho j hj]; exact h.resumes j
  · by_cases hj : j = i
    · rw [hj, hi]; exact each
    · rw [ho j hj]; exact apart j hj (h.each j)

theorem Sat.move {c : Config ι σ L κ P} (h : O.Sat code c) {i : ι} {t : Thread L κ P}
    (hold : O.Holding t ↔ O.Holding (c.thread i)) (ht : O.asrt i t c.shared)
    (hr : ((∃ k, t.mode = .blocked k) ∨ t.mode = .woken) → ∃ p k, code p = .wait k t.pc) :
    O.Sat code (c.move i t) :=
  h.of_move rfl (hold.trans (h.owner i)) (fun _ _ => Iff.rfl) hr h.free ht (fun _ _ hj => hj)

theorem Sat.goto {c : Config ι σ L κ P} (h : O.Sat code c) {i : ι} {p q : P} {l : L}
    (hi : c.At i p l) (hold : O.holds p = O.holds q) (ht : O.running i q l c.shared) :
    O.Sat code (c.goto i q l) := by
  refine h.move ?_ ht (by simp)
  rw [hi.thread]
  simp [Holding, hold]

theorem Sat.wake {c : Config ι σ L κ P} (hO : O.Valid code) (h : O.Sat code c) {j : ι} {k : κ}
    (hj : (c.thread j).mode = .blocked k) : O.Sat code (c.move j (Config.wake (c.thread j))) := by
  refine h.move ?_ ?_ (fun _ => h.resumes j (.inl ⟨k, hj⟩))
  · simp [Holding, Config.wake, hj]
  · have ht := h.each j
    rw [show c.thread j = ⟨_, _, .blocked k⟩ from by rw [← hj]] at ht
    exact hO.woken ht

theorem Sat.acquire {c : Config ι σ L κ P} (h : O.Sat code c) {i : ι} {q : P} {l : L}
    (hf : c.owner = none) (hq : O.holds q = true) (ht : O.running i q l c.shared) :
    O.Sat code { c.goto i q l with owner := some i } :=
  h.of_move rfl (by simp [Holding, hq]) (fun j hj => by simp [hf, Ne.symm hj]) (by simp) (by simp)
    ht (fun _ _ hj => hj)

theorem Sat.release {c : Config ι σ L κ P} (h : O.Sat code c) {i : ι} {t : Thread L κ P}
    (ho : c.owner = some i) (hq : ¬ O.Holding t) (hinv : O.inv c.shared) (ht : O.asrt i t c.shared)
    (hr : ((∃ k, t.mode = .blocked k) ∨ t.mode = .woken) → ∃ p k, code p = .wait k t.pc) :
    O.Sat code { c.move i t with owner := none } :=
  h.of_move rfl (by simp [hq]) (fun j hj => by simp [ho, Ne.symm hj]) hr (fun _ => hinv) ht
    (fun _ _ hj => hj)

theorem Sat.act (hO : O.Valid code) {c : Config ι σ L κ P} (h : O.Sat code c) {i : ι} {p q : P}
    {l l' : L} {x : χ} {s' : σ} {f : χ → σ → L → Option (σ × L)} (hi : c.At i p l)
    (hc : code p = .act f q) (hf : f x c.shared l = some (s', l')) :
    O.Sat code { c.goto i q l' with shared := s' } := by
  obtain ⟨hpq, hact⟩ := hO.act hc
  have hp := h.at hi
  obtain ⟨hq, hinv⟩ := hact hf hp
  have hown := h.holds_iff hi
  refine h.of_move rfl ?_ (fun _ _ => Iff.rfl) (by simp) ?_ hq ?_
  · simpa [Holding, ← hpq] using hown
  · intro ho
    have hno : O.holds p = false := by
      cases hh : O.holds p with
      | false => rfl
      | true => exact nomatch (hown.mp hh).symm.trans ho
    exact hinv hno (h.free ho)
  · intro j hj hr
    refine hO.apart hc hf (Ne.symm hj) hp hr (fun hh ht => hj ?_)
    exact h.exclusive ht (by rw [hi.thread]; exact ⟨rfl, hh⟩)

end

theorem Sat.wakeAll [DecidableEq κ] {c : Config ι σ L κ P} (hO : O.Valid code) (h : O.Sat code c)
    (k : κ) : O.Sat code (c.wakeAll k) := by
  classical
  -- thread by thread, as if each sleeper had been woken alone
  have key : ∀ j, ∃ d : Config ι σ L κ P, O.Sat code d ∧ d.thread j = (c.wakeAll k).thread j ∧
      d.owner = c.owner ∧ d.shared = c.shared := by
    intro j
    by_cases hj : (c.thread j).mode = .blocked k
    · exact ⟨_, h.wake hO hj, by simp [Config.wakeAll, hj, move_self], rfl, rfl⟩
    · exact ⟨c, h, by simp [Config.wakeAll, hj], rfl, rfl⟩
  refine ⟨fun j => ?_, fun j => ?_, h.free, fun j => ?_⟩
  all_goals
    obtain ⟨d, hd, ht, ho, hs⟩ := key j
    rw [← ht]
  · rw [wakeAll_owner, ← ho]; exact hd.owner j
  · exact hd.resumes j
  · rw [wakeAll_shared, ← hs]; exact hd.each j

theorem Sat.step [DecidableEq ι] [DecidableEq κ] (hO : O.Valid code) {c d : Config ι σ L κ P}
    {a : Label ι χ} (h : O.Sat code c) (hs : Step code c a d) : O.Sat code d := by
  cases hs with
  | lock hi hc hf =>
    obtain ⟨-, hq, ha⟩ := hO.lock hc
    exact h.acquire hf hq (ha (h.at hi) (h.free hf))
  | unlock hi hc ho =>
    obtain ⟨-, hq, ha⟩ := hO.unlock hc
    exact h.release ho (by simp [Holding, hq]) (ha (h.at hi)).1 (ha (h.at hi)).2 (by simp)
  | wait hi hc ho =>
    obtain ⟨-, -, ha⟩ := hO.wait hc
    exact h.release ho (by simp [Holding]) (ha (h.at hi)).1 (ha (h.at hi)).2 (fun _ => ⟨_, _, hc⟩)
  | @spurious i p l k hi =>
    have hw := h.wake hO (j := i) (k := k) (by rw [hi])
    rwa [hi] at hw
  | @resume i p l hi hf =>
    obtain ⟨p', k, hc⟩ := h.resumes i (.inr (by rw [hi]))
    have ht := h.each i
    rw [hi] at ht hc
    exact h.acquire hf (hO.wait hc).2.1 (hO.resume hc ht (h.free hf))
  | @signal_one i p l k q j hi hc hj =>
    obtain ⟨hpq, ha⟩ := hO.signal hc
    have hne : i ≠ j := by
      rintro rfl
      rw [hi.thread] at hj
      cases hj
    have hi' : (c.move j (Config.wake (c.thread j))).At i p l := by
      rw [At, move_other _ _ hne]; exact hi
    exact (h.wake hO hj).goto hi' hpq (ha (h.at hi))
  | signal_none hi hc _ =>
    obtain ⟨hpq, ha⟩ := hO.signal hc
    exact h.goto hi hpq (ha (h.at hi))
  | @broadcast i p l k q hi hc =>
    obtain ⟨hpq, ha⟩ := hO.broadcast hc
    have hi' : (c.wakeAll k).At i p l := by
      simp only [At] at hi ⊢
      simp [Config.wakeAll, hi]
    exact (h.wakeAll hO k).goto hi' hpq (ha (h.at hi))
  | @branch i p l test yes no hi hc =>
    obtain ⟨hy, hn, ha⟩ := hO.branch hc
    cases ht : test c.shared l with
    | true => exact h.goto hi hy.symm ((ha (h.at hi)).1 ht)
    | false => exact h.goto hi hn.symm ((ha (h.at hi)).2 ht)
  | act hi hc hf => exact h.act hO hi hc hf
  | @create i p l child q r hi hc hj =>
    obtain ⟨hpq, -, ha⟩ := hO.create hc
    have hne : i ≠ child l := by
      intro he
      rw [← he, hi.thread] at hj
      cases hj
    have hst := h.each (child l)
    rw [show c.thread (child l) = ⟨_, _, .idle⟩ from by rw [← hj]] at hst
    obtain ⟨hno, hrun⟩ := hO.start hst
    have hch : O.Sat code (c.move (child l) { c.thread (child l) with mode := .running }) := by
      refine h.move ?_ hrun (by simp)
      simp [Holding, hno, hj]
    have hi' : (c.move (child l) { c.thread (child l) with mode := .running }).At i p l := by
      rw [At, move_other _ _ hne]; exact hi
    exact hch.goto hi' hpq (ha (h.at hi)).1
  | create_fail hi hc =>
    obtain ⟨-, hpr, ha⟩ := hO.create hc
    exact h.goto hi hpr (ha (h.at hi)).2
  | join hi hc _ =>
    obtain ⟨hpq, ha⟩ := hO.join hc
    exact h.goto hi hpq (ha (h.at hi))
  | @ret i p l hi hc =>
    obtain ⟨hp, ha⟩ := hO.ret hc
    refine h.move ?_ (ha (h.at hi)) (by simp)
    rw [hi.thread]
    simp [Holding, hp]

/-- The rule of proof outlines: every reachable configuration satisfies a valid one. -/
theorem Valid.sound [DecidableEq ι] [DecidableEq κ] (hO : O.Valid code)
    {init : Config ι σ L κ P → Prop} (hinit : ∀ c, init c → O.Sat code c)
    {c : Config ι σ L κ P} (h : Reachable (system code init) c) : O.Sat code c :=
  Invariant.holds ⟨hinit, fun _ _ _ _ hs ht => hs.step hO ht⟩ h

theorem Sat.of_initial {c : Config ι σ L κ P} (hf : c.owner = none) (hinv : O.inv c.shared)
    (hm : ∀ i, (c.thread i).mode = .idle ∨
      (c.thread i).mode = .running ∧ O.holds (c.thread i).pc = false)
    (he : ∀ i, O.asrt i (c.thread i) c.shared) : O.Sat code c := by
  refine ⟨fun i => ?_, fun i => ?_, fun _ => hinv, he⟩
  · rcases hm i with h | ⟨h, hp⟩
    · simp [Holding, h, hf]
    · simp [Holding, hp, hf]
  · rcases hm i with h | ⟨h, -⟩ <;> simp [h]

/-- What the threads of a valid outline know besides: `A` holds wherever a thread arrives, and
no other thread takes it away. -/
structure Knows (code : P → Instr ι σ L κ χ P) (O : Outline ι σ L κ P)
    (A : Thread L κ P → σ → Prop) : Prop where
  arrive : ∀ {p q l s}, (code p).Target s l q → A ⟨q, l, .running⟩ s
  asleep : ∀ {p k q l s}, code p = .wait k q → A ⟨q, l, .blocked k⟩ s
  woken : ∀ {p l s}, A ⟨p, l, .woken⟩ s
  returned : ∀ {p l s}, A ⟨p, l, .returned⟩ s
  start : ∀ {i p l s}, O.asrt i ⟨p, l, .idle⟩ s → A ⟨p, l, .running⟩ s
  act : ∀ {p f q l s x s' l'}, code p = .act f q → f x s l = some (s', l') → A ⟨q, l', .running⟩ s'
  apart : ∀ {p f q}, code p = .act f q → ∀ {i j l s x s' l' t}, f x s l = some (s', l') →
    i ≠ j → O.running i p l s → O.asrt j t s → A t s → (O.holds p = true → ¬ O.Holding t) → A t s'

def knowing (O : Outline ι σ L κ P) (A : Thread L κ P → σ → Prop) : Outline ι σ L κ P where
  holds := O.holds
  inv := O.inv
  asrt i t s := O.asrt i t s ∧ A t s

theorem Knows.next {A : Thread L κ P → σ → Prop} (hA : O.Knows code A) {p q : P} {l : L} {s : σ}
    (hn : (code p).Next q) (hb : ∀ test yes no, code p ≠ .branch test yes no) :
    A ⟨q, l, .running⟩ s :=
  hA.arrive ⟨hn, fun test yes no he => absurd he (hb test yes no)⟩

theorem Knows.branch {A : Thread L κ P → σ → Prop} (hA : O.Knows code A) {p yes no : P} {l : L}
    {s : σ} {test : σ → L → Bool} (hc : code p = .branch test yes no) :
    A ⟨bif test s l then yes else no, l, .running⟩ s := by
  refine hA.arrive (p := p) ⟨?_, fun test' yes' no' he => ?_⟩
  · rw [hc]
    cases test s l
    · exact .inr rfl
    · exact .inl rfl
  · rw [hc] at he
    cases he
    rfl

theorem Valid.knowing {A : Thread L κ P → σ → Prop} (hO : O.Valid code) (hA : O.Knows code A) :
    (O.knowing A).Valid code where
  lock := by
    intro p q hc
    obtain ⟨hp, hq, ha⟩ := hO.lock hc
    exact ⟨hp, hq, fun h hi => ⟨ha h.1 hi, hA.next (p := p) (by rw [hc]; rfl) (by rw [hc]; nofun)⟩⟩
  unlock := by
    intro p q hc
    obtain ⟨hp, hq, ha⟩ := hO.unlock hc
    exact ⟨hp, hq, fun h => ⟨(ha h.1).1, (ha h.1).2, hA.next (p := p) (by rw [hc]; rfl) (by rw [hc]; nofun)⟩⟩
  wait := by
    intro p k q hc
    obtain ⟨hp, hq, ha⟩ := hO.wait hc
    exact ⟨hp, hq, fun h => ⟨(ha h.1).1, (ha h.1).2, hA.asleep hc⟩⟩
  woken h := ⟨hO.woken h.1, hA.woken⟩
  resume := by
    intro p k q hc i l s h hi
    exact ⟨hO.resume hc h.1 hi, hA.next (p := p) (by rw [hc]; rfl) (by rw [hc]; nofun)⟩
  signal := by
    intro p k q hc
    obtain ⟨hpq, ha⟩ := hO.signal hc
    exact ⟨hpq, fun h => ⟨ha h.1, hA.next (p := p) (by rw [hc]; rfl) (by rw [hc]; nofun)⟩⟩
  broadcast := by
    intro p k q hc
    obtain ⟨hpq, ha⟩ := hO.broadcast hc
    exact ⟨hpq, fun h => ⟨ha h.1, hA.next (p := p) (by rw [hc]; rfl) (by rw [hc]; nofun)⟩⟩
  branch := by
    intro p test yes no hc
    obtain ⟨hy, hn, ha⟩ := hO.branch hc
    refine ⟨hy, hn, fun {i l s} h => ?_⟩
    have hb : A ⟨bif test s l then yes else no, l, .running⟩ s := hA.branch hc
    constructor
    · intro ht
      rw [ht] at hb
      exact ⟨(ha h.1).1 ht, hb⟩
    · intro ht
      rw [ht] at hb
      exact ⟨(ha h.1).2 ht, hb⟩
  act := by
    intro p f q hc
    obtain ⟨hpq, ha⟩ := hO.act hc
    exact ⟨hpq, fun hf h => ⟨⟨(ha hf h.1).1, hA.act hc hf⟩, (ha hf h.1).2⟩⟩
  apart hc _ _ _ _ _ _ _ _ hf hij hi hj hexcl :=
    ⟨hO.apart hc hf hij hi.1 hj.1 hexcl, hA.apart hc hf hij hi.1 hj.1 hj.2 hexcl⟩
  create := by
    intro p child q r hc
    obtain ⟨hpq, hpr, ha⟩ := hO.create hc
    refine ⟨hpq, hpr, fun h => ⟨⟨(ha h.1).1, ?_⟩, (ha h.1).2, ?_⟩⟩
    · exact hA.next (p := p) (by rw [hc]; exact .inl rfl) (by rw [hc]; nofun)
    · exact hA.next (p := p) (by rw [hc]; exact .inr rfl) (by rw [hc]; nofun)
  start h := ⟨(hO.start h.1).1, (hO.start h.1).2, hA.start h.1⟩
  join := by
    intro p child q hc
    obtain ⟨hpq, ha⟩ := hO.join hc
    exact ⟨hpq, fun h => ⟨ha h.1, hA.next (p := p) (by rw [hc]; rfl) (by rw [hc]; nofun)⟩⟩
  ret := by
    intro p hc
    obtain ⟨hp, ha⟩ := hO.ret hc
    exact ⟨hp, fun h => ⟨ha h.1, hA.returned⟩⟩

theorem Sat.knowing {A : Thread L κ P → σ → Prop} {c : Config ι σ L κ P} (h : O.Sat code c)
    (hA : ∀ i, A (c.thread i) c.shared) : (O.knowing A).Sat code c :=
  ⟨h.owner, h.resumes, h.free, fun i => ⟨h.each i, hA i⟩⟩

/-- What every thread that holds the mutex vouches for, and the invariant implies, holds always. -/
theorem Sat.always {c : Config ι σ L κ P} (h : O.Sat code c) {I : σ → Prop}
    (hfree : ∀ s, O.inv s → I s) (hheld : ∀ i t s, O.asrt i t s → O.Holding t → I s) : I c.shared := by
  cases ho : c.owner with
  | none => exact hfree _ (h.free ho)
  | some i => exact hheld i _ _ (h.each i) ((h.owner i).mpr ho)

end Outline

end EmbeddedLinuxTraining.Library.Pthread
