import Mathlib.Algebra.BigOperators.Group.Finset.Basic
import Mathlib.Data.Fintype.Basic
import Mathlib.Logic.Function.Basic
import EmbeddedLinuxTraining.Library.Transition

/-!
Threads that share memory, one mutex and a family of condition variables. A thread
is given by a table that maps each of its program points to one instruction; every
instruction is one atomic step, so that all interleavings are runs of `system`.
-/

namespace EmbeddedLinuxTraining.Library.Pthread

open Transition
open scoped BigOperators

inductive Instr (ι σ L κ χ P : Type)
  | lock (next : P)
  | unlock (next : P)
  | wait (cond : κ) (next : P)
  | signal (cond : κ) (next : P)
  | broadcast (cond : κ) (next : P)
  | branch (test : σ → L → Bool) (yes no : P)
  | act (f : χ → σ → L → Option (σ × L)) (next : P)
  | create (child : L → ι) (next fail : P)
  | join (child : L → ι) (next : P)
  | ret

def Instr.run {ι σ L κ χ P : Type} (f : σ → L → σ × L) (next : P) : Instr ι σ L κ χ P :=
  .act (fun _ s l => some (f s l)) next

inductive Mode (κ : Type)
  | idle
  | running
  | blocked (cond : κ)
  | woken
  | returned
  deriving DecidableEq

/-- The point of a suspended thread is the one it continues from. -/
structure Thread (L κ P : Type) where
  pc : P
  loc : L
  mode : Mode κ

structure Config (ι σ L κ P : Type) where
  shared : σ
  owner : Option ι
  thread : ι → Thread L κ P

variable {ι σ L κ χ P : Type}

namespace Config

section

variable [DecidableEq ι]

def move (c : Config ι σ L κ P) (i : ι) (t : Thread L κ P) : Config ι σ L κ P :=
  { c with thread := Function.update c.thread i t }

def goto (c : Config ι σ L κ P) (i : ι) (p : P) (l : L) : Config ι σ L κ P :=
  c.move i ⟨p, l, .running⟩

theorem move_self (c : Config ι σ L κ P) (i : ι) (t : Thread L κ P) :
    (c.move i t).thread i = t := Function.update_self ..

theorem move_other (c : Config ι σ L κ P) {i j : ι} (t : Thread L κ P) (h : j ≠ i) :
    (c.move i t).thread j = c.thread j := Function.update_of_ne h ..

@[simp] theorem move_shared (c : Config ι σ L κ P) (i : ι) (t : Thread L κ P) :
    (c.move i t).shared = c.shared := rfl

@[simp] theorem move_owner (c : Config ι σ L κ P) (i : ι) (t : Thread L κ P) :
    (c.move i t).owner = c.owner := rfl

@[simp] theorem goto_shared (c : Config ι σ L κ P) (i : ι) (p : P) (l : L) :
    (c.goto i p l).shared = c.shared := rfl

@[simp] theorem goto_owner (c : Config ι σ L κ P) (i : ι) (p : P) (l : L) :
    (c.goto i p l).owner = c.owner := rfl

end

def wake (t : Thread L κ P) : Thread L κ P := { t with mode := .woken }

def wakeAll [DecidableEq κ] (c : Config ι σ L κ P) (k : κ) : Config ι σ L κ P :=
  { c with thread := fun j => if (c.thread j).mode = .blocked k then wake (c.thread j) else c.thread j }

@[simp] theorem wakeAll_shared [DecidableEq κ] (c : Config ι σ L κ P) (k : κ) :
    (c.wakeAll k).shared = c.shared := rfl

@[simp] theorem wakeAll_owner [DecidableEq κ] (c : Config ι σ L κ P) (k : κ) :
    (c.wakeAll k).owner = c.owner := rfl

theorem wakeAll_goto_awake [DecidableEq ι] [DecidableEq κ] (c : Config ι σ L κ P) (k : κ) (i : ι)
    (p : P) (l : L) (j : ι) : (((c.wakeAll k).goto i p l).thread j).mode ≠ .blocked k := by
  by_cases hj : j = i
  · rw [goto, hj, move_self]
    simp
  · rw [goto, move_other _ _ hj]
    by_cases hb : (c.thread j).mode = .blocked k
    · simp [wakeAll, hb, wake]
    · simp [wakeAll, hb]

def At (c : Config ι σ L κ P) (i : ι) (p : P) (l : L) : Prop := c.thread i = ⟨p, l, .running⟩

theorem At.thread {c : Config ι σ L κ P} {i : ι} {p : P} {l : L} (h : c.At i p l) :
    c.thread i = ⟨p, l, .running⟩ := h

theorem goto_at [DecidableEq ι] (c : Config ι σ L κ P) (i : ι) (p : P) (l : L) :
    (c.goto i p l).At i p l := move_self ..

theorem At.unique {c : Config ι σ L κ P} {i : ι} {p q : P} {l m : L} (h : c.At i p l)
    (h' : c.At i q m) : p = q ∧ l = m := by
  have he := Eq.symm h |>.trans h'
  exact ⟨congrArg Thread.pc he, congrArg Thread.loc he⟩

end Config

variable [DecidableEq ι] [DecidableEq κ]

open Config

inductive Label (ι χ : Type)
  | run (i : ι)
  | input (i : ι) (x : χ)
  | wake (i j : ι)
  | fail (i : ι)
  | spurious (i : ι)
  | resume (i : ι)
  deriving DecidableEq

variable (code : P → Instr ι σ L κ χ P)

inductive Step (c : Config ι σ L κ P) : Label ι χ → Config ι σ L κ P → Prop
  | lock {i p l q} : c.At i p l → code p = .lock q → c.owner = none →
      Step c (.run i) { c.goto i q l with owner := some i }
  | unlock {i p l q} : c.At i p l → code p = .unlock q → c.owner = some i →
      Step c (.run i) { c.goto i q l with owner := none }
  | wait {i p l k q} : c.At i p l → code p = .wait k q → c.owner = some i →
      Step c (.run i) { c.move i ⟨q, l, .blocked k⟩ with owner := none }
  | spurious {i p l k} : c.thread i = ⟨p, l, .blocked k⟩ →
      Step c (.spurious i) (c.move i ⟨p, l, .woken⟩)
  | resume {i p l} : c.thread i = ⟨p, l, .woken⟩ → c.owner = none →
      Step c (.resume i) { c.goto i p l with owner := some i }
  | signal_one {i p l k q j} : c.At i p l → code p = .signal k q → (c.thread j).mode = .blocked k →
      Step c (.wake i j) ((c.move j (wake (c.thread j))).goto i q l)
  | signal_none {i p l k q} : c.At i p l → code p = .signal k q →
      (∀ j, (c.thread j).mode ≠ .blocked k) → Step c (.run i) (c.goto i q l)
  | broadcast {i p l k q} : c.At i p l → code p = .broadcast k q →
      Step c (.run i) ((c.wakeAll k).goto i q l)
  | branch {i p l test yes no} : c.At i p l → code p = .branch test yes no →
      Step c (.run i) (c.goto i (bif test c.shared l then yes else no) l)
  | act {i p l f q x s' l'} : c.At i p l → code p = .act f q → f x c.shared l = some (s', l') →
      Step c (.input i x) { c.goto i q l' with shared := s' }
  | create {i p l child q r} : c.At i p l → code p = .create child q r →
      (c.thread (child l)).mode = .idle →
      Step c (.run i) ((c.move (child l) { c.thread (child l) with mode := .running }).goto i q l)
  | create_fail {i p l child q r} : c.At i p l → code p = .create child q r →
      Step c (.fail i) (c.goto i r l)
  | join {i p l child q} : c.At i p l → code p = .join child q →
      (c.thread (child l)).mode = .returned → Step c (.run i) (c.goto i q l)
  | ret {i p l} : c.At i p l → code p = .ret → Step c (.run i) (c.move i ⟨p, l, .returned⟩)

def system (init : Config ι σ L κ P → Prop) : System (Config ι σ L κ P) (Label ι χ) where
  init := init
  step := Step code

def Label.actor : Label ι χ → ι
  | .run i | .input i _ | .wake i _ | .fail i | .spurious i | .resume i => i

variable {code}

def Effect (c : Config ι σ L κ P) (i : ι) (l : L) (d : Config ι σ L κ P) : Instr ι σ L κ χ P → Prop
  | .lock q => c.owner = none ∧ d = { c.goto i q l with owner := some i }
  | .unlock q => c.owner = some i ∧ d = { c.goto i q l with owner := none }
  | .wait k q => c.owner = some i ∧ d = { c.move i ⟨q, l, .blocked k⟩ with owner := none }
  | .signal k q => (∃ j, j ≠ i ∧ (c.thread j).mode = .blocked k ∧
      d = (c.move j (wake (c.thread j))).goto i q l) ∨
      (∀ j, (c.thread j).mode ≠ .blocked k) ∧ d = c.goto i q l
  | .broadcast k q => d = (c.wakeAll k).goto i q l
  | .branch test yes no => d = c.goto i (bif test c.shared l then yes else no) l
  | .act f q => ∃ x s' l', f x c.shared l = some (s', l') ∧ d = { c.goto i q l' with shared := s' }
  | .create child q r => ((c.thread (child l)).mode = .idle ∧
      d = (c.move (child l) { c.thread (child l) with mode := .running }).goto i q l) ∨
      d = c.goto i r l
  | .join child q => (c.thread (child l)).mode = .returned ∧ d = c.goto i q l
  | .ret => ∃ p, c.At i p l ∧ d = c.move i ⟨p, l, .returned⟩

theorem Step.effect {c d : Config ι σ L κ P} {a : Label ι χ} {p : P} {l : L}
    (h : Step code c a d) (hi : c.At a.actor p l) : Effect c a.actor l d (code p) := by
  cases h with
  | spurious hi' | resume hi' => exact nomatch congrArg Thread.mode (hi.symm.trans hi')
  | lock hi' hc ho | unlock hi' hc ho | wait hi' hc ho | join hi' hc ho =>
    obtain ⟨rfl, rfl⟩ := hi.unique hi'
    rw [hc]
    exact ⟨ho, rfl⟩
  | signal_one hi' hc hj =>
    obtain ⟨rfl, rfl⟩ := hi.unique hi'
    rw [hc]
    refine .inl ⟨_, ?_, hj, rfl⟩
    rintro rfl
    rw [show c.thread _ = _ from hi'] at hj
    cases hj
  | signal_none hi' hc hn =>
    obtain ⟨rfl, rfl⟩ := hi.unique hi'
    rw [hc]
    exact .inr ⟨hn, rfl⟩
  | broadcast hi' hc | branch hi' hc =>
    obtain ⟨rfl, rfl⟩ := hi.unique hi'
    rw [hc]
    rfl
  | act hi' hc hf =>
    obtain ⟨rfl, rfl⟩ := hi.unique hi'
    rw [hc]
    exact ⟨_, _, _, hf, rfl⟩
  | create hi' hc hj =>
    obtain ⟨rfl, rfl⟩ := hi.unique hi'
    rw [hc]
    exact .inl ⟨hj, rfl⟩
  | create_fail hi' hc =>
    obtain ⟨rfl, rfl⟩ := hi.unique hi'
    rw [hc]
    exact .inr rfl
  | ret hi' hc =>
    obtain ⟨rfl, rfl⟩ := hi.unique hi'
    rw [hc]
    exact ⟨_, hi, rfl⟩

theorem Step.at_other {c d : Config ι σ L κ P} {a : Label ι χ} {j : ι} {p : P} {l : L}
    (h : Step code c a d) (hj : c.At j p l) (ha : a.actor ≠ j) : d.At j p l := by
  have hne : j ≠ a.actor := Ne.symm ha
  have hr : (c.thread j).mode = .running := by rw [hj.thread]
  have hs : ∀ (t : Thread L κ P) (c' : Config ι σ L κ P), c'.thread j = ⟨p, l, .running⟩ →
      (c'.move a.actor t).thread j = ⟨p, l, .running⟩ :=
    fun t c' hc' => (move_other c' t hne).trans hc'
  cases h with
  | signal_one _ _ hk =>
    refine hs _ _ ((move_other _ _ ?_).trans hj)
    rintro rfl
    rw [hr] at hk
    cases hk
  | create _ _ hk =>
    refine hs _ _ ((move_other _ _ ?_).trans hj)
    rintro rfl
    rw [hr] at hk
    cases hk
  | broadcast =>
    refine hs _ _ (Eq.trans ?_ hj)
    simp [Config.wakeAll, hr]
  | _ => exact hs _ _ hj

theorem Step.mode_cases {c d : Config ι σ L κ P} {a : Label ι χ} {j : ι} {m : Mode κ}
    (h : Step code c a d) (hj : (d.thread j).mode = m) (hr : m ≠ .running) (hw : m ≠ .woken) :
    (c.thread j).mode = m ∨ ∃ p l, c.At j p l ∧ ((code p = .ret ∧ d.thread j = ⟨p, l, .returned⟩) ∨
      ∃ k q, code p = .wait k q ∧ d.thread j = ⟨q, l, .blocked k⟩ ∧ c.owner = some j ∧
        d.shared = c.shared) := by
  have key : ∀ (t : Thread L κ P) (c' : Config ι σ L κ P), t.mode ≠ m →
      ((c'.move a.actor t).thread j).mode = m → (c'.thread j).mode = m := by
    intro t c' ht hm
    by_cases hja : j = a.actor
    · rw [hja, move_self] at hm
      exact absurd hm ht
    · rwa [move_other _ _ hja] at hm
  cases h with
  | @wait i p l k q hi hc ho =>
    change ((c.move i _).thread j).mode = _ at hj
    by_cases hji : j = i
    · subst hji
      exact .inr ⟨p, l, hi, .inr ⟨k, q, hc, move_self .., ho, rfl⟩⟩
    · rw [move_other _ _ hji] at hj
      exact .inl hj
  | @ret i p l hi hc =>
    by_cases hji : j = i
    · subst hji
      exact .inr ⟨p, l, hi, .inl ⟨hc, move_self ..⟩⟩
    · rw [move_other _ _ hji] at hj
      exact .inl hj
  | @signal_one i p l k q j' hi hc hk =>
    have hm := key _ _ (Ne.symm hr) hj
    by_cases hjj : j = j'
    · rw [hjj, move_self] at hm
      exact absurd hm (Ne.symm hw)
    · rw [move_other _ _ hjj] at hm
      exact .inl hm
  | @create i p l child q r hi hc hk =>
    have hm := key _ _ (Ne.symm hr) hj
    by_cases hjj : j = child l
    · rw [hjj, move_self] at hm
      exact absurd hm (Ne.symm hr)
    · rw [move_other _ _ hjj] at hm
      exact .inl hm
  | @broadcast i p l k q hi hc =>
    have hm := key _ _ (Ne.symm hr) hj
    simp only [Config.wakeAll] at hm
    split at hm
    · exact absurd hm (Ne.symm hw)
    · exact .inl hm
  | spurious => exact .inl (key _ _ (Ne.symm hw) hj)
  | _ => exact .inl (key _ _ (Ne.symm hr) hj)

theorem Step.blocked_cases {c d : Config ι σ L κ P} {a : Label ι χ} {j : ι} {k : κ}
    (h : Step code c a d) (hj : (d.thread j).mode = .blocked k) :
    (c.thread j).mode = .blocked k ∨
      ∃ p l q, c.At j p l ∧ code p = .wait k q ∧ c.owner = some j ∧ d.shared = c.shared := by
  rcases h.mode_cases hj nofun nofun with hm | ⟨p, l, hi, ⟨-, hm⟩ | ⟨k', q, hc, hm, ho, hs⟩⟩
  · exact .inl hm
  · rw [hm] at hj
    cases hj
  · rw [hm] at hj
    cases hj
    exact .inr ⟨p, l, q, hi, hc, ho, hs⟩

theorem Step.idle_of {c d : Config ι σ L κ P} {a : Label ι χ} {j : ι} (h : Step code c a d)
    (hj : (d.thread j).mode = .idle) : (c.thread j).mode = .idle := by
  rcases h.mode_cases hj nofun nofun with hm | ⟨p, l, hi, ⟨-, hm⟩ | ⟨k, q, -, hm, -⟩⟩
  · exact hm
  · rw [hm] at hj
    cases hj
  · rw [hm] at hj
    cases hj

theorem Step.returned {c d : Config ι σ L κ P} {a : Label ι χ} {j : ι} (h : Step code c a d)
    (hj : (c.thread j).mode = .returned) : d.thread j = c.thread j := by
  have hne {i : ι} {p : P} {l : L} {m : Mode κ} (hi : c.thread i = ⟨p, l, m⟩)
      (hm : m ≠ .returned) : j ≠ i := by
    rintro rfl
    rw [hi] at hj
    exact hm hj
  cases h with
  | spurious hi | resume hi => exact move_other _ _ (hne hi nofun)
  | signal_one hi _ hk =>
    refine (move_other _ _ (hne hi nofun)).trans (move_other _ _ ?_)
    rintro rfl
    rw [hj] at hk
    cases hk
  | create hi _ hk =>
    refine (move_other _ _ (hne hi nofun)).trans (move_other _ _ ?_)
    rintro rfl
    rw [hj] at hk
    cases hk
  | broadcast hi =>
    refine (move_other _ _ (hne hi nofun)).trans ?_
    simp [Config.wakeAll, hj]
  | lock hi | unlock hi | wait hi | signal_none hi | branch hi | act hi | create_fail hi
  | join hi | ret hi => exact move_other _ _ (hne hi nofun)

def Instr.Next : Instr ι σ L κ χ P → P → Prop
  | .lock q, r | .unlock q, r | .wait _ q, r | .signal _ q, r | .broadcast _ q, r | .join _ q, r =>
    r = q
  | .branch _ yes no, r => r = yes ∨ r = no
  | .create _ q q', r => r = q ∨ r = q'
  | .act _ _, _ | .ret, _ => False

def Instr.Target (s : σ) (l : L) (instr : Instr ι σ L κ χ P) (r : P) : Prop :=
  instr.Next r ∧ ∀ test yes no, instr = .branch test yes no → r = bif test s l then yes else no

theorem Step.actor_cases {c d : Config ι σ L κ P} {a : Label ι χ} (h : Step code c a d) :
    (∃ p l f q x l', c.At a.actor p l ∧ code p = .act f q ∧ f x c.shared l = some (d.shared, l') ∧
      d.At a.actor q l') ∨
    (d.shared = c.shared ∧ (d.thread a.actor).loc = (c.thread a.actor).loc ∧
      ((d.thread a.actor).pc = (c.thread a.actor).pc ∨
        ∃ p l, c.At a.actor p l ∧ (code p).Target c.shared l (d.thread a.actor).pc)) := by
  have key : ∀ {c' : Config ι σ L κ P} {i : ι} {p q : P} {l : L} (m : Mode κ), c.At i p l →
      (code p).Target c.shared l q →
      ((c'.move i ⟨q, l, m⟩).thread i).loc = (c.thread i).loc ∧
      (((c'.move i ⟨q, l, m⟩).thread i).pc = (c.thread i).pc ∨
        ∃ p l', c.At i p l' ∧ (code p).Target c.shared l' ((c'.move i ⟨q, l, m⟩).thread i).pc) := by
    intro c' i p q l m hi hn
    rw [move_self, hi.thread]
    exact ⟨rfl, .inr ⟨p, l, hi, hn⟩⟩
  have stay : ∀ {i : ι} {p : P} {l : L} {m : Mode κ} (m' : Mode κ), c.thread i = ⟨p, l, m⟩ →
      ((c.move i ⟨p, l, m'⟩).thread i).loc = (c.thread i).loc ∧
      (((c.move i ⟨p, l, m'⟩).thread i).pc = (c.thread i).pc ∨
        ∃ p₁ l₁, c.At i p₁ l₁ ∧ (code p₁).Target c.shared l₁ ((c.move i ⟨p, l, m'⟩).thread i).pc) := by
    intro i p l m m' hi
    rw [move_self, hi]
    exact ⟨rfl, .inl rfl⟩
  cases h with
  | act hi hc hf => exact .inl ⟨_, _, _, _, _, _, hi, hc, hf, move_self ..⟩
  | lock hi hc | unlock hi hc | wait hi hc | signal_one hi hc | signal_none hi hc
  | broadcast hi hc | join hi hc => exact .inr ⟨rfl, key _ hi (hc ▸ ⟨rfl, nofun⟩)⟩
  | @branch i p l test yes no hi hc =>
    refine .inr ⟨rfl, key _ hi ?_⟩
    rw [hc]
    constructor
    · cases test c.shared l
      · exact .inr rfl
      · exact .inl rfl
    · intro test' yes' no' he
      cases he
      rfl
  | create hi hc => exact .inr ⟨rfl, key _ hi (hc ▸ ⟨.inl rfl, nofun⟩)⟩
  | create_fail hi hc => exact .inr ⟨rfl, key _ hi (hc ▸ ⟨.inr rfl, nofun⟩)⟩
  | spurious hi | resume hi | ret hi => exact .inr ⟨rfl, stay _ hi⟩

theorem Step.input {c d : Config ι σ L κ P} {a : Label ι χ} {p q : P} {l : L}
    {f : χ → σ → L → Option (σ × L)} (h : Step code c a d) (hi : c.At a.actor p l)
    (hc : code p = .act f q) :
    ∃ x l', a = .input a.actor x ∧ f x c.shared l = some (d.shared, l') ∧ d.At a.actor q l' := by
  cases h with
  | act hi' hc' hf =>
    obtain ⟨rfl, rfl⟩ := hi.unique hi'
    rw [hc] at hc'
    cases hc'
    exact ⟨_, _, rfl, hf, move_self ..⟩
  | spurious hi' | resume hi' => exact nomatch congrArg Thread.mode (hi.symm.trans hi')
  | lock hi' hc' | unlock hi' hc' | wait hi' hc' | signal_one hi' hc' | signal_none hi' hc'
  | broadcast hi' hc' | branch hi' hc' | create hi' hc' | create_fail hi' hc' | join hi' hc' | ret hi' hc' =>
    obtain ⟨rfl, rfl⟩ := hi.unique hi'
    rw [hc] at hc'
    cases hc'

theorem Step.frame {c d : Config ι σ L κ P} {a : Label ι χ} {j : ι} (h : Step code c a d)
    (hj : j ≠ a.actor) : (d.thread j).pc = (c.thread j).pc ∧ (d.thread j).loc = (c.thread j).loc := by
  let Same (c' : Config ι σ L κ P) : Prop :=
    (c'.thread j).pc = (c.thread j).pc ∧ (c'.thread j).loc = (c.thread j).loc
  have key : ∀ (t : Thread L κ P) (c' : Config ι σ L κ P), Same c' → Same (c'.move a.actor t) := by
    intro t c' hc'
    simpa only [Same, move_other c' t hj] using hc'
  have other : ∀ (i : ι) (m : Mode κ), Same (c.move i { c.thread i with mode := m }) := by
    intro i m
    by_cases hi : j = i
    · simp only [Same, hi, move_self, and_self]
    · simp only [Same, move_other _ _ hi, and_self]
  cases h with
  | signal_one => exact key _ _ (other ..)
  | create => exact key _ _ (other ..)
  | @broadcast i p l k =>
    refine key _ _ ?_
    by_cases hb : (c.thread j).mode = .blocked k <;> simp [Same, wakeAll, hb, wake]
  | _ => exact key _ c ⟨rfl, rfl⟩

omit [DecidableEq κ] in
theorem sum_change {M : Type} [AddCommMonoid M] [Fintype ι] {f g : ι → M} (i : ι)
    (h : ∀ j, j ≠ i → g j = f j) : ∑ j, g j + f i = ∑ j, f j + g i := by
  have he : ∑ j ∈ Finset.univ.erase i, g j = ∑ j ∈ Finset.univ.erase i, f j :=
    Finset.sum_congr rfl fun j hj => h j (Finset.ne_of_mem_erase hj)
  rw [← Finset.sum_erase_add _ g (Finset.mem_univ i), ← Finset.sum_erase_add _ f (Finset.mem_univ i), he]
  exact add_right_comm ..

theorem Step.sum {M : Type} [AddCommMonoid M] [Fintype ι] (w : P → L → M) {c d : Config ι σ L κ P}
    {a : Label ι χ} (h : Step code c a d) :
    ∑ i, w (d.thread i).pc (d.thread i).loc + w (c.thread a.actor).pc (c.thread a.actor).loc =
      ∑ i, w (c.thread i).pc (c.thread i).loc + w (d.thread a.actor).pc (d.thread a.actor).loc := by
  have hw : ∀ j, j ≠ a.actor →
      w (d.thread j).pc (d.thread j).loc = w (c.thread j).pc (c.thread j).loc := by
    intro j hj
    obtain ⟨hp, hl⟩ := h.frame hj
    rw [hp, hl]
  exact sum_change a.actor hw

variable {init : Config ι σ L κ P → Prop}

theorem idle_of_start {G : ι → Prop} (hinit : ∀ c, init c → ∀ i, (c.thread i).mode = .idle → G i)
    {c : Config ι σ L κ P} (h : Reachable (system code init) c) {i : ι}
    (hi : (c.thread i).mode = .idle) : G i := by
  have hinv : Invariant (system code init) fun c => ∀ i, (c.thread i).mode = .idle → G i :=
    ⟨hinit, fun _ _ _ _ ih hs i hi => ih i (hs.idle_of hi)⟩
  exact hinv.holds h i hi

theorem returned_at_ret (hinit : ∀ c, init c → ∀ i, (c.thread i).mode ≠ .returned)
    {c : Config ι σ L κ P} (h : Reachable (system code init) c) {i : ι}
    (hi : (c.thread i).mode = .returned) : code (c.thread i).pc = .ret := by
  have hinv : Invariant (system code init) fun c =>
      ∀ i, (c.thread i).mode = .returned → code (c.thread i).pc = .ret := by
    refine ⟨fun c hc i hi => absurd hi (hinit c hc i), fun c a d _ ih hs i hi => ?_⟩
    rcases hs.mode_cases hi nofun nofun with hm | ⟨p, l, hp, ⟨hc, ht⟩ | ⟨k, q, -, ht, -⟩⟩
    · rw [hs.returned hm]
      exact ih i hm
    · rw [ht]
      exact hc
    · rw [ht] at hi
      cases hi
  exact hinv.holds h i hi

end EmbeddedLinuxTraining.Library.Pthread
