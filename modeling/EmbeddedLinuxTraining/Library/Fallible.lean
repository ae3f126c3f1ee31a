namespace EmbeddedLinuxTraining.Library

inductive Fallible (σ α : Type)
  | undefined
  | fail (s : σ)
  | ok (a : α) (s : σ)

def Procedure (σ α : Type) : Type := σ → Fallible σ α

namespace Procedure

variable {σ α β : Type} {m : Procedure σ α} {f : α → Procedure σ β} {s s' : σ} {a : α}
  {F F' : σ → Prop} {Q Q' : α → σ → Prop} {R : β → σ → Prop}

instance : Monad (Procedure σ) where
  pure a := fun s => .ok a s
  bind m f := fun s =>
    match m s with
    | .undefined => .undefined
    | .fail s' => .fail s'
    | .ok a s' => f a s'

def get : Procedure σ σ := fun s => .ok s s

def modify (f : σ → σ) : Procedure σ Unit := fun s => .ok () (f s)

def fail : Procedure σ α := fun s => .fail s

def undefined : Procedure σ α := fun _ => .undefined

def onFail (m : Procedure σ α) (f : σ → σ) : Procedure σ α := fun s =>
  match m s with
  | .undefined => .undefined
  | .fail s' => .fail (f s')
  | .ok a s' => .ok a s'

/-- Nothing undefined happens from `s` on; `m` fails with `F` or ends with `Q`. -/
def Meets (m : Procedure σ α) (s : σ) (F : σ → Prop) (Q : α → σ → Prop) : Prop :=
  match m s with
  | .undefined => False
  | .fail s' => F s'
  | .ok a s' => Q a s'

@[simp] theorem meets_pure : Meets (pure a) s F Q ↔ Q a s := Iff.rfl

@[simp] theorem meets_get {Q : σ → σ → Prop} : Meets get s F Q ↔ Q s s := Iff.rfl

@[simp] theorem meets_modify {g : σ → σ} {Q : Unit → σ → Prop} : Meets (modify g) s F Q ↔ Q () (g s) := Iff.rfl

@[simp] theorem meets_fail : Meets (fail : Procedure σ α) s F Q ↔ F s := Iff.rfl

@[simp] theorem meets_bind : Meets (m >>= f) s F R ↔ Meets m s F fun a s' => Meets (f a) s' F R := by
  simp only [Meets, bind]
  cases m s <;> rfl

@[simp] theorem meets_onFail {g : σ → σ} : Meets (m.onFail g) s F Q ↔ Meets m s (fun s' => F (g s')) Q := by
  simp only [Meets, onFail]
  cases m s <;> rfl

@[simp] theorem meets_ite {p : Prop} [Decidable p] {m' : Procedure σ α} :
    Meets (if p then m else m') s F Q ↔ (p → Meets m s F Q) ∧ (¬ p → Meets m' s F Q) := by
  by_cases h : p <;> simp [h]

theorem get_bind {f : σ → Procedure σ β} : (get >>= f) s = f s s := rfl

theorem bind_undefined (h : m s = .undefined) : (m >>= f) s = .undefined := by
  simp only [bind, h]

theorem bind_fail (h : m s = .fail s') : (m >>= f) s = .fail s' := by
  simp only [bind, h]

theorem bind_eq_ok {b : β} : (m >>= f) s = .ok b s' ↔ ∃ a t, m s = .ok a t ∧ f a t = .ok b s' := by
  simp only [bind]
  cases m s with
  | undefined => simp
  | fail t => simp
  | ok a t =>
    constructor
    · intro h
      exact ⟨a, t, rfl, h⟩
    · rintro ⟨a', t', he, h⟩
      cases he
      exact h

theorem get_eq_ok {t : σ} : get s = .ok t s' ↔ t = s ∧ s' = s := by
  simp only [get, Fallible.ok.injEq, eq_comm]

theorem modify_eq_ok {g : σ → σ} {u : Unit} : modify g s = .ok u s' ↔ s' = g s := by
  simp only [modify, Fallible.ok.injEq, true_and, eq_comm]

theorem pure_eq_ok {a' : α} : (pure a : Procedure σ α) s = .ok a' s' ↔ a' = a ∧ s' = s := by
  simp only [pure, Fallible.ok.injEq, eq_comm]

theorem fail_eq_ok : (fail : Procedure σ α) s = .ok a s' ↔ False := by
  simp [fail]

theorem onFail_eq_ok {g : σ → σ} : m.onFail g s = .ok a s' ↔ m s = .ok a s' := by
  simp only [onFail]
  cases m s <;> simp

theorem ite_eq_ok {p : Prop} [Decidable p] {m' : Procedure σ α} :
    (if p then m else m') s = .ok a s' ↔ (p → m s = .ok a s') ∧ (¬ p → m' s = .ok a s') := by
  by_cases h : p <;> simp [h]

/-- What `ite_eq_ok` leaves where one of the two branches fails -/
theorem refused_iff {p q : Prop} : (p → False) ∧ (¬ p → q) ↔ ¬ p ∧ q := by
  constructor
  · rintro ⟨hno, hq⟩
    exact ⟨hno, hq hno⟩
  · rintro ⟨hno, hq⟩
    exact ⟨hno, fun _ => hq⟩

theorem needed_iff {p q : Prop} : (¬ p → False) ∧ (p → q) ↔ p ∧ q := by
  constructor
  · rintro ⟨hp, hq⟩
    exact ⟨Classical.not_not.mp hp, hq (Classical.not_not.mp hp)⟩
  · rintro ⟨hp, hq⟩
    exact ⟨fun hno => hno hp, fun _ => hq⟩

theorem Meets.mono (h : Meets m s F Q) (hfail : ∀ s', F s' → F' s') (hok : ∀ a s', Q a s' → Q' a s') :
    Meets m s F' Q' := by
  simp only [Meets] at h ⊢
  cases hm : m s with
  | undefined => simp only [hm] at h
  | fail s' =>
    simp only [hm] at h
    exact hfail s' h
  | ok a s' =>
    simp only [hm] at h
    exact hok a s' h

theorem Meets.bind (h : Meets m s F Q) (hfail : ∀ s', F s' → F' s') (hok : ∀ a s', Q a s' → Meets (f a) s' F' R) :
    Meets (m >>= f) s F' R :=
  meets_bind.mpr (h.mono hfail hok)

theorem Meets.ok (h : Meets m s F Q) (hm : m s = .ok a s') : Q a s' := by
  simpa only [Meets, hm] using h

theorem Meets.fail (h : Meets m s F Q) (hm : m s = .fail s') : F s' := by
  simpa only [Meets, hm] using h

end Procedure

end EmbeddedLinuxTraining.Library
