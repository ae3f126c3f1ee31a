import Mathlib.Data.List.Basic

namespace EmbeddedLinuxTraining.Library.BoundedFifo

variable {α β : Type}

inductive Op (α : Type)
  | put (x : α)
  | get (x : α)
  deriving DecidableEq

namespace Op

def isPut : Op α → Bool
  | put _ => true
  | get _ => false

def stored? : Op α → Option α
  | put x => some x
  | get _ => none

def taken? : Op α → Option α
  | put _ => none
  | get x => some x

end Op

def accepted (log : List (Op α)) : List α := log.filterMap Op.stored?

def delivered (log : List (Op α)) : List α := log.filterMap Op.taken?

@[simp] theorem accepted_nil : accepted ([] : List (Op α)) = [] := rfl

@[simp] theorem delivered_nil : delivered ([] : List (Op α)) = [] := rfl

@[simp] theorem accepted_put (log : List (Op α)) (x : α) :
    accepted (log ++ [.put x]) = accepted log ++ [x] := by
  simp [accepted, Op.stored?]

@[simp] theorem accepted_get (log : List (Op α)) (x : α) :
    accepted (log ++ [.get x]) = accepted log := by
  simp [accepted, Op.stored?]

@[simp] theorem delivered_put (log : List (Op α)) (x : α) :
    delivered (log ++ [.put x]) = delivered log := by
  simp [delivered, Op.taken?]

@[simp] theorem delivered_get (log : List (Op α)) (x : α) :
    delivered (log ++ [.get x]) = delivered log ++ [x] := by
  simp [delivered, Op.taken?]

inductive Legal (cap : ℕ) : List (Op α) → List α → Prop
  | nil : Legal cap [] []
  | put {log : List (Op α)} {q : List α} (x : α) : Legal cap log q → q.length < cap →
      Legal cap (log ++ [.put x]) (q ++ [x])
  | get {log : List (Op α)} {q : List α} {x : α} : Legal cap log (x :: q) →
      Legal cap (log ++ [.get x]) q

theorem Legal.bound {cap : ℕ} {log : List (Op α)} {q : List α} (h : Legal cap log q) :
    q.length ≤ cap := by
  induction h with
  | nil => simp
  | put x h hlt ih => simp only [List.length_append, List.length_singleton]; omega
  | get h ih => simp only [List.length_cons] at ih; omega

theorem Legal.balance {cap : ℕ} {log : List (Op α)} {q : List α} (h : Legal cap log q) :
    accepted log = delivered log ++ q := by
  induction h with
  | nil => rfl
  | put x h hlt ih => rw [accepted_put, delivered_put, ih, List.append_assoc]
  | get h ih => rw [accepted_get, delivered_get, ih, List.append_assoc, List.singleton_append]

theorem getElem?_concat {l : List α} {x y : α} {n : ℕ} (h : (l ++ [x])[n]? = some y) :
    l[n]? = some y ∨ n = l.length ∧ y = x := by
  rcases Nat.lt_trichotomy n l.length with hn | hn | hn
  · rw [List.getElem?_append_left hn] at h
    exact .inl h
  · subst hn
    simp only [List.getElem?_concat_length, Option.some.injEq] at h
    exact .inr ⟨rfl, h.symm⟩
  · rw [List.getElem?_eq_none (by simp only [List.length_append, List.length_singleton]; omega)] at h
    cases h

theorem Legal.alternates {log : List (Op α)} {q : List α} (h : Legal 1 log q) :
    log.length % 2 = q.length ∧ ∀ n op, log[n]? = some op → op.isPut = decide (n % 2 = 0) := by
  induction h with
  | nil => simp
  | put x h hlt ih =>
    obtain ⟨hpar, hop⟩ := ih
    refine ⟨by simp only [List.length_append, List.length_singleton]; omega, fun n op hn => ?_⟩
    rcases getElem?_concat hn with hn | ⟨rfl, rfl⟩
    · exact hop n op hn
    · simp only [Op.isPut, true_eq_decide_iff]; omega
  | get h ih =>
    obtain ⟨hpar, hop⟩ := ih
    have hb := h.bound
    simp only [List.length_cons] at hpar hb
    refine ⟨by simp only [List.length_append, List.length_singleton]; omega, fun n op hn => ?_⟩
    rcases getElem?_concat hn with hn | ⟨rfl, rfl⟩
    · exact hop n op hn
    · simp only [Op.isPut, false_eq_decide_iff]; omega

structure Buffer (β α : Type) where
  full : β → Bool
  empty : β → Bool
  put : α → β → β
  get : β → α × β

structure Buffer.Implements (B : Buffer β α) (cap : ℕ) where
  wf : β → Prop
  contents : β → List α
  bound : ∀ {b}, wf b → (contents b).length ≤ cap
  full_iff : ∀ {b}, wf b → (B.full b = true ↔ (contents b).length = cap)
  empty_iff : ∀ {b}, wf b → (B.empty b = true ↔ contents b = [])
  put : ∀ {b} x, wf b → (contents b).length < cap →
    wf (B.put x b) ∧ contents (B.put x b) = contents b ++ [x]
  get : ∀ {b x xs}, wf b → contents b = x :: xs →
    (B.get b).1 = x ∧ wf (B.get b).2 ∧ contents (B.get b).2 = xs

variable {B : Buffer β α} {cap : ℕ}

structure Tracks (F : B.Implements cap) (log : List (Op α)) (b : β) : Prop where
  wf : F.wf b
  legal : Legal cap log (F.contents b)

variable {F : B.Implements cap} {log : List (Op α)} {b : β}

theorem Tracks.put (h : Tracks F log b) (hf : B.full b = false) (x : α) :
    Tracks F (log ++ [.put x]) (B.put x b) := by
  have hne : (F.contents b).length ≠ cap := fun he => by
    rw [(F.full_iff h.wf).mpr he] at hf
    cases hf
  have hlt : (F.contents b).length < cap := Nat.lt_of_le_of_ne (F.bound h.wf) hne
  obtain ⟨hw, hc⟩ := F.put x h.wf hlt
  exact ⟨hw, hc ▸ h.legal.put x hlt⟩

theorem Tracks.get (h : Tracks F log b) (he : B.empty b = false) :
    Tracks F (log ++ [.get (B.get b).1]) (B.get b).2 := by
  cases hq : F.contents b with
  | nil =>
    rw [(F.empty_iff h.wf).mpr hq] at he
    cases he
  | cons x xs =>
    obtain ⟨hx, hw, hc⟩ := F.get h.wf hq
    refine ⟨hw, ?_⟩
    rw [hx, hc]
    exact (hq ▸ h.legal).get

end EmbeddedLinuxTraining.Library.BoundedFifo
