import Mathlib.Data.Fintype.Card

namespace EmbeddedLinuxTraining.Library.Semaphore

variable {π : Type} {v : ℕ} {inside inside' : π → Prop} {p q : π}

inductive Binary : ℕ → (π → Prop) → Prop
  | free {inside : π → Prop} : (∀ p, ¬ inside p) → Binary 1 inside
  | taken {inside : π → Prop} (p : π) : (∀ q, inside q ↔ q = p) → Binary 0 inside

theorem Binary.congr (h : Binary v inside) (hi : ∀ q, inside' q ↔ inside q) : Binary v inside' := by
  cases h with
  | free hf => exact .free fun q hq => hf q ((hi q).mp hq)
  | taken p hp => exact .taken p fun q => (hi q).trans (hp q)

theorem Binary.enter (h : Binary v inside) (hv : 0 < v) (hp : inside' p)
    (ho : ∀ q, q ≠ p → (inside' q ↔ inside q)) : Binary (v - 1) inside' := by
  cases h with
  | free hf =>
    apply Binary.taken p
    intro q
    constructor
    · intro hq
      by_contra hne
      exact hf q ((ho q hne).mp hq)
    · rintro rfl
      exact hp
  | taken => omega

theorem Binary.exclusive (h : Binary v inside) (hp : inside p) (hq : inside q) : p = q := by
  cases h with
  | free hf => exact absurd hp (hf p)
  | taken r hr => rw [(hr p).mp hp, (hr q).mp hq]

theorem Binary.leave (h : Binary v inside) (hp : inside p) (hp' : ¬ inside' p)
    (ho : ∀ q, q ≠ p → (inside' q ↔ inside q)) : Binary (v + 1) inside' := by
  cases h with
  | free hf => exact absurd hp (hf p)
  | taken r hr =>
    apply Binary.free
    intro q hq
    by_cases hne : q = p
    · exact hp' (hne ▸ hq)
    · exact hne (((hr q).mp ((ho q hne).mp hq)).trans ((hr p).mp hp).symm)

section

variable [Fintype π] [DecidablePred inside] [DecidablePred inside']

theorem Binary.count (h : Binary v inside) : v + (Finset.univ.filter inside).card = 1 := by
  cases h with
  | free hf => rw [Finset.filter_false_of_mem fun p _ => hf p, Finset.card_empty]
  | taken p hp =>
    have hs : Finset.univ.filter inside = {p} := by
      ext q
      simp [hp q]
    rw [hs, Finset.card_singleton]

theorem Binary.intrude (h : Binary v inside) (hp : ¬ inside p) (hp' : inside' p)
    (ho : ∀ q, q ≠ p → (inside' q ↔ inside q)) : v + (Finset.univ.filter inside').card = 2 := by
  have hs : Finset.univ.filter inside' = Finset.cons p (Finset.univ.filter inside) (by simpa using hp) := by
    ext q
    by_cases hq : q = p
    · simp [hq, hp']
    · simp [hq, ho q hq]
  rw [hs, Finset.card_cons, ← Nat.add_assoc, h.count]

end

end EmbeddedLinuxTraining.Library.Semaphore
