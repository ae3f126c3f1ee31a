import EmbeddedLinuxTraining.Library.Outline

/-!
Lost wakeups. Whoever makes work available announces it next, by a signal or by a
broadcast, and a thread goes to sleep only where it has seen that there is no work.
-/

namespace EmbeddedLinuxTraining.Library.Pthread

open Transition Config

variable {ι σ L κ χ P : Type} [DecidableEq ι] [DecidableEq κ]

structure Announces (code : P → Instr ι σ L κ χ P) (O : Outline ι σ L κ P) (k : κ)
    (announce : P → Instr ι σ L κ χ P) (work : σ → Prop) : Prop where
  sleep : ∀ {p q i l s}, code p = .wait k q → O.running i p l s → ¬ work s
  act : ∀ {p f q i l s x s' l'}, code p = .act f q → f x s l = some (s', l') →
    O.running i p l s → work s' → work s ∨ ∃ r, code q = announce r

/-- Work is there only if its announcement is still to come or has had its effect. -/
def Attended (code : P → Instr ι σ L κ χ P) (announce : P → Instr ι σ L κ χ P) (work : σ → Prop)
    (heard : Config ι σ L κ P → Prop) (c : Config ι σ L κ P) : Prop :=
  work c.shared → (∃ i p l q, c.At i p l ∧ code p = announce q) ∨ heard c

def SomeAwake (k : κ) (G : ι → Prop) (c : Config ι σ L κ P) : Prop :=
  ∃ i, G i ∧ (c.thread i).mode ≠ .blocked k

def AllAwake (k : κ) (c : Config ι σ L κ P) : Prop := ∀ i, (c.thread i).mode ≠ .blocked k

variable {code : P → Instr ι σ L κ χ P} {O : Outline ι σ L κ P} {k : κ} {G : ι → Prop}
  {work : σ → Prop} {announce : P → Instr ι σ L κ χ P} {heard : Config ι σ L κ P → Prop}

theorem Announces.step (hw : Announces code O k announce work) {c d : Config ι σ L κ P}
    {a : Label ι χ} (hO : O.Sat code c) (hs : Step code c a d)
    (told : ∀ p q l, c.At a.actor p l → code p = announce q → heard d)
    (kept : (∀ j, (d.thread j).mode = .blocked k → (c.thread j).mode = .blocked k) →
      heard c → heard d)
    (h : Attended code announce work heard c) : Attended code announce work heard d := by
  intro hwork
  have hprev : work c.shared ∨ ∃ i p l q, d.At i p l ∧ code p = announce q := by
    rcases hs.actor_cases with ⟨p, l, f, q, x, l', hi, hc, hf, hd⟩ | ⟨he, -⟩
    · rcases hw.act hc hf (hO.at hi) hwork with h | ⟨r, hr⟩
      · exact .inl h
      · exact .inr ⟨_, q, l', r, hd, hr⟩
    · exact .inl (he ▸ hwork)
  rcases hprev with hprev | hnext
  · rcases h hprev with ⟨i, p, l, q, hi, hc⟩ | hheard
    · by_cases ha : a.actor = i
      · subst ha
        exact .inr (told p q l hi hc)
      · exact .inl ⟨i, p, l, q, hs.at_other hi ha, hc⟩
    · refine .inr (kept (fun j hb => ?_) hheard)
      rcases hs.blocked_cases hb with hb | ⟨p, l, q, hp, hc, -, -⟩
      · exact hb
      · exact absurd hprev (hw.sleep hc (hO.at hp))
  · exact .inl hnext

theorem someAwake_of_signal
    (hasleep : ∀ {p k' q i l s}, code p = .wait k' q → O.asrt i ⟨q, l, .blocked k⟩ s → G i)
    (hG : ∃ i, G i) {c d : Config ι σ L κ P} {a : Label ι χ} {p q : P} {l : L} (hO : O.Sat code c)
    (hi : c.At a.actor p l) (hc : code p = .signal k q) (hs : Step code c a d) :
    SomeAwake k G d := by
  have he := hs.effect hi
  rw [hc] at he
  rcases he with ⟨j, hji, hj, rfl⟩ | ⟨hn, rfl⟩
  · have hb := hO.each j
    rw [show c.thread j = ⟨_, _, .blocked k⟩ from by rw [← hj]] at hb
    obtain ⟨p', k', hw⟩ := hO.resumes j (.inl ⟨k, hj⟩)
    refine ⟨j, hasleep hw hb, ?_⟩
    rw [Config.goto, move_other _ _ hji, move_self]
    simp [wake]
  · obtain ⟨g, hg⟩ := hG
    refine ⟨g, hg, ?_⟩
    by_cases hga : g = a.actor
    · rw [Config.goto, hga, move_self]
      simp
    · rw [Config.goto, move_other _ _ hga]
      exact hn g

theorem allAwake_of_broadcast {c d : Config ι σ L κ P} {a : Label ι χ} {p q : P} {l : L}
    (hi : c.At a.actor p l) (hc : code p = .broadcast k q) (hs : Step code c a d) :
    AllAwake k d := by
  have he := hs.effect hi
  rw [hc] at he
  intro j
  rw [show d = _ from he]
  exact wakeAll_goto_awake c k a.actor q l j

variable {init : Config ι σ L κ P → Prop}

omit [DecidableEq ι] [DecidableEq κ] in
theorem Attended.heard_of_free {c : Config ι σ L κ P} (h : Attended code announce work heard c)
    (hO : O.Sat code c) (hheld : ∀ {p q}, code p = announce q → O.holds p = true)
    (hf : c.owner = none) (hwork : work c.shared) : heard c := by
  rcases h hwork with ⟨i, p, l, q, hi, hc⟩ | h
  · exact nomatch ((hO.holds_iff hi).mp (hheld hc)).symm.trans hf
  · exact h

theorem Announces.someAwake (hw : Announces code O k (.signal k) work) (hO : O.Valid code)
    (hasleep : ∀ {p k' q i l s}, code p = .wait k' q → O.asrt i ⟨q, l, .blocked k⟩ s → G i)
    (hG : ∃ i, G i) (hheld : ∀ {p q}, code p = .signal k q → O.holds p = true)
    (hinit : ∀ c, init c → O.Sat code c ∧ (work c.shared → SomeAwake k G c)) {c : Config ι σ L κ P}
    (h : Reachable (system code init) c) (hf : c.owner = none) (hwork : work c.shared) :
    SomeAwake k G c := by
  have hsat {c} (h : Reachable (system code init) c) := hO.sound (fun c hc => (hinit c hc).1) h
  have hinv : Invariant (system code init) (Attended code (.signal k) work (SomeAwake k G)) := by
    refine ⟨fun c hc hw' => .inr ((hinit c hc).2 hw'), fun c a d hr hc hs => ?_⟩
    refine hw.step (hsat hr) hs (fun p q l hi hc => ?_) ?_ hc
    · exact someAwake_of_signal hasleep hG (hsat hr) hi hc hs
    · rintro hb ⟨i, hi, hm⟩
      exact ⟨i, hi, fun h => hm (hb i h)⟩
  exact (hinv.holds h).heard_of_free (hsat h) hheld hf hwork

theorem Announces.allAwake (hw : Announces code O k (.broadcast k) work) (hO : O.Valid code)
    (hheld : ∀ {p q}, code p = .broadcast k q → O.holds p = true)
    (hinit : ∀ c, init c → O.Sat code c ∧ (work c.shared → AllAwake k c)) {c : Config ι σ L κ P}
    (h : Reachable (system code init) c) (hf : c.owner = none) (hwork : work c.shared) :
    AllAwake k c := by
  have hsat {c} (h : Reachable (system code init) c) := hO.sound (fun c hc => (hinit c hc).1) h
  have hinv : Invariant (system code init) (Attended code (.broadcast k) work (AllAwake k)) := by
    refine ⟨fun c hc hw' => .inr ((hinit c hc).2 hw'), fun c a d hr hc hs => ?_⟩
    refine hw.step (hsat hr) hs (fun p q l hi hc => ?_) ?_ hc
    · exact allAwake_of_broadcast hi hc hs
    · exact fun hb hup i h => hup i (hb i h)
  exact (hinv.holds h).heard_of_free (hsat h) hheld hf hwork

end EmbeddedLinuxTraining.Library.Pthread
