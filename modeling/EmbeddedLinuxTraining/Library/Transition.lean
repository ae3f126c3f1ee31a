import Mathlib.Data.Nat.Notation
import Mathlib.Logic.Relation

namespace EmbeddedLinuxTraining.Library.Transition

structure System (σ α : Type) where
  init : σ → Prop
  step : σ → α → σ → Prop

variable {σ τ α β : Type}

inductive Reachable (S : System σ α) : σ → Prop
  | start {s : σ} : S.init s → Reachable S s
  | next {s t : σ} {a : α} : Reachable S s → S.step s a t → Reachable S t

def System.restrict (S : System σ α) (ok : σ → α → Prop) : System σ α where
  init := S.init
  step s a t := S.step s a t ∧ ok s a

theorem Reachable.of_restrict {S : System σ α} {ok : σ → α → Prop} {s : σ}
    (h : Reachable (S.restrict ok) s) : Reachable S s := by
  induction h with
  | start hs => exact .start hs
  | next _ ht ih => exact .next ih ht.1

theorem Reachable.to_restrict {S : System σ α} {ok : σ → α → Prop}
    (hok : ∀ s a t, Reachable S s → S.step s a t → ok s a) {s : σ} (h : Reachable S s) :
    Reachable (S.restrict ok) s := by
  induction h with
  | start hs => exact .start hs
  | next hr ht ih => exact .next ih ⟨ht, hok _ _ _ hr ht⟩

theorem Reachable.mono {S T : System σ α} (hinit : ∀ s, S.init s → T.init s)
    (hstep : ∀ s a t, S.step s a t → T.step s a t) {s : σ} (h : Reachable S s) : Reachable T s := by
  induction h with
  | start hs => exact .start (hinit _ hs)
  | next _ ht ih => exact .next ih (hstep _ _ _ ht)

/-- Where every step of `S` looks through `f` like a step of `T` or like none, the runs of `S` look like
runs of `T`. -/
theorem Reachable.refine {S : System σ α} {T : System τ β} (f : σ → τ)
    (hinit : ∀ s, S.init s → T.init (f s))
    (hstep : ∀ s a t, Reachable S s → S.step s a t → f t = f s ∨ ∃ b, T.step (f s) b (f t)) {s : σ}
    (h : Reachable S s) : Reachable T (f s) := by
  induction h with
  | start hs => exact .start (hinit _ hs)
  | next hr ht ih =>
    rcases hstep _ _ _ hr ht with he | ⟨b, hb⟩
    · rw [he]
      exact ih
    · exact ih.next hb

/-- Where `T` can follow every step of `S` from a state that corresponds to one that does again. -/
theorem Reachable.simulate {S : System σ α} {T : System τ β} (R : σ → τ → Prop)
    (hinit : ∀ s, S.init s → ∃ t, T.init t ∧ R s t)
    (hstep : ∀ s a s' t, Reachable S s → Reachable T t → S.step s a s' → R s t →
      ∃ t', (t' = t ∨ ∃ b, T.step t b t') ∧ R s' t') {s : σ}
    (h : Reachable S s) : ∃ t, Reachable T t ∧ R s t := by
  induction h with
  | start hs =>
    obtain ⟨t, ht, hR⟩ := hinit _ hs
    exact ⟨t, .start ht, hR⟩
  | next hr hs ih =>
    obtain ⟨t, ht, hR⟩ := ih
    obtain ⟨t', rfl | ⟨b, hb⟩, hR'⟩ := hstep _ _ _ _ hr ht hs hR
    · exact ⟨t', ht, hR'⟩
    · exact ⟨t', ht.next hb, hR'⟩

def System.after (S : System σ α) (t : σ) : System σ α where
  init s := s = t
  step := S.step

theorem Reachable.trans {S : System σ α} {s t : σ} (hs : Reachable S s)
    (ht : Reachable (S.after s) t) : Reachable S t := by
  induction ht with
  | start he =>
    rw [he]
    exact hs
  | next _ hu ih => exact ih.next hu

/-- A system that is never stuck before `F` and whose steps use up the measure `m` can always be run
on to `F`. -/
theorem Reachable.exists_final {S : System σ α} {F : σ → Prop} (m : σ → ℕ)
    (hm : ∀ s a t, Reachable S s → S.step s a t → m t < m s)
    (hF : ∀ s, Reachable S s → ¬ F s → ∃ a t, S.step s a t) {s : σ} (h : Reachable S s) :
    ∃ t, Reachable (S.after s) t ∧ F t := by
  have key : ∀ n t, Reachable (S.after s) t → m t < n → ∃ u, Reachable (S.after s) u ∧ F u := by
    intro n
    induction n with
    | zero => exact fun t _ ht => absurd ht (Nat.not_lt_zero _)
    | succ n ih =>
      intro t hr ht
      by_cases hf : F t
      · exact ⟨t, hr, hf⟩
      · obtain ⟨a, u, hu⟩ := hF t (h.trans hr) hf
        have hlt := hm t a u (h.trans hr) hu
        apply ih u (hr.next hu)
        omega
  exact key (m s + 1) s (.start rfl) (Nat.lt_succ_self _)

def execute (next : σ → α → Option σ) (s : σ) (as : List α) : Option σ := as.foldlM next s

theorem execute_keeps {next : σ → α → Option σ} {I : σ → Prop}
    (hstep : ∀ s a t, I s → next s a = some t → I t) {s t : σ} {as : List α} (hs : I s)
    (he : execute next s as = some t) : I t := by
  induction as generalizing s with
  | nil =>
    cases he
    exact hs
  | cons a as ih =>
    unfold execute at he
    rw [List.foldlM_cons] at he
    obtain ⟨u, hu, ht⟩ := Option.bind_eq_some_iff.mp he
    exact ih (hstep s a u hs hu) ht

theorem Reachable.execute {S : System σ α} {next : σ → α → Option σ}
    (hnext : ∀ s a t, next s a = some t → S.step s a t) {s t : σ} {as : List α} (h : Reachable S s)
    (he : execute next s as = some t) : Reachable S t := by
  apply execute_keeps _ h he
  intro s a t hs ht
  exact hs.next (hnext s a t ht)

structure Invariant (S : System σ α) (I : σ → Prop) : Prop where
  init : ∀ s, S.init s → I s
  step : ∀ s a t, Reachable S s → I s → S.step s a t → I t

theorem Invariant.holds {S : System σ α} {I : σ → Prop} (hI : Invariant S I) {s : σ}
    (h : Reachable S s) : I s := by
  induction h with
  | start hs => exact hI.init _ hs
  | next hr ht ih => exact hI.step _ _ _ hr ih ht

end EmbeddedLinuxTraining.Library.Transition
