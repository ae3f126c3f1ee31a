import EmbeddedLinuxTraining.Library.Pthread

namespace EmbeddedLinuxTraining.Library.Pthread

open Transition Config

variable {ι σ L κ χ P : Type} [DecidableEq ι]

structure Solo (ι σ L P : Type) where
  shared : σ
  owner : Option ι
  pc : P
  loc : L

def soloNext (code : P → Instr ι σ L κ χ P) (x : χ) (i : ι) (t : Solo ι σ L P) : Option (Solo ι σ L P) :=
  match code t.pc with
  | .lock q => if t.owner = none then some { t with owner := some i, pc := q } else none
  | .unlock q => if t.owner = some i then some { t with owner := none, pc := q } else none
  | .signal _ q | .broadcast _ q => some { t with pc := q }
  | .branch test yes no => some { t with pc := bif test t.shared t.loc then yes else no }
  | .act f q => (f x t.shared t.loc).map fun r => { t with shared := r.1, pc := q, loc := r.2 }
  | .wait _ _ | .create _ _ _ | .join _ _ | .ret => none

def soloRun (code : P → Instr ι σ L κ χ P) (x : χ) (i : ι) : ℕ → Solo ι σ L P → Option (Solo ι σ L P)
  | 0, t => some t
  | n + 1, t => (soloNext code x i t).bind (soloRun code x i n)

structure SoloAt (c : Config ι σ L κ P) (i : ι) (t : Solo ι σ L P) (d : Config ι σ L κ P) : Prop where
  shared : d.shared = t.shared
  owner : d.owner = t.owner
  self : d.At i t.pc t.loc
  others : ∀ j, j ≠ i → d.thread j = c.thread j

variable {code : P → Instr ι σ L κ χ P} {c d e : Config ι σ L κ P} {i : ι} {t u : Solo ι σ L P}

theorem SoloAt.goto (h : SoloAt c i t d) (he : e.thread = (d.goto i u.pc u.loc).thread)
    (hs : e.shared = u.shared) (ho : e.owner = u.owner) : SoloAt c i u e where
  shared := hs
  owner := ho
  self := by rw [At, he]; exact move_self ..
  others j hj := by rw [he]; exact (move_other _ _ hj).trans (h.others j hj)

theorem SoloAt.awake (hq : ∀ j k, (c.thread j).mode ≠ .blocked k) (h : SoloAt c i t d) (j : ι)
    (k : κ) : (d.thread j).mode ≠ .blocked k := by
  by_cases hj : j = i
  · rw [hj, h.self.thread]
    nofun
  · rw [h.others j hj]
    exact hq j k

variable [DecidableEq κ]

omit [DecidableEq ι] in
theorem wakeAll_of_awake {k : κ} (h : ∀ j, (d.thread j).mode ≠ .blocked k) : d.wakeAll k = d := by
  have hthread : (d.wakeAll k).thread = d.thread := by
    funext j
    simp [Config.wakeAll, h j]
  calc d.wakeAll k = ⟨d.shared, d.owner, (d.wakeAll k).thread⟩ := rfl
    _ = d := by rw [hthread]

theorem soloNext_step {x : χ} (hq : ∀ j k, (c.thread j).mode ≠ .blocked k) (h : SoloAt c i t d)
    (hn : soloNext code x i t = some u) : ∃ a e, Step code d a e ∧ SoloAt c i u e := by
  have hs := h.shared
  have ho := h.owner
  unfold soloNext at hn
  split at hn
  case h_1 q hc =>
    split_ifs at hn with hf
    cases hn
    exact ⟨_, _, .lock h.self hc (ho.trans hf), h.goto rfl hs rfl⟩
  case h_2 q hc =>
    split_ifs at hn with hf
    cases hn
    exact ⟨_, _, .unlock h.self hc (ho.trans hf), h.goto rfl hs rfl⟩
  case h_3 k q hc =>
    cases hn
    exact ⟨_, _, .signal_none h.self hc fun j => h.awake hq j k, h.goto rfl hs ho⟩
  case h_4 k q hc =>
    cases hn
    refine ⟨_, _, .broadcast h.self hc, ?_⟩
    rw [wakeAll_of_awake fun j => h.awake hq j k]
    exact h.goto rfl hs ho
  case h_5 test yes no hc =>
    cases hn
    refine ⟨_, _, .branch h.self hc, ?_⟩
    rw [hs]
    exact h.goto rfl hs ho
  case h_6 f q hc =>
    obtain ⟨r, hr, rfl⟩ := Option.map_eq_some_iff.mp hn
    rw [← hs] at hr
    exact ⟨_, _, .act h.self hc hr, h.goto rfl rfl ho⟩
  all_goals cases hn

theorem reachable_of_soloRun {init : Config ι σ L κ P → Prop} {x : χ} {n : ℕ} {p : P} {l : L}
    (hc : Reachable (system code init : System (Config ι σ L κ P) (Label ι χ)) c)
    (hq : ∀ j k, (c.thread j).mode ≠ .blocked k) (hi : c.At i p l)
    (hn : soloRun code x i n ⟨c.shared, c.owner, p, l⟩ = some u) :
    ∃ d, Reachable (system code init : System (Config ι σ L κ P) (Label ι χ)) d ∧ SoloAt c i u d := by
  have key : ∀ n t d, Reachable (system code init : System (Config ι σ L κ P) (Label ι χ)) d →
      SoloAt c i t d → soloRun code x i n t = some u →
      ∃ e, Reachable (system code init : System (Config ι σ L κ P) (Label ι χ)) e ∧ SoloAt c i u e := by
    intro n
    induction n with
    | zero =>
      intro t d hd ht hrun
      cases hrun
      exact ⟨d, hd, ht⟩
    | succ n ih =>
      intro t d hd ht hrun
      obtain ⟨t', hnext, hrest⟩ := Option.bind_eq_some_iff.mp hrun
      obtain ⟨a, e, hstep, he⟩ := soloNext_step hq ht hnext
      exact ih t' e (.next hd hstep) he hrest
  exact key n _ c hc ⟨rfl, rfl, hi, fun _ _ => rfl⟩ hn

end EmbeddedLinuxTraining.Library.Pthread
