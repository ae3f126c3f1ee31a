import EmbeddedLinuxTraining.Library.Pthread

namespace EmbeddedLinuxTraining.Library.Pthread

open Transition Config

variable {ι σ L κ χ P : Type} [DecidableEq ι] [DecidableEq κ] [Fintype ι]

def exec (c : Config ι σ L κ P) (i : ι) (l : L) : Instr ι σ L κ χ P → Option (Config ι σ L κ P)
  | .lock q => if c.owner = none then some { c.goto i q l with owner := some i } else none
  | .unlock q => if c.owner = some i then some { c.goto i q l with owner := none } else none
  | .wait k q =>
    if c.owner = some i then some { c.move i ⟨q, l, .blocked k⟩ with owner := none } else none
  | .signal k q => if ∀ j, (c.thread j).mode ≠ .blocked k then some (c.goto i q l) else none
  | .broadcast k q => some ((c.wakeAll k).goto i q l)
  | .branch test yes no => some (c.goto i (bif test c.shared l then yes else no) l)
  | .act _ _ => none
  | .create child q _ =>
    if (c.thread (child l)).mode = .idle then
      some ((c.move (child l) { c.thread (child l) with mode := .running }).goto i q l)
    else none
  | .join child q => if (c.thread (child l)).mode = .returned then some (c.goto i q l) else none
  | .ret => some (c.move i ⟨(c.thread i).pc, l, .returned⟩)

def next (code : P → Instr ι σ L κ χ P) (c : Config ι σ L κ P) : Label ι χ → Option (Config ι σ L κ P)
  | .run i =>
    if (c.thread i).mode = .running then exec c i (c.thread i).loc (code (c.thread i).pc) else none
  | .input i x =>
    if (c.thread i).mode = .running then
      match code (c.thread i).pc with
      | .act f q => (f x c.shared (c.thread i).loc).map fun r => { c.goto i q r.2 with shared := r.1 }
      | _ => none
    else none
  | .wake i j =>
    if (c.thread i).mode = .running then
      match code (c.thread i).pc with
      | .signal k q =>
        if (c.thread j).mode = .blocked k then
          some ((c.move j (wake (c.thread j))).goto i q (c.thread i).loc)
        else none
      | _ => none
    else none
  | .fail i =>
    if (c.thread i).mode = .running then
      match code (c.thread i).pc with
      | .create _ _ r => some (c.goto i r (c.thread i).loc)
      | _ => none
    else none
  | .spurious i =>
    match (c.thread i).mode with
    | .blocked _ => some (c.move i (wake (c.thread i)))
    | _ => none
  | .resume i =>
    if (c.thread i).mode = .woken ∧ c.owner = none then
      some { c.goto i (c.thread i).pc (c.thread i).loc with owner := some i }
    else none

variable {code : P → Instr ι σ L κ χ P} {c d : Config ι σ L κ P}

omit [DecidableEq ι] [DecidableEq κ] [Fintype ι] in
theorem at_of_running {i : ι} (h : (c.thread i).mode = .running) :
    c.At i (c.thread i).pc (c.thread i).loc := by
  rw [At, ← h]

theorem step_of_exec {i : ι} (h : (c.thread i).mode = .running)
    (he : exec c i (c.thread i).loc (code (c.thread i).pc) = some d) :
    Step code c (.run i) d := by
  have hi := at_of_running h
  cases hc : code (c.thread i).pc with
  | lock q | unlock q | wait k q | signal k q | create child q r | join child q =>
    rw [hc, exec] at he
    split_ifs at he with ho
    cases he
    first
      | exact .lock hi hc ho | exact .unlock hi hc ho | exact .wait hi hc ho
      | exact .signal_none hi hc ho | exact .create hi hc ho | exact .join hi hc ho
  | broadcast k q | branch test yes no | act f q | ret =>
    rw [hc] at he
    cases he <;> first | exact .broadcast hi hc | exact .branch hi hc | exact .ret hi hc

theorem step_of_next {a : Label ι χ} (he : next code c a = some d) : Step code c a d := by
  cases a with
  | run i =>
    simp only [next] at he
    split_ifs at he with h
    exact step_of_exec h he
  | input i x =>
    simp only [next] at he
    split_ifs at he with h
    split at he
    · obtain ⟨r, hr, rfl⟩ := Option.map_eq_some_iff.mp he
      exact .act (at_of_running h) ‹_› hr
    · cases he
  | wake i j =>
    simp only [next] at he
    split_ifs at he with h
    split at he
    · split_ifs at he with hj
      cases he
      exact .signal_one (at_of_running h) ‹_› hj
    · cases he
  | fail i =>
    simp only [next] at he
    split_ifs at he with h
    split at he
    · cases he
      exact .create_fail (at_of_running h) ‹_›
    · cases he
  | spurious i =>
    simp only [next] at he
    split at he
    · cases he
      rename_i k hk
      refine .spurious (k := k) ?_
      rw [← hk]
    · cases he
  | resume i =>
    simp only [next] at he
    split_ifs at he with h
    cases he
    refine .resume ?_ h.2
    rw [← h.1]

def execWhere (ok : Config ι σ L κ P → Label ι χ → Bool) (code : P → Instr ι σ L κ χ P)
    (c : Config ι σ L κ P) (as : List (Label ι χ)) : Option (Config ι σ L κ P) :=
  as.foldlM (fun c a => if ok c a then next code c a else none) c

theorem reachable_of_execWhere {init : Config ι σ L κ P → Prop} {as : List (Label ι χ)}
    {ok : Config ι σ L κ P → Label ι χ → Bool} {allowed : Config ι σ L κ P → Label ι χ → Prop}
    (hok : ∀ c a, ok c a = true → allowed c a)
    (hc : Reachable ((system code init).restrict allowed) c)
    (h : execWhere ok code c as = some d) : Reachable ((system code init).restrict allowed) d := by
  induction as generalizing c with
  | nil =>
    cases h
    exact hc
  | cons a as ih =>
    simp only [execWhere, List.foldlM_cons] at h
    obtain ⟨e, he, hd⟩ := Option.bind_eq_some_iff.mp h
    split_ifs at he with ha
    exact ih (.next hc ⟨step_of_next he, hok c a ha⟩) hd

def execAll (code : P → Instr ι σ L κ χ P) (c : Config ι σ L κ P) (as : List (Label ι χ)) :
    Option (Config ι σ L κ P) :=
  execWhere (fun _ _ => true) code c as

theorem reachable_of_execAll {init : Config ι σ L κ P → Prop} {as : List (Label ι χ)}
    (hc : init c) (h : execAll code c as = some d) : Reachable (system code init) d :=
  Reachable.of_restrict (reachable_of_execWhere (fun _ _ _ => trivial) (.start hc) h)

end EmbeddedLinuxTraining.Library.Pthread
