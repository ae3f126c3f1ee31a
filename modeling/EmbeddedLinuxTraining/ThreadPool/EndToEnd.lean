import EmbeddedLinuxTraining.Library.Solo
import EmbeddedLinuxTraining.ThreadPool.MainProgram

namespace EmbeddedLinuxTraining.ThreadPool

open Library.BoundedFifo Library.Pthread Library.Transition Config

variable {W T : ℕ} {c d : State (Option (Fin W)) Function}

structure Calm (p : MainPoint) (l : Locals Function) (c : State (Option (Fin W)) Function) : Prop where
  free : c.owner = none
  main : c.At none (.main p) l
  awake : ∀ j k, (c.thread j).mode ≠ .blocked k

theorem Calm.run {p q : MainPoint} {l l' : Locals Function} {s : Shared Function} (h : Calm p l c)
    (hr : Reachable (program W T) c) (n : ℕ)
    (hn : soloRun (code seance6 (threads W)) () none n ⟨c.shared, none, .main p, l⟩ =
      some ⟨s, none, .main q, l'⟩) :
    ∃ d, Reachable (program W T) d ∧ Calm q l' d ∧ d.shared = s ∧
      ∀ k, d.thread (some k) = c.thread (some k) := by
  have hn' := hn
  rw [← h.free] at hn'
  obtain ⟨d, hd, hs⟩ := reachable_of_soloRun hr h.awake h.main hn'
  refine ⟨d, hd, ⟨hs.owner.trans h.free, hs.self, fun j k => hs.awake h.awake j k⟩, hs.shared, ?_⟩
  intro k
  exact hs.others _ (Option.some_ne_none k)

theorem submit_alone {l : Locals Function} {n : ℕ} (h : Calm .call l c)
    (hr : Reachable (program W T) c) (hc : l.calls = mainCalls (n + 1)) :
    ∃ d l', Reachable (program W T) d ∧ Calm .call l' d ∧ l'.calls = mainCalls n ∧
      delivered d.shared.log = delivered c.shared.log ∧
      ∀ k, d.thread (some k) = c.thread (some k) := by
  obtain ⟨size, i, calls, task, own⟩ := l
  obtain rfl : calls = .submitTask userTask :: mainCalls n := hc
  by_cases hlt : c.shared.queue.taskCount < QUEUE_SIZE
  · have hrun : soloRun (code seance6 (threads W)) () none 8
        ⟨c.shared, none, .main .call, size, i, .submitTask userTask :: mainCalls n, task, own⟩ =
        some ⟨(store c.shared ⟨size, i, mainCalls n, some userTask, own⟩).1, none, .main .call,
          size, i, mainCalls n, some userTask, own⟩ := by
      simp [soloRun, soloNext, code, main, fetch, submitTask, hlt, Instr.run, store]
    obtain ⟨d, hd, hcalm, hs, hw⟩ := h.run hr 8 hrun
    refine ⟨d, _, hd, hcalm, rfl, ?_, hw⟩
    rw [hs]
    simp [store]
  · have hrun : soloRun (code seance6 (threads W)) () none 7
        ⟨c.shared, none, .main .call, size, i, .submitTask userTask :: mainCalls n, task, own⟩ =
        some ⟨(printFull c.shared ⟨size, i, mainCalls n, some userTask, own⟩).1, none, .main .call,
          size, i, mainCalls n, some userTask, own⟩ := by
      simp [soloRun, soloNext, code, main, fetch, submitTask, hlt, Instr.run, printFull]
    obtain ⟨d, hd, hcalm, hs, hw⟩ := h.run hr 7 hrun
    refine ⟨d, _, hd, hcalm, rfl, ?_, hw⟩
    rw [hs]
    rfl

theorem submit_all_alone (n : ℕ) {l : Locals Function} (h : Calm .call l c)
    (hr : Reachable (program W T) c) (hc : l.calls = mainCalls n) :
    ∃ d l', Reachable (program W T) d ∧ Calm .call l' d ∧ l'.calls = mainCalls 0 ∧
      delivered d.shared.log = delivered c.shared.log ∧
      ∀ k, d.thread (some k) = c.thread (some k) := by
  induction n generalizing c l with
  | zero => exact ⟨c, l, hr, h, hc, rfl, fun _ => rfl⟩
  | succ n ih =>
    obtain ⟨d, l', hd, hcalm, hl', hlog, hw⟩ := submit_alone h hr hc
    obtain ⟨e, l'', he, hcalm', hl'', hlog', hw'⟩ := ih hcalm hd hl'
    exact ⟨e, l'', he, hcalm', hl'', hlog'.trans hlog, fun k => (hw' k).trans (hw k)⟩

def workerThread (created : Bool) : Thread (Locals Function) Cond Point :=
  ⟨.startThread .lock, .fresh, if created then .running else .idle⟩

theorem Calm.create {l : Locals Function} (h : Calm .create l c) (hr : Reachable (program W T) c)
    (hlt : l.i < W) (hidle : c.thread (some ⟨l.i, hlt⟩) = workerThread false) :
    ∃ d, Reachable (program W T) d ∧ Calm .createNext l d ∧ d.shared = c.shared ∧
      d.thread (some ⟨l.i, hlt⟩) = workerThread true ∧
      ∀ k, k ≠ ⟨l.i, hlt⟩ → d.thread (some k) = c.thread (some k) := by
  let w : Option (Fin W) := some ⟨l.i, hlt⟩
  let d := (c.move w { c.thread w with mode := .running }).goto none (.main .createNext) l
  have hchild : threads W l.i = w := dif_pos hlt
  have hstep : Step (code seance6 (threads W)) c (.run none) d := by
    have hmode : (c.thread (threads W l.i)).mode = .idle := by rw [hchild, hidle]; rfl
    have := Step.create (χ := Unit) h.main (rfl : code seance6 (threads W) (.main .create) = _) hmode
    rwa [hchild] at this
  have hself : d.thread w = workerThread true := by
    have hw : d.thread w = { c.thread w with mode := .running } :=
      (move_other _ _ (Option.some_ne_none _)).trans (move_self ..)
    rw [hw, hidle]
    rfl
  have hother : ∀ k : Fin W, k ≠ ⟨l.i, hlt⟩ → d.thread (some k) = c.thread (some k) := by
    intro k hk
    have hne : some k ≠ w := fun he => hk (Option.some.inj he)
    exact (move_other _ _ (Option.some_ne_none k)).trans (move_other _ _ hne)
  have hawake : ∀ j k, (d.thread j).mode ≠ .blocked k := by
    intro j k
    cases j with
    | none => rw [show d.thread none = _ from goto_at ..]; nofun
    | some j =>
      by_cases hj : j = ⟨l.i, hlt⟩
      · rw [hj, hself]
        nofun
      · rw [hother j hj]
        exact h.awake _ k
  exact ⟨d, .next hr hstep, ⟨h.free, move_self .., hawake⟩, rfl, hself, hother⟩

theorem create_alone (W T n : ℕ) (hn : n ≤ W) : ∃ c : State (Option (Fin W)) Function,
    Reachable (program W T) c ∧ delivered c.shared.log = [] ∧
    Calm .createTest ⟨W, n, mainCalls T, none, []⟩ c ∧
    ∀ k : Fin W, c.thread (some k) = workerThread (decide (k.1 < n)) := by
  induction n with
  | zero =>
    refine ⟨⟨initial fun _ => ⟨none⟩, none, fun i => (mainRole W T i).start⟩,
      .start ⟨rfl, ⟨_, rfl⟩, fun _ => rfl⟩, rfl, ⟨rfl, rfl, ?_⟩, fun _ => rfl⟩
    intro j k
    cases j <;> nofun
  | succ n ih =>
    obtain ⟨c, hr, hlog, hcalm, hw⟩ := ih (by omega)
    have hlt : n < W := hn
    have htest : soloRun (code seance6 (threads W)) () none 1
        ⟨c.shared, none, .main .createTest, W, n, mainCalls T, none, []⟩ =
        some ⟨c.shared, none, .main .create, W, n, mainCalls T, none, []⟩ := by
      simp [soloRun, soloNext, code, main, hlt]
    obtain ⟨c₁, hr₁, hcalm₁, hs₁, hw₁⟩ := hcalm.run hr 1 htest
    have hidle : c₁.thread (some ⟨n, hlt⟩) = workerThread false := by
      rw [hw₁, hw, decide_eq_false (lt_irrefl n)]
    obtain ⟨c₂, hr₂, hcalm₂, hs₂, hself₂, hother₂⟩ := hcalm₁.create hr₁ hlt hidle
    have hnext : soloRun (code seance6 (threads W)) () none 1
        ⟨c₂.shared, none, .main .createNext, W, n, mainCalls T, none, []⟩ =
        some ⟨c₂.shared, none, .main .createTest, W, n + 1, mainCalls T, none, []⟩ := rfl
    obtain ⟨c₃, hr₃, hcalm₃, hs₃, hw₃⟩ := hcalm₂.run hr₂ 1 hnext
    refine ⟨c₃, hr₃, by rw [hs₃, hs₂, hs₁, hlog], hcalm₃, fun k => ?_⟩
    rw [hw₃]
    by_cases hk : k = ⟨n, hlt⟩
    · rw [hk, hself₂, decide_eq_true (Nat.lt_succ_self n)]
    · rw [hother₂ k hk, hw₁, hw]
      have hne : k.1 ≠ n := fun he => hk (Fin.ext he)
      congr 1
      simp only [decide_eq_decide]
      omega

structure Ending (r : List (TaskTypeDef Function)) (c : State (Option (Fin W)) Function) : Prop where
  free : c.owner = none
  shutdown : c.shared.shutdown = true
  awake : ∀ j k, (c.thread j).mode ≠ .blocked k
  rejected : c.shared.rejected = r

theorem shutdown_alone {l : Locals Function} (h : Calm .call l c) (hr : Reachable (program W T) c)
    (hc : l.calls = mainCalls 0) : ∃ d, Reachable (program W T) d ∧ Ending c.shared.rejected d ∧
      d.At none (.main .joinTest) { l with calls := [], task := none, i := 0 } ∧
      ∀ k, d.thread (some k) = c.thread (some k) := by
  obtain ⟨size, i, calls, task, own⟩ := l
  obtain rfl : calls = [.shutdownThreadPool] := hc
  have hrun : soloRun (code seance6 (threads W)) () none 9
      ⟨c.shared, none, .main .call, size, i, [.shutdownThreadPool], task, own⟩ =
      some ⟨{ c.shared with shutdown := true }, none, .main .joinTest, size, 0, [], none, own⟩ := rfl
  obtain ⟨d, hd, hcalm, hs, hw⟩ := h.run hr 9 hrun
  exact ⟨d, hd, ⟨hcalm.free, by rw [hs], hcalm.awake, by rw [hs]⟩, hcalm.main, hw⟩

variable {r : List (TaskTypeDef Function)}

theorem Ending.run {i : Option (Fin W)} {p q : Point} {l l' : Locals Function} {s : Shared Function}
    (h : Ending r c) (hr : Reachable (program W T) c) (hi : c.At i p l) (n : ℕ)
    (hn : soloRun (code seance6 (threads W)) () i n ⟨c.shared, none, p, l⟩ = some ⟨s, none, q, l'⟩)
    (hs : s.shutdown = true) (hrej : s.rejected = r) :
    ∃ d, Reachable (program W T) d ∧ Ending r d ∧ d.shared = s ∧ d.At i q l' ∧
      ∀ j, j ≠ i → d.thread j = c.thread j := by
  have hn' := hn
  rw [← h.free] at hn'
  obtain ⟨d, hd, ha⟩ := reachable_of_soloRun hr h.awake hi hn'
  have hshared : d.shared = s := ha.shared
  refine ⟨d, hd, ⟨ha.owner.trans h.free, by rw [hshared, hs], fun j k => ha.awake h.awake j k, ?_⟩,
    hshared, ha.self, ha.others⟩
  rw [hshared, hrej]

theorem drain_alone (n : ℕ) {i : Option (Fin W)} {l : Locals Function} (h : Ending r c)
    (hr : Reachable (program W T) c) (hi : c.At i (.startThread .lock) l)
    (hn : c.shared.queue.taskCount = n) :
    ∃ d l', Reachable (program W T) d ∧ Ending r d ∧ d.At i (.startThread .lock) l' ∧
      d.shared.queue.taskCount = 0 ∧ ∀ j, j ≠ i → d.thread j = c.thread j := by
  induction n generalizing c l with
  | zero => exact ⟨c, l, hr, h, hi, hn, fun _ _ => rfl⟩
  | succ n ih =>
    have hpos : ((c.shared.queue.taskCount == 0) : Bool) = false := by
      rw [hn, beq_eq_false_iff_ne]
      omega
    let task := c.shared.queue.removeFirst.1
    have hrun : soloRun (code seance6 (threads W)) () i 6 ⟨c.shared, none, .startThread .lock, l⟩ =
        some ⟨executeTask task (takeTask c.shared l).1, none, .startThread .lock,
          { l with task := some task, own := l.own ++ [task] }⟩ := by
      simp [soloRun, soloNext, code, startThread, seance6, hpos, Instr.run, runTask, takeTask, task]
    have hcount : (executeTask task (takeTask c.shared l).1).queue.taskCount = n := by
      simp only [executeTask, takeTask, TaskQueue.removeFirst, hn]
      omega
    obtain ⟨d, hd, hend, hs, hat, hw⟩ := h.run hr hi 6 hrun h.shutdown h.rejected
    obtain ⟨e, l', he, hend', hat', hcount', hw'⟩ := ih hend hd hat (by rw [hs, hcount])
    exact ⟨e, l', he, hend', hat', hcount', fun j hj => (hw' j hj).trans (hw j hj)⟩

theorem leave_alone {i : Option (Fin W)} {l : Locals Function} (h : Ending r c)
    (hr : Reachable (program W T) c) (hi : c.At i (.startThread .lock) l)
    (hn : c.shared.queue.taskCount = 0) :
    ∃ d, Reachable (program W T) d ∧ Ending r d ∧ (d.thread i).mode = .returned ∧
      d.shared.queue.taskCount = 0 ∧ ∀ j, j ≠ i → d.thread j = c.thread j := by
  have hrun : soloRun (code seance6 (threads W)) () i 4 ⟨c.shared, none, .startThread .lock, l⟩ =
      some ⟨c.shared, none, .startThread .exit, l⟩ := by
    simp [soloRun, soloNext, code, startThread, seance6, hn, h.shutdown]
  obtain ⟨d, hd, hend, hs, hat, hw⟩ := h.run hr hi 4 hrun h.shutdown h.rejected
  have hstep : Step (code seance6 (threads W)) d (.run i) (d.move i ⟨.startThread .exit, l, .returned⟩) :=
    .ret hat rfl
  have hother : ∀ j, j ≠ i → (d.move i ⟨.startThread .exit, l, .returned⟩).thread j = c.thread j :=
    fun j hj => (move_other _ _ hj).trans (hw j hj)
  refine ⟨_, .next hd hstep, ⟨hend.free, hend.shutdown, fun j k => ?_, hend.rejected⟩, ?_, ?_, hother⟩
  · by_cases hj : j = i
    · rw [hj, move_self]
      intro hb
      cases hb
    · rw [hother j hj]
      exact h.awake j k
  · rw [move_self]
  · rw [move_shared, hs, hn]

theorem leave_all (n : ℕ) (hn : n ≤ W) (h : Ending r c) (hr : Reachable (program W T) c)
    (hc : c.shared.queue.taskCount = 0)
    (hw : ∀ k : Fin W, ∃ l, c.At (some k) (.startThread .lock) l) :
    ∃ d, Reachable (program W T) d ∧ Ending r d ∧ d.shared.queue.taskCount = 0 ∧
      d.thread none = c.thread none ∧ (∀ k : Fin W, k.1 < n → (d.thread (some k)).mode = .returned) ∧
      ∀ k : Fin W, n ≤ k.1 → d.thread (some k) = c.thread (some k) := by
  induction n with
  | zero => exact ⟨c, hr, h, hc, rfl, nofun, fun _ _ => rfl⟩
  | succ n ih =>
    obtain ⟨d, hd, hend, hcount, hmain, hgone, hleft⟩ := ih (by omega)
    let w : Fin W := ⟨n, hn⟩
    obtain ⟨l, hl⟩ := hw w
    have hat : d.At (some w) (.startThread .lock) l := (hleft w (le_refl n)).trans hl
    obtain ⟨e, he, hend', hret, hcount', hother⟩ := leave_alone hend hd hat hcount
    have hmain' : e.thread none = _ := (hother _ (Option.some_ne_none w).symm).trans hmain
    refine ⟨e, he, hend', hcount', hmain', fun k hk => ?_, fun k hk => ?_⟩
    · by_cases hkw : k = w
      · rw [hkw, hret]
      · have hne : k.1 ≠ n := fun hkn => hkw (Fin.ext hkn)
        rw [hother _ fun h => hkw (Option.some.inj h)]
        exact hgone k (by omega)
    · have hkw : k ≠ w := by
        rintro rfl
        exact absurd hk (Nat.not_succ_le_self n)
      rw [hother _ fun h => hkw (Option.some.inj h)]
      exact hleft k (by omega)

theorem join_all (n : ℕ) {l : Locals Function} (h : Ending r c) (hr : Reachable (program W T) c)
    (hi : c.At none (.main .joinTest) l) (hsize : l.size = W) (hn : l.i + n = W)
    (hw : ∀ k : Fin W, (c.thread (some k)).mode = .returned) :
    ∃ d, Reachable (program W T) d ∧ Ending r d ∧ Finished d := by
  induction n generalizing c l with
  | zero =>
    have hlt : ¬ l.i < l.size := by omega
    have hrun : soloRun (code seance6 (threads W)) () none 1 ⟨c.shared, none, .main .joinTest, l⟩ =
        some ⟨c.shared, none, .main .finished, l⟩ := by
      simp [soloRun, soloNext, code, main, hlt]
    obtain ⟨d, hd, hend, -, hat, -⟩ := h.run hr hi 1 hrun h.shutdown h.rejected
    exact ⟨d, hd, hend, congrArg Thread.pc hat⟩
  | succ n ih =>
    have hlt : l.i < l.size := by omega
    have hrun : soloRun (code seance6 (threads W)) () none 1 ⟨c.shared, none, .main .joinTest, l⟩ =
        some ⟨c.shared, none, .main .join, l⟩ := by
      simp [soloRun, soloNext, code, main, hlt]
    obtain ⟨d, hd, hend, hs, hat, hother⟩ := h.run hr hi 1 hrun h.shutdown h.rejected
    have hchild : threads W l.i = some ⟨l.i, by omega⟩ := dif_pos (by omega)
    have hret : (d.thread (threads W l.i)).mode = .returned := by
      rw [hchild, hother _ (Option.some_ne_none _), hw]
    have hstep : Step (code seance6 (threads W)) d (.run none) (d.goto none (.main .joinNext) l) :=
      .join hat rfl hret
    have hother' : ∀ j, j ≠ none → (d.goto none (.main .joinNext) l).thread j = c.thread j :=
      fun j hj => (move_other _ _ hj).trans (hother j hj)
    have hend' : Ending r (d.goto none (.main .joinNext) l) := by
      refine ⟨hend.free, hend.shutdown, fun j k => ?_, hend.rejected⟩
      cases j with
      | none =>
        rw [(goto_at ..).thread]
        intro hb
        cases hb
      | some j =>
        rw [hother' _ (Option.some_ne_none j)]
        exact h.awake _ k
    have hnext : soloRun (code seance6 (threads W)) () none 1 ⟨d.shared, none, .main .joinNext, l⟩ =
        some ⟨d.shared, none, .main .joinTest, { l with i := l.i + 1 }⟩ := rfl
    obtain ⟨e, he, hend₂, -, hat₂, hother₂⟩ :=
      hend'.run (.next hd hstep) (move_self ..) 1 hnext hend.shutdown hend.rejected
    refine ih hend₂ he hat₂ hsize ?_ fun k => ?_
    · simp only
      omega
    · rw [hother₂ _ (Option.some_ne_none k), hother' _ (Option.some_ne_none k), hw]

theorem overflow_run (hW : 1 ≤ W) (hT : QUEUE_SIZE < T) : ∃ c : State (Option (Fin W)) Function,
    Reachable (program W T) c ∧ Finished c ∧ c.shared.rejected ≠ [] := by
  obtain ⟨c, hr, hlog, hcalm, hw⟩ := create_alone W T W (le_refl W)
  have hstart : soloRun (code seance6 (threads W)) () none 1
      ⟨c.shared, none, .main .createTest, W, W, mainCalls T, none, []⟩ =
      some ⟨c.shared, none, .main .call, W, W, mainCalls T, none, []⟩ := by
    simp [soloRun, soloNext, code, main]
  obtain ⟨c₁, hr₁, hcalm₁, hs₁, hw₁⟩ := hcalm.run hr 1 hstart
  obtain ⟨c₂, l₂, hr₂, hcalm₂, hl₂, hlog₂, hw₂⟩ := submit_all_alone T hcalm₁ hr₁ rfl
  have hdropped : c₂.shared.rejected ≠ [] := by
    have hdriven := driven hr₂
    have hzero : ∑ i, remaining (c₂.thread i).pc (c₂.thread i).loc = 0 := by
      apply Finset.sum_eq_zero
      intro i _
      cases i with
      | none => rw [hcalm₂.main.thread, remaining, hl₂]; rfl
      | some k => exact worker_remaining hr₂ k
    have hbound : (accepted c₂.shared.log).length ≤ QUEUE_SIZE := by
      have htr := pool_tracks hr₂
      rw [htr.legal.balance, hlog₂, hs₁, hlog, List.nil_append]
      exact htr.legal.bound
    have htotal := settled_add_remaining hr₂
    rw [hzero, start_remaining, settled] at htotal
    intro hnil
    rw [hnil, List.length_nil] at htotal
    omega
  obtain ⟨c₃, hr₃, hend₃, hmain₃, hw₃⟩ := shutdown_alone hcalm₂ hr₂ hl₂
  have hready : ∀ k : Fin W, c₃.At (some k) (.startThread .lock) .fresh := by
    intro k
    rw [At, hw₃, hw₂, hw₁, hw, decide_eq_true k.2]
    rfl
  have hcount : c₃.shared.queue.taskCount = c₃.shared.queue.taskCount.toNat := by
    have := (pool_tracks hr₃).wf.1
    omega
  let first : Fin W := ⟨0, hW⟩
  obtain ⟨c₄, l₄, hr₄, hend₄, hat₄, hempty₄, hother₄⟩ := drain_alone _ hend₃ hr₃ (hready first) hcount
  have hready₄ : ∀ k : Fin W, ∃ l, c₄.At (some k) (.startThread .lock) l := by
    intro k
    by_cases hk : k = first
    · exact ⟨l₄, hk ▸ hat₄⟩
    · exact ⟨.fresh, (hother₄ _ fun h => hk (Option.some.inj h)).trans (hready k)⟩
  obtain ⟨c₅, hr₅, hend₅, -, hmain₅, hgone₅, -⟩ := leave_all W (le_refl W) hend₄ hr₄ hempty₄ hready₄
  have hat₅ : c₅.At none (.main .joinTest) { l₂ with calls := [], task := none, i := 0 } :=
    hmain₅.trans ((hother₄ _ (Option.some_ne_none first).symm).trans hmain₃)
  have hsize : l₂.size = W := by
    have := (driven hr₂).size
    rwa [hcalm₂.main.thread] at this
  obtain ⟨c₆, hr₆, hend₆, hfin⟩ :=
    join_all W hend₅ hr₅ hat₅ hsize (Nat.zero_add W) fun k => hgone₅ k k.2
  refine ⟨c₆, hr₆, hfin, ?_⟩
  rw [hend₆.rejected]
  exact hdropped

/-- `main` runs exactly the tasks it submits, in every schedule, up to the size of the queue. -/
theorem all_executed_iff (W T : ℕ) (hW : 1 ≤ W) :
    (∀ c : State (Option (Fin W)) Function, Reachable (program W T) c → Finished c →
      c.shared.executed.length = T) ↔ T ≤ QUEUE_SIZE := by
  constructor
  · intro hall
    by_contra hT
    obtain ⟨c, hr, hf, hdropped⟩ := overflow_run hW (Nat.lt_of_not_le hT)
    have hsum := executed_of_finished hW hr hf
    rw [hall c hr hf] at hsum
    exact hdropped (List.eq_nil_of_length_eq_zero (by omega))
  · intro hT c hr hf
    have hsum := executed_of_finished hW hr hf
    rw [rejected_nil (by rw [start_remaining]; exact hT) hr, List.length_nil] at hsum
    exact hsum

theorem all_executed_iff_queue_size : 1 ≤ THREAD_POOL_SIZE ∧
    ∀ c : State (Option (Fin THREAD_POOL_SIZE)) Function,
      Reachable (program THREAD_POOL_SIZE QUEUE_SIZE) c → Finished c →
        c.shared.executed.length = QUEUE_SIZE := by
  have hpool : 1 ≤ THREAD_POOL_SIZE := by decide
  exact ⟨hpool, (all_executed_iff THREAD_POOL_SIZE QUEUE_SIZE hpool).mpr (le_refl _)⟩

theorem not_all_executed : ¬ ∀ c : State (Option (Fin THREAD_POOL_SIZE)) Function,
    Reachable (program THREAD_POOL_SIZE NUM_TASKS) c → Finished c →
      c.shared.executed.length = NUM_TASKS := by
  intro hall
  obtain ⟨c, hr, hf, hdropped⟩ := overflow_run (le_refl THREAD_POOL_SIZE)
    (show QUEUE_SIZE < NUM_TASKS by decide)
  have hsum := executed_of_finished (le_refl THREAD_POOL_SIZE) hr hf
  rw [hall c hr hf] at hsum
  exact hdropped (List.eq_nil_of_length_eq_zero (by omega))

end EmbeddedLinuxTraining.ThreadPool
