import EmbeddedLinuxTraining.Library.Outline
import EmbeddedLinuxTraining.ProducerConsumer.Program

namespace EmbeddedLinuxTraining.ProducerConsumer

open Library.BoundedFifo Library.Pthread Library.Transition

variable {ι β : Type}

def holds : Point → Bool
  | .thread _ .top | .thread _ .lock | .thread _ .rest | .thread _ .stop => false
  | .thread _ _ => true
  | .periodic _ | .handler _ => false

def Point.role : Point → Role
  | .thread .producer _ => .producer
  | .thread .consumer _ => .consumer
  | .periodic _ => .periodic
  | .handler _ => .handler

def Stand (B : Buffer β Int32) (s : Shared β) : Point → Prop
  | .thread side .check => side.busy B s.buffer = true → s.gRunning = false
  | .thread side .body => side.busy B s.buffer = false
  | _ => True

variable {B : Buffer β Int32} {cap : ℕ}

structure Assertion (F : B.Implements cap) (r : Role) (t : Thread Locals Cond Point) (s : Shared β) :
    Prop where
  role : t.pc.role = r
  created : t.mode ≠ .idle
  tracks : t.mode = .running → holds t.pc = true → Tracks F s.log s.buffer
  stand : t.mode = .running → Stand B s t.pc

def outline (F : B.Implements cap) (role : ι → Role) : Outline ι (Shared β) Locals Cond Point where
  holds := holds
  inv s := Tracks F s.log s.buffer
  asrt i t s := Assertion F (role i) t s

variable {F : B.Implements cap} {r : Role} {p q : Point} {l l' : Locals} {s s' : Shared β}

theorem Assertion.goto (h : Assertion F r ⟨p, l, .running⟩ s) (hr : p.role = q.role)
    (ht : holds q = true → Tracks F s.log s.buffer) (hs : Stand B s q) :
    Assertion F r ⟨q, l', .running⟩ s :=
  ⟨hr ▸ h.role, nofun, fun _ => ht, fun _ => hs⟩

theorem tracks_work {side : Side} (ht : Tracks F s.log s.buffer) (hb : side.busy B s.buffer = false) :
    Tracks F (side.work B s l).1.log (side.work B s l).1.buffer := by
  cases side with
  | producer => exact ht.put hb l.item
  | consumer => exact ht.get hb

theorem Assertion.statement (hs : Statement B s l p q s' l') (h : Assertion F r ⟨p, l, .running⟩ s) :
    Assertion F r ⟨q, l', .running⟩ s' ∧ holds p = holds q ∧
      (holds p = false → s'.buffer = s.buffer ∧ s'.log = s.log ∧
        (s.gRunning = false → s'.gRunning = false)) := by
  cases hs with
  | body side =>
    have ht : Tracks F (side.work B s l).1.log (side.work B s l).1.buffer :=
      tracks_work (h.tracks rfl rfl) (h.stand rfl)
    refine ⟨⟨?_, nofun, fun _ _ => ht, fun _ => trivial⟩, rfl, nofun⟩
    rw [← h.role]
    cases side <;> rfl
  | rest side =>
    refine ⟨⟨?_, nofun, nofun, fun _ => trivial⟩, rfl, fun _ => ⟨rfl, rfl, id⟩⟩
    rw [← h.role]
    cases side <;> rfl
  | print => exact ⟨⟨h.role, nofun, nofun, fun _ => trivial⟩, rfl, fun _ => ⟨rfl, rfl, id⟩⟩
  | clear => exact ⟨⟨h.role, nofun, nofun, fun _ => trivial⟩, rfl, fun _ => ⟨rfl, rfl, fun _ => rfl⟩⟩

theorem Assertion.stable {t : Thread Locals Cond Point} (h : Assertion F r t s)
    (hno : t.mode = .running → holds t.pc = false) : Assertion F r t s' := by
  refine ⟨h.role, h.created, fun hm hh => ?_, fun hm => ?_⟩
  · rw [hno hm] at hh
    cases hh
  · have hp := hno hm
    generalize t.pc = p at hp ⊢
    rcases p with ⟨side, p⟩ | p | p
    · cases p <;> first | exact trivial | cases hp
    · trivial
    · trivial

theorem Assertion.frame {t : Thread Locals Cond Point} (h : Assertion F r t s)
    (hb : s'.buffer = s.buffer) (hl : s'.log = s.log)
    (hg : s.gRunning = false → s'.gRunning = false) : Assertion F r t s' := by
  refine ⟨h.role, h.created, fun hm hh => ?_, fun hm => ?_⟩
  · rw [hb, hl]
    exact h.tracks hm hh
  · have hst := h.stand hm
    generalize t.pc = p at hst ⊢
    rcases p with ⟨side, p⟩ | p | p
    · cases p
      case check => exact fun hbusy => hg (hst (hb ▸ hbusy))
      case body => rwa [Stand, hb]
      all_goals trivial
    · trivial
    · trivial

theorem stand_check {side : Side} (h : (side.busy B s.buffer && s.gRunning) = false) :
    Stand B s (.thread side .check) := by
  intro hb
  rwa [hb, Bool.true_and] at h

theorem stand_body {side : Side} (hs : Stand B s (.thread side .check)) (h : (!s.gRunning) = false) :
    Stand B s (.thread side .body) := by
  cases hb : side.busy B s.buffer with
  | false => exact hb
  | true =>
    rw [hs hb] at h
    cases h

theorem outline_valid (F : B.Implements cap) (role : ι → Role) :
    (outline F role).Valid (code B) where
  lock := by
    intro p q hc
    rcases p with ⟨⟨⟩, p⟩ | p | p <;> cases p <;> cases hc
    all_goals exact ⟨rfl, rfl, fun h hi => h.goto rfl (fun _ => hi) trivial⟩
  unlock := by
    intro p q hc
    rcases p with ⟨⟨⟩, p⟩ | p | p <;> cases p <;> cases hc
    all_goals exact ⟨rfl, rfl, fun h => ⟨h.tracks rfl rfl, h.goto rfl nofun trivial⟩⟩
  wait := by
    intro p k q hc
    rcases p with ⟨⟨⟩, p⟩ | p | p <;> cases p <;> cases hc
    all_goals exact ⟨rfl, rfl, fun h => ⟨h.tracks rfl rfl, h.role, nofun, nofun, nofun⟩⟩
  woken h := ⟨h.role, nofun, nofun, nofun⟩
  resume := by
    intro p k q hc i l s h hi
    rcases p with ⟨⟨⟩, p⟩ | p | p <;> cases p <;> cases hc
    all_goals exact ⟨h.role, nofun, fun _ _ => hi, fun _ => trivial⟩
  signal := by
    intro p k q hc
    rcases p with ⟨⟨⟩, p⟩ | p | p <;> cases p <;> cases hc
    all_goals exact ⟨rfl, fun h => h.goto rfl (fun _ => h.tracks rfl rfl) trivial⟩
  broadcast := by
    intro p k q hc
    rcases p with ⟨⟨⟩, p⟩ | p | p <;> cases p <;> cases hc
    all_goals exact ⟨rfl, fun h => h.goto rfl nofun trivial⟩
  branch := by
    intro p test yes no hc
    rcases p with ⟨⟨⟩, p⟩ | p | p <;> cases p <;> cases hc
    all_goals refine ⟨rfl, rfl, fun h => ?_⟩
    case thread.producer.test | thread.consumer.test =>
      exact ⟨fun _ => h.goto rfl (fun _ => h.tracks rfl rfl) trivial,
        fun hb => h.goto rfl (fun _ => h.tracks rfl rfl) (stand_check hb)⟩
    case thread.producer.check | thread.consumer.check =>
      exact ⟨fun _ => h.goto rfl (fun _ => h.tracks rfl rfl) trivial,
        fun hb => h.goto rfl (fun _ => h.tracks rfl rfl) (stand_body (h.stand rfl) hb)⟩
    all_goals exact ⟨fun _ => h.goto rfl nofun trivial, fun _ => h.goto rfl nofun trivial⟩
  act := by
    intro p f q hc
    have hpq : holds p = holds q := by
      rcases p with ⟨⟨⟩, p⟩ | p | p <;> cases p <;> cases hc <;> rfl
    refine ⟨hpq, fun hf h => ?_⟩
    obtain ⟨hq, -, hkeep⟩ := h.statement (statement_of_act hc hf)
    refine ⟨hq, fun hp hi => ?_⟩
    obtain ⟨hbuf, hlog, -⟩ := hkeep hp
    show Tracks _ _ _
    rw [hbuf, hlog]
    exact hi
  apart := by
    intro p f q hc i j l s x s' l' t hf _ hi hj hexcl
    obtain ⟨-, -, hkeep⟩ := hi.statement (statement_of_act hc hf)
    cases hp : holds p with
    | true => exact hj.stable fun hm => Bool.eq_false_iff.mpr fun hh => hexcl hp ⟨hm, hh⟩
    | false =>
      obtain ⟨hbuf, hlog, hrun⟩ := hkeep hp
      exact hj.frame hbuf hlog hrun
  create := by
    intro p child q r hc
    rcases p with ⟨⟨⟩, p⟩ | p | p <;> cases p <;> cases hc
  start h := absurd rfl h.created
  join := by
    intro p child q hc
    rcases p with ⟨⟨⟩, p⟩ | p | p <;> cases p <;> cases hc
  ret := by
    intro p hc
    rcases p with ⟨⟨⟩, p⟩ | p | p <;> cases p <;> cases hc
    all_goals exact ⟨rfl, fun h => ⟨h.role, nofun, nofun, nofun⟩⟩

variable {role : ι → Role} {buffer : β} {c : State ι β}

theorem outline_initial (hb : Tracks F [] buffer) (h : Init buffer role c) :
    (outline F role).Sat (code B) c := by
  obtain ⟨hf, hs, ht⟩ := h
  have hno (r : Role) : holds r.start = false := by cases r <;> rfl
  refine .of_initial hf ?_ (fun i => ?_) (fun i => ?_)
  · rw [hs]
    exact hb
  · rw [ht]
    exact .inr ⟨rfl, hno _⟩
  · rw [ht, hs]
    refine ⟨?_, nofun, fun _ hh => ?_, fun _ => ?_⟩
    · cases role i <;> rfl
    · rw [hno] at hh
      cases hh
    · cases role i <;> trivial

variable [DecidableEq ι]

theorem program_sat (hb : Tracks F [] buffer) (h : Reachable (program B buffer role) c) :
    (outline F role).Sat (code B) c :=
  (outline_valid F role).sound (fun _ => outline_initial hb) h

theorem program_tracks (hb : Tracks F [] buffer) (h : Reachable (program B buffer role) c) :
    Tracks F c.shared.log c.shared.buffer := by
  apply (program_sat hb h).always (I := fun s => Tracks F s.log s.buffer)
  · intro s hs
    exact hs
  · intro i t s ht hholding
    exact ht.tracks hholding.1 hholding.2

def stored (l : Locals) : Point → Int32
  | .thread .producer .signal | .thread .producer .unlock | .thread .producer .rest => l.item + 1
  | _ => l.item

omit [DecidableEq ι] in
theorem stored_next (l : Locals) (h : (code B p : Code ι β).Next q) : stored l p = stored l q := by
  rcases p with ⟨⟨⟩, p⟩ | p | p <;> cases p
  all_goals first | (cases h; rfl) | (rcases h with rfl | rfl <;> rfl)

theorem stored_statement (h : Statement B s l p q s' l') (hp : p.role = .producer) :
    accepted s'.log = accepted s.log ∧ stored l' q = stored l p ∨
      accepted s'.log = accepted s.log ++ [stored l p] ∧ stored l' q = stored l p + 1 := by
  cases h with
  | body side =>
    cases side with
    | producer => exact .inr ⟨accepted_put .., rfl⟩
    | consumer => cases hp
  | rest side =>
    cases side with
    | producer => exact .inl ⟨rfl, rfl⟩
    | consumer => cases hp
  | print | clear => cases hp

theorem accepted_statement (h : Statement B s l p q s' l') (hp : p.role ≠ .producer) :
    accepted s'.log = accepted s.log := by
  cases h with
  | body side =>
    cases side with
    | producer => exact absurd rfl hp
    | consumer => exact accepted_get ..
  | rest | print | clear => rfl

def counting (n : ℕ) : List Int32 := (List.range n).map Int32.ofNat

theorem counting_succ (n : ℕ) : counting (n + 1) = counting n ++ [Int32.ofNat n] := by
  simp [counting, List.range_succ]

theorem toInt_counting {n : ℕ} (h : n ≤ 2 ^ 31) : (counting n).map Int32.toInt = (List.range n).map Int.ofNat := by
  rw [counting, List.map_map]
  apply List.map_congr_left
  intro i hi
  have hlt := List.mem_range.mp hi
  exact Int32.toInt_ofNat_of_lt (by omega)

theorem counting_of_prefix {xs : List Int32} {n : ℕ} (h : xs <+: counting n) : xs = counting xs.length := by
  have hlen := h.length_le
  rw [counting, List.length_map, List.length_range] at hlen
  rw [List.prefix_iff_eq_take.mp h, counting, ← List.map_take, List.take_range, Nat.min_eq_left hlen]
  simp [counting]

theorem accepted_counting (hb : Tracks F [] buffer)
    (hone : ∀ i j, role i = .producer → role j = .producer → i = j)
    (h : Reachable (program B buffer role) c) : ∃ n, accepted c.shared.log = counting n := by
  have hinv : Invariant (program B buffer role) fun c => ∃ n : ℕ, accepted c.shared.log = counting n ∧
      ∀ i, role i = .producer → stored (c.thread i).loc (c.thread i).pc = .ofNat n := by
    constructor
    · rintro c ⟨-, hs, ht⟩
      refine ⟨0, by rw [hs]; rfl, fun i hi => ?_⟩
      rw [ht, hi]
      rfl
    · intro c a d hr ⟨n, hacc, hn⟩ hstep
      have hrole := ((program_sat hb hr).each a.actor).role
      have hframe : ∀ i, i ≠ a.actor →
          stored (d.thread i).loc (d.thread i).pc = stored (c.thread i).loc (c.thread i).pc := by
        intro i hi
        obtain ⟨hp, hl⟩ := hstep.frame hi
        rw [hp, hl]
      rcases step_cases hstep with ⟨p, l, q, l', hi, hst, hd⟩ | ⟨hs, hl, hp⟩
      · rw [hi.thread] at hrole
        by_cases hprod : role a.actor = .producer
        · -- every producer is the acting thread
          have hnow := hn a.actor hprod
          rw [hi.thread] at hnow
          rcases stored_statement hst (hrole.trans hprod) with ⟨hlog, hsame⟩ | ⟨hlog, hmore⟩
          · refine ⟨n, hlog.trans hacc, fun i hir => ?_⟩
            rw [hone i a.actor hir hprod, hd.thread]
            exact hsame.trans hnow
          · refine ⟨n + 1, ?_, fun i hir => ?_⟩
            · rw [hlog, hacc, hnow, counting_succ]
            · rw [hone i a.actor hir hprod, hd.thread]
              rw [hmore, hnow, Int32.ofNat_add]
              rfl
        · refine ⟨n, (accepted_statement hst fun h => hprod (hrole.symm.trans h)).trans hacc, fun i hir => ?_⟩
          have hne : i ≠ a.actor := by
            rintro rfl
            exact hprod hir
          rw [hframe i hne]
          exact hn i hir
      · refine ⟨n, hs ▸ hacc, fun i hir => ?_⟩
        rw [← hn i hir]
        by_cases hia : i = a.actor
        · subst hia
          rw [hl]
          rcases hp with hp | ⟨p, l, hi, hp⟩
          · rw [hp]
          · rw [hi.thread]
            exact (stored_next _ hp.1).symm
        · exact hframe i hia
  obtain ⟨n, hacc, -⟩ := hinv.holds h
  exact ⟨n, hacc⟩

theorem delivered_counting (hb : Tracks F [] buffer)
    (hone : ∀ i j, role i = .producer → role j = .producer → i = j)
    (h : Reachable (program B buffer role) c) :
    delivered c.shared.log = counting (delivered c.shared.log).length := by
  obtain ⟨n, hn⟩ := accepted_counting hb hone h
  apply counting_of_prefix
  rw [← hn, (program_tracks hb h).legal.balance]
  exact List.prefix_append ..

end EmbeddedLinuxTraining.ProducerConsumer
