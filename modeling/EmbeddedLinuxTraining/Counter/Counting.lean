import EmbeddedLinuxTraining.Counter.Program

namespace EmbeddedLinuxTraining.Counter

open Library Library.Pthread Library.Transition
open Library.Pthread.Config
open scoped BigOperators

def increments (ops : List Op) : ℕ := ops.count .increment + ops.count .fetchAdd

@[simp] theorem increments_nil : increments [] = 0 := rfl

@[simp] theorem increments_lock (ops : List Op) : increments (.lock :: ops) = increments ops := by
  simp [increments]

@[simp] theorem increments_unlock (ops : List Op) : increments (.unlock :: ops) = increments ops := by
  simp [increments]

@[simp] theorem increments_increment (ops : List Op) :
    increments (.increment :: ops) = increments ops + 1 := by
  rw [increments, List.count_cons_self, List.count_cons_of_ne (by decide)]
  exact Nat.add_right_comm ..

@[simp] theorem increments_fetchAdd (ops : List Op) :
    increments (.fetchAdd :: ops) = increments ops + 1 := by
  rw [increments, List.count_cons_self, List.count_cons_of_ne (by decide)]
  rfl

@[simp] theorem suffix_lab22Body {ops : List Op} : ops <:+ lab22Body ↔
    ops = [.lock, .increment, .unlock] ∨ ops = [.increment, .unlock] ∨ ops = [.unlock] ∨ ops = [] := by
  simp [lab22Body, List.suffix_cons_iff]

@[simp] theorem suffix_lab23Body {ops : List Op} :
    ops <:+ lab23Body ↔ ops = [.lock, .increment] ∨ ops = [.increment] ∨ ops = [] := by
  simp [lab23Body, List.suffix_cons_iff]

@[simp] theorem suffix_lab24Body {ops : List Op} : ops <:+ lab24Body ↔ ops = [.fetchAdd] ∨ ops = [] := by
  simp [lab24Body, List.suffix_cons_iff]

def Counting (K : ℕ) (body : List Op) (l : Locals) : Point → Prop
  | .init => l.completed = 0
  | .test => l.i = .ofNat l.completed ∧ l.completed ≤ K
  | .body ops => ops <:+ body ∧ ∃ n, n < K ∧ l.i = .ofNat n ∧ l.completed + increments ops = n + 1
  | .store ops => .increment :: ops <:+ body ∧
      ∃ n, n < K ∧ l.i = .ofNat n ∧ l.completed + increments ops = n
  | .done => l.completed = K

structure Sound (K : ℕ) (body : List Op) (t : Thread Locals Empty Point) : Prop where
  mode : t.mode = .running ∨ t.mode = .returned ∧ t.pc = .done
  counting : Counting K body t.loc t.pc

def total {ι : Type} [Fintype ι] (c : Cfg ι) : ℕ := ∑ i, (c.thread i).loc.completed

/-- No update is lost: what a thread between its load and its store has read is still the counter. -/
structure Exact {ι : Type} [Fintype ι] (c : Cfg ι) : Prop where
  counter : c.shared.counter = .ofNat (total c)
  loaded : ∀ i ops, (c.thread i).pc = .store ops → (c.thread i).loc.loaded = c.shared.counter

def Point.left (K C : ℕ) (l : Locals) : Point → ℕ
  | .init => K * C + 3
  | .test => (K - l.completed) * C + 2
  | .body ops => (K - (l.completed + increments ops)) * C + 2 * ops.length + 3
  | .store ops => (K - (l.completed + increments ops + 1)) * C + 2 * ops.length + 4
  | .done => 1

def left (K : ℕ) (body : List Op) (t : Thread Locals Empty Point) : ℕ :=
  if t.mode = .returned then 0 else t.pc.left K (2 * body.length + 2) t.loc

def work {ι : Type} [Fintype ι] (K : ℕ) (body : List Op) (c : Cfg ι) : ℕ := ∑ i, left K body (c.thread i)

variable {ι : Type} {K : ℕ} {body : List Op} {c d : Cfg ι} {i : ι}

theorem Counting.completed_le {l : Locals} {p : Point} (h : Counting K body l p) : l.completed ≤ K := by
  cases p with
  | init =>
    rw [show l.completed = 0 from h]
    exact Nat.zero_le K
  | test => exact h.2
  | body ops =>
    obtain ⟨-, n, hn, -, hc⟩ := h
    omega
  | store ops =>
    obtain ⟨-, n, hn, -, hc⟩ := h
    omega
  | done => exact Nat.le_of_eq h

theorem Sound.running (h : Sound K body (c.thread i)) (hm : (c.thread i).mode ≠ .returned) :
    c.At i (c.thread i).pc (c.thread i).loc := by
  rcases h.mode with hr | ⟨hr, -⟩
  · rw [At, ← hr]
  · exact absurd hr hm

theorem Sound.of_at {p : Point} {l : Locals} (hi : c.At i p l) (h : Counting K body l p) :
    Sound K body (c.thread i) := by
  rw [hi.thread]
  exact ⟨.inl rfl, h⟩

theorem Sound.at {p : Point} {l : Locals} (h : Sound K body (c.thread i)) (hi : c.At i p l) :
    Counting K body l p := by
  have hc := h.counting
  rw [hi.thread] at hc
  exact hc

theorem Sound.toInt_i {l : Locals} (h : Sound K body (c.thread i)) (hi : c.At i .test l)
    (hlt : (c.thread i).loc.completed < 2 ^ 31) : l.i.toInt = l.completed := by
  rw [hi.thread] at hlt
  rw [(h.at hi).1, Int32.toInt_ofNat_of_lt hlt]

theorem left_at {p : Point} {l : Locals} (hi : c.At i p l) :
    left K body (c.thread i) = p.left K (2 * body.length + 2) l := by
  rw [hi.thread]
  rfl

variable [DecidableEq ι]

theorem Move.sound (hb : increments body = 1) (hc : ∀ j, Sound K body (c.thread j))
    (hlt : ∀ j, (c.thread j).loc.completed < 2 ^ 31) (h : Move K body c i d) (j : ι) :
    Sound K body (d.thread j) := by
  by_cases hj : j = i
  swap
  · rw [h.other hj]
    exact hc j
  subst hj
  cases h with
  | init hi =>
    have h0 : _ = 0 := (hc j).at hi
    apply Sound.of_at (goto_at ..)
    rw [Counting, h0]
    exact ⟨rfl, Nat.zero_le K⟩
  | @enter l hi hK =>
    obtain ⟨hl, -⟩ := (hc j).at hi
    rw [(hc j).toInt_i hi (hlt j)] at hK
    apply Sound.of_at (goto_at ..)
    refine ⟨List.suffix_rfl, l.completed, Int.ofNat_lt.mp hK, hl, ?_⟩
    rw [hb]
  | @leave l hi hK =>
    obtain ⟨-, hle⟩ := (hc j).at hi
    rw [(hc j).toInt_i hi (hlt j)] at hK
    apply Sound.of_at (goto_at ..)
    exact Nat.le_antisymm hle (Int.ofNat_le.mp hK)
  | lock hi | unlock hi =>
    obtain ⟨ht, n, hn, hl, hcount⟩ := (hc j).at hi
    apply Sound.of_at (goto_at ..)
    refine ⟨(List.suffix_cons ..).trans ht, n, hn, hl, ?_⟩
    simpa using hcount
  | load hi =>
    obtain ⟨ht, n, hn, hl, hcount⟩ := (hc j).at hi
    rw [increments_increment] at hcount
    apply Sound.of_at (goto_at ..)
    exact ⟨ht, n, hn, hl, Nat.succ.inj hcount⟩
  | store hi =>
    obtain ⟨ht, n, hn, hl, hcount⟩ := (hc j).at hi
    apply Sound.of_at (goto_at ..)
    refine ⟨(List.suffix_cons ..).trans ht, n, hn, hl, ?_⟩
    dsimp only
    omega
  | fetchAdd hi =>
    obtain ⟨ht, n, hn, hl, hcount⟩ := (hc j).at hi
    rw [increments_fetchAdd] at hcount
    apply Sound.of_at (goto_at ..)
    refine ⟨(List.suffix_cons ..).trans ht, n, hn, hl, ?_⟩
    dsimp only
    omega
  | @next l hi =>
    obtain ⟨-, n, hn, hl, hcount⟩ := (hc j).at hi
    rw [increments_nil, Nat.add_zero] at hcount
    apply Sound.of_at (goto_at ..)
    constructor
    · dsimp only
      rw [hl, hcount, Int32.ofNat_add]
      rfl
    · dsimp only
      omega
  | ret hi =>
    have hK := (hc j).at hi
    rw [move_self]
    exact ⟨.inr ⟨rfl, rfl⟩, hK⟩

theorem Move.left_lt (hb : increments body = 1) (hc : Sound K body (c.thread i))
    (hlt : (c.thread i).loc.completed < 2 ^ 31) (h : Move K body c i d) :
    left K body (d.thread i) < left K body (c.thread i) := by
  cases h with
  | init hi =>
    have h0 : _ = 0 := hc.at hi
    rw [left_at hi, left_at (goto_at ..)]
    simp only [Point.left, h0, Nat.sub_zero]
    omega
  | @enter l hi hK =>
    rw [hc.toInt_i hi hlt] at hK
    have hs : K - l.completed = K - (l.completed + 1) + 1 := by omega
    rw [left_at hi, left_at (goto_at ..)]
    simp only [Point.left, hb, hs, Nat.add_mul]
    omega
  | leave hi =>
    rw [left_at hi, left_at (goto_at ..)]
    simp only [Point.left]
    omega
  | lock hi | unlock hi =>
    rw [left_at hi, left_at (goto_at ..)]
    simp only [Point.left, increments_lock, increments_unlock, List.length_cons]
    omega
  | load hi =>
    rw [left_at hi, left_at (goto_at ..)]
    simp only [Point.left, increments_increment, List.length_cons, Nat.add_assoc]
    omega
  | store hi =>
    rw [left_at hi, left_at (goto_at ..)]
    simp only [Point.left, Nat.add_right_comm]
    omega
  | fetchAdd hi =>
    rw [left_at hi, left_at (goto_at ..)]
    simp only [Point.left, increments_fetchAdd, List.length_cons, Nat.add_right_comm _ 1, Nat.add_assoc]
    omega
  | next hi =>
    rw [left_at hi, left_at (goto_at ..)]
    simp only [Point.left, increments_nil, Nat.add_zero]
    omega
  | ret hi =>
    rw [left_at hi, move_self]
    exact Nat.zero_lt_one

theorem Move.shared_cases (h : Move K body c i d) :
    (d.shared = c.shared ∧ (d.thread i).loc.completed = (c.thread i).loc.completed) ∨
      ((d.thread i).loc.completed = (c.thread i).loc.completed + 1 ∧
        ((∃ ops l, c.At i (.store ops) l ∧ d.shared.counter = l.loaded + 1) ∨
          ∃ ops l, c.At i (.body (.fetchAdd :: ops)) l ∧
            d.shared.counter = c.shared.counter + 1)) := by
  cases h with
  | init hi | enter hi | leave hi | lock hi | unlock hi | load hi | next hi =>
    refine .inl ⟨rfl, ?_⟩
    rw [hi.thread, (goto_at ..).thread]
  | ret hi =>
    refine .inl ⟨rfl, ?_⟩
    rw [hi.thread, move_self]
  | store hi =>
    refine .inr ⟨?_, .inl ⟨_, _, hi, rfl⟩⟩
    rw [hi.thread, (goto_at ..).thread]
  | fetchAdd hi =>
    refine .inr ⟨?_, .inr ⟨_, _, hi, rfl⟩⟩
    rw [hi.thread, (goto_at ..).thread]

theorem Move.store_point {ops : List Op} (h : Move K body c i d) (hp : (d.thread i).pc = .store ops) :
    d.shared = c.shared ∧ (d.thread i).loc.loaded = c.shared.counter := by
  cases h with
  | load hi =>
    refine ⟨rfl, ?_⟩
    rw [(goto_at ..).thread]
  | ret => simp [move_self] at hp
  | _ => simp [(goto_at ..).thread] at hp

theorem Move.shared_of_held (hown : ∀ j ops, (c.thread j).pc = .store ops → c.owner = some j)
    (hadd : ∀ ops l, ¬ c.At i (.body (.fetchAdd :: ops)) l) (h : Move K body c i d) (j : ι) (ops : List Op)
    (hji : j ≠ i) (hj : (c.thread j).pc = .store ops) : d.shared = c.shared := by
  rcases h.shared_cases with ⟨hs, -⟩ | ⟨-, ⟨ops', l, hi, -⟩ | ⟨ops', l, hi, -⟩⟩
  · exact hs
  · have ho := hown i ops' (congrArg Thread.pc hi)
    rw [hown j ops hj] at ho
    exact absurd (Option.some.inj ho) hji
  · exact absurd hi (hadd ops' l)

variable [Fintype ι]

theorem Move.work_lt (hb : increments body = 1) (hc : Sound K body (c.thread i))
    (hlt : (c.thread i).loc.completed < 2 ^ 31) (h : Move K body c i d) :
    work K body d < work K body c := by
  have hother : ∀ j, j ≠ i → left K body (d.thread j) = left K body (c.thread j) := by
    intro j hj
    rw [h.other hj]
  have hsum := sum_change i hother
  have hleft := h.left_lt hb hc hlt
  simp only [work]
  omega

theorem Move.total_change (h : Move K body c i d) :
    total d + (c.thread i).loc.completed = total c + (d.thread i).loc.completed := by
  have hother : ∀ j, j ≠ i → (d.thread j).loc.completed = (c.thread j).loc.completed := by
    intro j hj
    rw [h.other hj]
  exact sum_change i hother

theorem Exact.step (hc : Exact c) (h : Move K body c i d)
    (hx : ∀ j ops, j ≠ i → (c.thread j).pc = .store ops → d.shared = c.shared) : Exact d := by
  constructor
  · have ht := h.total_change
    rcases h.shared_cases with ⟨hs, hl⟩ | ⟨hl, ⟨ops, l, hi, hs⟩ | ⟨ops, l, hi, hs⟩⟩
    · rw [hs, hc.counter]
      congr 1
      omega
    · have hload : l.loaded = c.shared.counter := by
        have hload := hc.loaded i ops
        rw [hi.thread] at hload
        exact hload rfl
      rw [hs, hload, hc.counter, show total d = total c + 1 by omega, Int32.ofNat_add]
      rfl
    · rw [hs, hc.counter, show total d = total c + 1 by omega, Int32.ofNat_add]
      rfl
  · intro j ops hj
    by_cases hji : j = i
    · subst hji
      obtain ⟨hs, hload⟩ := h.store_point hj
      rw [hs, hload]
    · rw [h.other hji] at hj ⊢
      rw [hx j ops hji hj]
      exact hc.loaded j ops hj

end EmbeddedLinuxTraining.Counter
