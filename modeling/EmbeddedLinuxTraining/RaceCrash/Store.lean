import EmbeddedLinuxTraining.Library.Exec
import EmbeddedLinuxTraining.Library.Outline
import EmbeddedLinuxTraining.RaceCrash.Program

namespace EmbeddedLinuxTraining.RaceCrash

open Library Library.Pthread Library.Transition Config

variable {D : Type} (arith : Arithmetic D)

def total (xs : List D) : D := xs.foldl arith.add arith.zero

def average (xs : List D) : D :=
  if xs.length = 0 then arith.zero else arith.div (total arith xs) (arith.ofCount xs.length)

structure Steady (s : Shared D) : Prop where
  fault : s.fault = false
  counted : s.pushed.length = s.count
  rising : s.reports.Pairwise fun st st' => st.count ≤ st'.count
  report : ∀ st ∈ s.reports, st.count ≤ s.pushed.length ∧ st.avg = average arith (s.pushed.take st.count)

structure Sound (s : Shared D) : Prop extends Steady arith s where
  room : s.count ≤ s.capacity
  block : s.heap.Block s.data s.capacity s.pushed

def Point.holds : Point → Bool
  | .producer .top | .producer .sample | .producer .lock | .producer .stop => false
  | .monitor .top | .monitor .lock | .monitor .stop => false
  | .main _ => false
  | _ => true

structure Summing (s : Shared D) (l : Locals D) : Prop where
  sound : Sound arith s
  count : l.st.count = s.count
  data : l.d = s.data
  sum : l.sum = total arith (s.pushed.take l.i)
  bound : l.i ≤ s.count

def Stand (s : Shared D) (l : Locals D) : Point → Prop
  | .producer .test | .producer .unlock | .monitor .count => Sound arith s
  | .producer .capacity => Sound arith s ∧ s.count = s.capacity
  | .producer .realloc => Steady arith s ∧ s.count < s.capacity ∧ ∃ n ≤ s.capacity, s.heap.Block s.data n s.pushed
  | .producer .data => Steady arith s ∧ s.count < s.capacity ∧ s.heap.Block l.grown s.capacity s.pushed
  | .producer .element => Sound arith s ∧ s.count < s.capacity
  | .producer .count =>
    Steady arith s ∧ s.count < s.capacity ∧ s.heap.Block s.data s.capacity (s.pushed ++ [l.value])
  | .monitor .data => Sound arith s ∧ l.st.count = s.count
  | .monitor .sum => Sound arith s ∧ l.st.count = s.count ∧ l.d = s.data
  | .monitor .test => Summing arith s l
  | .monitor .body => Summing arith s l ∧ l.i < s.count
  | .monitor .average => Summing arith s l ∧ l.i = s.count
  | .monitor .unlock => Sound arith s ∧ l.st = ⟨average arith s.pushed, s.pushed.length⟩
  | _ => True

variable {arith} {s s' : Shared D} {l l' : Locals D} {x : Input D} {p q : Point} {heap : Heap D} {a : ℕ}

theorem storeInit_sound (h : storeInit heap a = some s) : Sound arith s := by
  unfold storeInit at h
  obtain ⟨heap', hheap, h⟩ := Option.map_eq_some_iff.mp h
  have ha : heap a = none := (Option.ite_none_right_eq_some.mp hheap).1
  obtain ⟨heap'', hheap', hblock⟩ := heap.allocate_block (n := INITIAL_CAP) ha
  cases h
  refine ⟨⟨rfl, rfl, .nil, ?_⟩, Nat.zero_le _, ?_⟩
  · intro st hst
    cases hst
  · rw [hheap] at hheap'
    cases hheap'
    exact hblock

theorem Steady.of_eq (h : Steady arith s) (hfault : s'.fault = s.fault) (hpushed : s'.pushed = s.pushed)
    (hcount : s'.count = s.count) (hreports : s'.reports = s.reports) : Steady arith s' := by
  obtain ⟨hno, hcounted, hrising, hreport⟩ := h
  constructor
  · rwa [hfault]
  · rwa [hpushed, hcount]
  · rwa [hreports]
  · rwa [hreports, hpushed]

theorem Steady.push (h : Steady arith s) (v : D) :
    Steady arith { s with count := s.count + 1, pushed := s.pushed ++ [v] } := by
  constructor
  · exact h.fault
  · change (s.pushed ++ [v]).length = s.count + 1
    rw [List.length_append, h.counted, List.length_singleton]
  · exact h.rising
  · intro st hst
    obtain ⟨hle, havg⟩ := h.report st hst
    constructor
    · rw [List.length_append]
      exact Nat.le_add_right_of_le hle
    · rw [List.take_append_of_le_length hle]
      exact havg

theorem Steady.report_all (h : Steady arith s) {st : Stats D}
    (hst : st = ⟨average arith s.pushed, s.pushed.length⟩) :
    Steady arith { s with reports := s.reports ++ [st] } := by
  constructor
  · exact h.fault
  · exact h.counted
  · apply List.pairwise_append.mpr
    refine ⟨h.rising, List.pairwise_singleton _ _, ?_⟩
    intro st₁ h₁ st₂ h₂
    rw [List.mem_singleton.mp h₂, hst]
    exact (h.report st₁ h₁).1
  · intro st' hst'
    obtain hst' | hst' := List.mem_append.mp hst'
    · exact h.report st' hst'
    · rw [List.mem_singleton.mp hst', hst]
      exact ⟨Nat.le_refl _, by rw [List.take_length]⟩

theorem Summing.finish (h : Summing arith s l) (hi : l.i = s.count) :
    (if l.st.count = 0 then arith.zero else arith.div l.sum (arith.ofCount l.st.count)) =
      average arith s.pushed := by
  have hsum : l.sum = total arith s.pushed := by
    rw [h.sum, hi, ← h.sound.counted, List.take_length]
  unfold average
  rw [h.count, hsum, ← h.sound.counted]

theorem Summing.load (h : Summing arith s l) (hi : l.i < s.count) :
    ∃ v, s.heap.load l.d l.i = some v ∧ s.pushed[l.i]? = some v := by
  have hlt : l.i < s.pushed.length := by
    rw [h.sound.counted]
    exact hi
  have hv : s.pushed[l.i]? = some s.pushed[l.i] := List.getElem?_eq_getElem hlt
  refine ⟨s.pushed[l.i], ?_, hv⟩
  rw [h.data]
  exact h.sound.block.load hv

theorem Summing.next (h : Summing arith s l) (hi : l.i < s.count) {v : D} (hv : s.pushed[l.i]? = some v) :
    Summing arith s { l with sum := arith.add l.sum v, i := l.i + 1 } := by
  constructor
  · exact h.sound
  · exact h.count
  · exact h.data
  · change arith.add l.sum v = total arith (s.pushed.take (l.i + 1))
    rw [h.sum, total, total, List.take_add_one, hv, Option.toList_some, List.foldl_append]
    rfl
  · exact hi

theorem producer_act {p : PushPoint} {f : Input D → Shared D → Locals D → Option (Shared D × Locals D)}
    {ι : Type} (hc : (producerMain false p : Code ι D) = .act f q) (hf : f x s l = some (s', l'))
    (h : Stand arith s l (.producer p)) : Stand arith s' l' q := by
  cases p with
  | sample =>
    cases hc
    unfold draw at hf
    split at hf
    · cases hf
      trivial
    · cases hf
  | capacity =>
    cases hc
    cases hf
    obtain ⟨hsound, hfull⟩ := h
    have hblock := hsound.block
    have hgrow : s.count < s.capacity + GROWTH_CHUNK := by
      rw [hfull]
      exact Nat.lt_add_of_pos_right (by decide)
    refine ⟨?_, hgrow, s.capacity, Nat.le_add_right _ _, hblock⟩
    exact hsound.of_eq rfl rfl rfl rfl
  | realloc =>
    cases hc
    obtain ⟨hsteady, hlt, n, hn, hblock⟩ := h
    unfold reallocData at hf
    split at hf
    · cases hf
    · obtain ⟨a, cells, hdata, hcells⟩ := hblock.live
      split at hf
      · rename_i hdead
        rw [hdata, Option.bind_some, hcells] at hdead
        cases hdead
      · obtain ⟨heap, hheap, hd⟩ := Option.map_eq_some_iff.mp hf
        cases hd
        exact ⟨hsteady.of_eq rfl rfl rfl rfl, hlt, hblock.reallocate hn hheap⟩
    · cases hf
  | data =>
    cases hc
    cases hf
    obtain ⟨hsteady, hlt, hblock⟩ := h
    exact ⟨⟨hsteady.of_eq rfl rfl rfl rfl, Nat.le_of_lt hlt, hblock⟩, hlt⟩
  | element =>
    cases hc
    obtain ⟨hsound, hlt⟩ := h
    have hlen : s.pushed.length < s.capacity := by
      rw [hsound.counted]
      exact hlt
    obtain ⟨heap, hheap, hblock⟩ := hsound.block.store hlen l.value
    rw [hsound.counted] at hheap
    have hstore : storeElement s l = ({ s with heap := heap }, l) := by
      rw [storeElement, hheap]
    obtain ⟨rfl, rfl⟩ : s' = { s with heap := heap } ∧ l' = l := by
      have he := (Option.some.inj hf).symm.trans hstore
      exact ⟨congrArg Prod.fst he, congrArg Prod.snd he⟩
    exact ⟨hsound.of_eq rfl rfl rfl rfl, hlt, hblock⟩
  | count =>
    cases hc
    cases hf
    obtain ⟨hsteady, hlt, hblock⟩ := h
    exact ⟨(hsteady.push l.value).of_eq rfl rfl rfl rfl, hlt, hblock⟩
  | top | lock | test | unlock | stop => cases hc

theorem monitor_act {p : StatsPoint} {f : Input D → Shared D → Locals D → Option (Shared D × Locals D)}
    {ι : Type} (hc : (monitorMain arith p : Code ι D) = .act f q) (hf : f x s l = some (s', l'))
    (h : Stand arith s l (.monitor p)) : Stand arith s' l' q := by
  cases p with
  | count =>
    cases hc
    cases hf
    exact ⟨h, rfl⟩
  | data =>
    cases hc
    cases hf
    exact ⟨h.1, h.2, rfl⟩
  | sum =>
    cases hc
    cases hf
    obtain ⟨hsound, hcount, hdata⟩ := h
    constructor
    · exact hsound
    · exact hcount
    · exact hdata
    · rfl
    · exact Nat.zero_le _
  | body =>
    cases hc
    obtain ⟨hsumming, hi⟩ := h
    obtain ⟨v, hload, hv⟩ := hsumming.load hi
    have hadd : addElement arith s l = (s, { l with sum := arith.add l.sum v, i := l.i + 1 }) := by
      rw [addElement, hload]
    obtain ⟨rfl, rfl⟩ : s' = s ∧ l' = { l with sum := arith.add l.sum v, i := l.i + 1 } := by
      have he := (Option.some.inj hf).symm.trans hadd
      exact ⟨congrArg Prod.fst he, congrArg Prod.snd he⟩
    exact hsumming.next hi hv
  | average =>
    cases hc
    cases hf
    obtain ⟨hsumming, hi⟩ := h
    have hsound := hsumming.sound
    have hst : (⟨if l.st.count = 0 then arith.zero else arith.div l.sum (arith.ofCount l.st.count),
        l.st.count⟩ : Stats D) = ⟨average arith s.pushed, s.pushed.length⟩ := by
      rw [hsumming.finish hi, hsumming.count, hsound.counted]
    refine ⟨⟨hsound.report_all hst, hsound.room, hsound.block⟩, hst⟩
  | top | lock | test | unlock | stop => cases hc

theorem Sound.clear (h : Sound arith s) (b : Bool) : Sound arith { s with gRunning := b } :=
  ⟨h.of_eq rfl rfl rfl rfl, h.room, h.block⟩

theorem stand_clear (h : Stand arith s l p) (b : Bool) : Stand arith { s with gRunning := b } l p := by
  obtain p | p | p := p
  · cases p
    case test | unlock => exact Sound.clear h b
    case capacity | element => exact ⟨h.1.clear b, h.2⟩
    case realloc | data | count => exact ⟨h.1.of_eq rfl rfl rfl rfl, h.2⟩
    all_goals trivial
  · cases p
    case count => exact Sound.clear h b
    case data | sum | unlock => exact ⟨h.1.clear b, h.2⟩
    case test => exact ⟨h.sound.clear b, h.count, h.data, h.sum, h.bound⟩
    case body | average =>
      obtain ⟨h, hi⟩ := h
      exact ⟨⟨h.sound.clear b, h.count, h.data, h.sum, h.bound⟩, hi⟩
    all_goals trivial
  · trivial

theorem stand_free (hp : p.holds = false) : Stand arith s l p := by
  obtain p | p | p := p
  · cases p
    case top | sample | lock | stop => trivial
    all_goals cases hp
  · cases p
    case top | lock | stop => trivial
    all_goals cases hp
  · trivial

theorem free_act {ι : Type} {f : Input D → Shared D → Locals D → Option (Shared D × Locals D)}
    (hc : (code arith false p : Code ι D) = .act f q) (hf : f x s l = some (s', l')) (hp : p.holds = false) :
    ∃ b, s' = { s with gRunning := b } := by
  obtain p | p | p := p
  · cases p
    case sample =>
      cases hc
      unfold draw at hf
      split at hf
      · cases hf
        exact ⟨_, rfl⟩
      · cases hf
    case top | lock | stop => cases hc
    all_goals cases hp
  · cases p
    case top | lock | stop => cases hc
    all_goals cases hp
  · cases p
    case clear =>
      cases hc
      cases hf
      exact ⟨_, rfl⟩
    case done => cases hc

def outline (arith : Arithmetic D) (ι : Type) : Outline ι (Shared D) (Locals D) Empty Point where
  holds := Point.holds
  inv := Sound arith
  asrt _ t s := (t.mode = .running ∨ t.mode = .returned) ∧ (t.mode = .running → Stand arith s t.loc t.pc)

variable {ι : Type}

theorem running_iff {i : ι} : (outline arith ι).running i p l s ↔ Stand arith s l p := by
  constructor
  · intro h
    exact h.2 rfl
  · intro h
    exact ⟨.inl rfl, fun _ => h⟩

theorem act_stand {f : Input D → Shared D → Locals D → Option (Shared D × Locals D)}
    (hc : (code arith false p : Code ι D) = .act f q) (hf : f x s l = some (s', l'))
    (h : Stand arith s l p) : Stand arith s' l' q := by
  obtain p | p | p := p
  · exact producer_act hc hf h
  · exact monitor_act hc hf h
  · cases p
    case clear =>
      cases hc
      trivial
    case done => cases hc

theorem act_holds {f : Input D → Shared D → Locals D → Option (Shared D × Locals D)}
    (hc : (code arith false p : Code ι D) = .act f q) : p.holds = q.holds := by
  obtain p | p | p := p <;> cases p <;> cases hc <;> rfl

theorem outline_valid : (outline arith ι).Valid (code arith false) where
  lock := by
    intro p q hc
    obtain p | p | p := p <;> cases p <;> cases hc
    · exact ⟨rfl, rfl, fun _ hinv => running_iff.mpr hinv⟩
    · exact ⟨rfl, rfl, fun _ hinv => running_iff.mpr hinv⟩
  unlock := by
    intro p q hc
    obtain p | p | p := p <;> cases p <;> cases hc
    · refine ⟨rfl, rfl, fun h => ⟨running_iff.mp h, running_iff.mpr trivial⟩⟩
    · refine ⟨rfl, rfl, fun h => ⟨(running_iff.mp h).1, running_iff.mpr trivial⟩⟩
  wait := by
    intro p k
    exact k.elim
  woken := by
    intro i p l k
    exact k.elim
  resume := by
    intro p k
    exact k.elim
  signal := by
    intro p k
    exact k.elim
  broadcast := by
    intro p k
    exact k.elim
  branch := by
    intro p test yes no hc
    obtain p | p | p := p <;> cases p <;> cases hc
    · exact ⟨rfl, rfl, fun _ => ⟨fun _ => running_iff.mpr trivial, fun _ => running_iff.mpr trivial⟩⟩
    · refine ⟨rfl, rfl, fun {i l s} h => ?_⟩
      have hsound : Sound arith s := running_iff.mp h
      constructor
      · intro ht
        exact running_iff.mpr ⟨hsound, eq_of_beq ht⟩
      · intro ht
        have hne : s.count ≠ s.capacity := ne_of_beq_false ht
        exact running_iff.mpr ⟨hsound, Nat.lt_of_le_of_ne hsound.room hne⟩
    · exact ⟨rfl, rfl, fun _ => ⟨fun _ => running_iff.mpr trivial, fun _ => running_iff.mpr trivial⟩⟩
    · refine ⟨rfl, rfl, fun {i l s} h => ?_⟩
      have hsumming : Summing arith s l := running_iff.mp h
      constructor
      · intro ht
        have hi : l.i < l.st.count := of_decide_eq_true ht
        rw [hsumming.count] at hi
        exact running_iff.mpr ⟨hsumming, hi⟩
      · intro ht
        have hi : ¬ l.i < l.st.count := of_decide_eq_false ht
        rw [hsumming.count] at hi
        exact running_iff.mpr ⟨hsumming, Nat.le_antisymm hsumming.bound (Nat.le_of_not_lt hi)⟩
  act := by
    intro p f q hc
    refine ⟨act_holds hc, fun hf h => ⟨?_, fun hp hinv => ?_⟩⟩
    · exact running_iff.mpr (act_stand hc hf (running_iff.mp h))
    · obtain ⟨b, rfl⟩ := free_act hc hf hp
      exact hinv.clear b
  apart := by
    intro p f q hc i j l s x s' l' t hf _ _ hj hexcl
    refine ⟨hj.1, fun ht => ?_⟩
    cases hp : p.holds with
    | false =>
      obtain ⟨b, rfl⟩ := free_act hc hf hp
      exact stand_clear (hj.2 ht) b
    | true =>
      -- the other thread does not hold the mutex
      apply stand_free
      cases hpc : t.pc.holds with
      | false => rfl
      | true => exact absurd ⟨ht, hpc⟩ (hexcl hp)
  create := by
    intro p child q r hc
    obtain p | p | p := p <;> cases p <;> cases hc
  start := by
    intro i p l s h
    obtain hm | hm := h.1 <;> cases hm
  join := by
    intro p child q hc
    obtain p | p | p := p <;> cases p <;> cases hc
  ret := by
    intro p hc
    have hp : p.holds = false := by
      obtain p | p | p := p <;> cases p <;> cases hc <;> rfl
    exact ⟨hp, fun _ => ⟨.inr rfl, nofun⟩⟩

variable [DecidableEq ι] {role : ι → Role} {c : State ι D}

theorem outline_sat (h : Reachable (program arith false role) c) :
    (outline arith ι).Sat (code arith false) c := by
  apply outline_valid.sound _ h
  intro c hinit
  obtain ⟨howner, ⟨heap, a, hshared⟩, hthread⟩ := hinit
  apply Outline.Sat.of_initial howner (storeInit_sound hshared)
  · intro i
    obtain ⟨l, hi⟩ := hthread i
    rw [hi]
    refine .inr ⟨rfl, ?_⟩
    cases role i <;> rfl
  · intro i
    obtain ⟨l, hi⟩ := hthread i
    rw [hi]
    refine ⟨.inl rfl, fun _ => ?_⟩
    cases role i <;> trivial

theorem Stand.steady (h : Stand arith s l p) (hp : p.holds = true) : Steady arith s := by
  obtain p | p | p := p
  · cases p
    case test | unlock => exact h.toSteady
    case capacity | element => exact h.1.toSteady
    case realloc | data | count => exact h.1
    all_goals cases hp
  · cases p
    case count => exact h.toSteady
    case data | sum | unlock => exact h.1.toSteady
    case test => exact h.sound.toSteady
    case body | average => exact h.1.sound.toSteady
    all_goals cases hp
  · cases hp

theorem steady_always (h : Reachable (program arith false role) c) : Steady arith c.shared := by
  apply (outline_sat h).always
  · intro s hs
    exact hs.toSteady
  · intro i t s ht hhold
    exact (ht.2 hhold.1).steady hhold.2

/-- The store that is locked for reading as well: whenever the mutex is free it is sound, no load or
store misses it, the loop over the samples reads each of them, and the statistics are those of the
samples pushed up to a moment, in the order of the lock. -/
theorem locked_store (arith : Arithmetic D) (role : ι → Role) (c : State ι D)
    (h : Reachable (program arith false role) c) :
    (c.owner = none → c.shared.count ≤ c.shared.capacity ∧ c.shared.pushed.length = c.shared.count ∧
      c.shared.heap.Block c.shared.data c.shared.capacity c.shared.pushed) ∧
    c.shared.fault = false ∧
    (∀ i l, c.At i (.monitor .body) l → l.d = c.shared.data ∧
      ∃ v, c.shared.heap.load l.d l.i = some v ∧ c.shared.pushed[l.i]? = some v) ∧
    (∀ i l, c.At i (.monitor .unlock) l →
      l.st.count = c.shared.pushed.length ∧ l.st.avg = average arith c.shared.pushed) ∧
    (c.shared.reports.Pairwise fun st st' => st.count ≤ st'.count) ∧
    ∀ st ∈ c.shared.reports, st.count ≤ c.shared.pushed.length ∧
      st.avg = average arith (c.shared.pushed.take st.count) := by
  have hsat := outline_sat h
  have hsteady := steady_always h
  refine ⟨?_, hsteady.fault, ?_, ?_, hsteady.rising, hsteady.report⟩
  · intro howner
    have hsound : Sound arith c.shared := hsat.free howner
    exact ⟨hsound.room, hsound.counted, hsound.block⟩
  · intro i l hi
    obtain ⟨hsumming, hlt⟩ : Summing arith c.shared l ∧ l.i < c.shared.count := running_iff.mp (hsat.at hi)
    exact ⟨hsumming.data, hsumming.load hlt⟩
  · intro i l hi
    obtain ⟨-, hst⟩ : Sound arith c.shared ∧ l.st = ⟨average arith c.shared.pushed, c.shared.pushed.length⟩ :=
      running_iff.mp (hsat.at hi)
    rw [hst]
    exact ⟨rfl, rfl⟩

def pairRole : Bool → Role
  | true => .producer
  | false => .monitor

def naturals : Arithmetic ℕ := ⟨0, (· + ·), (· / ·), id⟩

def pairStart : State Bool ℕ where
  shared := ⟨true, Function.update (fun _ => none) 7 (some (List.replicate INITIAL_CAP none)), some 7, 0,
    INITIAL_CAP, false, [], []⟩
  owner := none
  thread i := ⟨(pairRole i).start, ⟨0, none, ⟨0, 0⟩, none, 0, 0⟩, .running⟩

def push (value : ℕ) : List (Label Bool (Input ℕ)) :=
  [.run true, .input true (.sample value), .run true, .run true, .input true .nothing, .input true .nothing,
    .run true]

def growingPush (value a : ℕ) : List (Label Bool (Input ℕ)) :=
  [.run true, .input true (.sample value), .run true, .run true, .input true .nothing,
    .input true (.block (some a)), .input true .nothing, .input true .nothing, .input true .nothing, .run true]

def statistics (n : ℕ) : List (Label Bool (Input ℕ)) :=
  [.run false, .run false, .input false .nothing, .input false .nothing, .input false .nothing] ++
    (List.replicate n [Label.run false, .input false .nothing]).flatten ++
    [.run false, .input false .nothing, .run false]

def pairSchedule : List (Label Bool (Input ℕ)) :=
  push 10 ++ push 20 ++ push 30 ++ push 40 ++ growingPush 50 9 ++ statistics 5

theorem locked_store_pair : ∃ c : State Bool ℕ, Reachable (program naturals false pairRole) c ∧
    c.owner = none ∧ c.shared.data = some 9 ∧ c.shared.heap 7 = none ∧
    c.shared.heap.Block c.shared.data c.shared.capacity c.shared.pushed ∧
    c.shared.reports = [⟨30, 5⟩] ∧ average naturals c.shared.pushed = 30 := by
  have hrun : (execAll (code naturals false) pairStart pairSchedule).isSome = true := by decide
  have hr : Reachable (program naturals false pairRole) (Option.get _ hrun) := by
    apply reachable_of_execAll _ (Option.some_get hrun).symm
    exact ⟨rfl, ⟨fun _ => none, 7, rfl⟩, fun _ => ⟨_, rfl⟩⟩
  have hstore := locked_store naturals pairRole _ hr
  have hreport := (hstore.2.2.2.2.2 ⟨30, 5⟩ (List.mem_singleton.mpr rfl)).2
  exact ⟨_, hr, rfl, rfl, rfl, (hstore.1 rfl).2.2, rfl, hreport.symm⟩

end EmbeddedLinuxTraining.RaceCrash
