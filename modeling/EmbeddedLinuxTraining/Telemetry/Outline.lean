import EmbeddedLinuxTraining.Telemetry.Stand

namespace EmbeddedLinuxTraining.Telemetry

open Library.Pthread Library.Transition

variable {cJSONParse : CString → Option CJson} {s s' : Shared} {l l' : Locals} {x : Input}

theorem mem_enqueue {queue : List Event} {e e' : Event} (h : e' ∈ queue) : e' ∈ enqueue queue e := by
  unfold enqueue
  split_ifs
  · exact h
  · exact List.mem_append_left _ h

theorem mem_enqueue_self (queue : List Event) (e : Event) : e ∈ enqueue queue e := by
  unfold enqueue
  split_ifs with hlast
  · exact List.mem_of_getLast? hlast
  · exact List.mem_append_right _ (List.mem_singleton_self e)

theorem keeps_notice (s : Shared) (e : Event) : Keeps cJSONParse s (s.notice e) := by
  unfold Shared.notice
  split_ifs
  · refine ⟨rfl, rfl, rfl, rfl, fun cfg due h => ⟨h.1, fun hn content settings hf hp => ?_⟩⟩
    refine (h.2 hn content settings hf hp).imp_right ?_
    rintro ⟨e', he, hr⟩
    rcases List.mem_append.mp he with he | he
    · exact ⟨e', List.mem_append_left _ he, hr⟩
    · exact ⟨e', List.mem_append_right _ (mem_enqueue he), hr⟩
  · exact .refl_of rfl rfl rfl rfl rfl rfl rfl

theorem keeps_change {file : Option (List UInt8)} {writers : ℕ} {queue : List Event}
    (h : (∃ e ∈ queue, e.reloads = true) ∨ writers ≠ 0 ∨ file = none) :
    Keeps cJSONParse s { s with file := file, writers := writers, queue := queue } := by
  refine ⟨rfl, rfl, rfl, rfl, fun cfg due ha => ⟨ha.1, fun hn content settings hf hp => ?_⟩⟩
  rcases h with ⟨e, he, hr⟩ | h | h
  · exact .inr ⟨e, List.mem_append_right _ he, hr⟩
  · exact absurd hn h
  · exact nomatch h.symm.trans hf

theorem keeps_change_notice {file : Option (List UInt8)} {writers : ℕ} {e : Event}
    (h : e.reloads = true ∨ file = none) :
    Keeps cJSONParse s ({ s with file := file, writers := writers }.notice e) := by
  unfold Shared.notice
  split_ifs with hw
  · refine keeps_change ?_
    rcases h with h | h
    · exact .inl ⟨e, mem_enqueue_self _ e, h⟩
    · exact .inr (.inr h)
  · exact ⟨rfl, rfl, rfl, rfl, fun _ _ ha => absurd ha.1 hw⟩

theorem FileAction.keeps {a : FileAction} (h : a.apply s = some s') : Keeps cJSONParse s s' := by
  cases a with
  | «open» truncate =>
    cases h
    exact keeps_change (.inr (.inl (Nat.succ_ne_zero _)))
  | write content =>
    simp only [apply] at h
    split_ifs at h with hn
    cases h
    exact keeps_change (.inr (.inl hn))
  | close =>
    simp only [apply] at h
    split_ifs at h
    cases h
    exact keeps_change_notice (.inl (by decide))
  | renameOver content writers =>
    cases h
    exact keeps_change_notice (.inl (by decide))
  | delete | moveAway =>
    cases h
    exact keeps_change_notice (.inr rfl)

theorem tells_notice (s : Shared) (file : Option (List UInt8)) (writers : ℕ) (e : Event) :
    Tells s ({ s with file := file, writers := writers }.notice e) := by
  unfold Shared.notice
  split_ifs
  · exact .refl_of rfl rfl rfl rfl rfl rfl
  · exact .refl_of rfl rfl rfl rfl rfl rfl

theorem FileAction.tells {a : FileAction} (h : a.apply s = some s') : Tells s s' := by
  cases a with
  | «open» truncate =>
    cases h
    exact .refl_of rfl rfl rfl rfl rfl rfl
  | write content =>
    simp only [apply] at h
    split_ifs at h
    cases h
    exact .refl_of rfl rfl rfl rfl rfl rfl
  | close =>
    simp only [apply] at h
    split_ifs at h
    cases h
    exact tells_notice s _ _ _
  | renameOver | delete | moveAway =>
    cases h
    exact tells_notice s _ _ _

theorem environment_keeps (h : environment x s l = some (s', l')) :
    Keeps cJSONParse s s' ∧ Tells s s' := by
  unfold environment at h
  split at h
  · rename_i a
    obtain ⟨s₁, hs, hd⟩ := Option.map_eq_some_iff.mp h
    cases hd
    exact ⟨a.keeps hs, a.tells hs⟩
  · cases h
    exact ⟨keeps_notice s _, tells_notice s s.file s.writers _⟩
  · split_ifs at h
    cases h
    exact ⟨.refl_of rfl rfl rfl rfl rfl rfl rfl, .refl_of rfl rfl rfl rfl rfl rfl⟩
  · cases h
    exact ⟨.refl_of rfl rfl rfl rfl rfl rfl rfl, .refl_of rfl rfl rfl rfl rfl rfl⟩
  · cases h

theorem Current.snprintf (h : Current cJSONParse s) : snprintf 64 s.gCfg.swVersion = s.gCfg.swVersion := by
  unfold Current at h
  split at h
  · have hv : s.gCfg.swVersion = defaults.swVersion := congrArg Settings.swVersion h
    rw [hv]
    decide
  · exact snprintf_settings cJSONParse h

theorem parse_stand (l : Locals) (ph : Phase) (hw : s.watching = true) :
    MonitorStand cJSONParse s (parse cJSONParse s l).2.monitor (.parseTest ph) := by
  constructor
  · intro hok
    obtain ⟨content, settings, hfile, hs⟩ :=
      settings_of_parseConfigFile cJSONParse (of_decide_eq_true hok)
    have hparse := parseConfigFile_of_settings cJSONParse l.monitor.version l.monitor.period hs
    have hpair : (parse cJSONParse s l).2.monitor.pair = settings := by
      simp only [parse, hfile, hparse, Monitor.pair]
    refine ⟨?_, hw, fun _ content' settings' hfile' hs' => ?_⟩
    · rw [Loaded, hpair]
      simpa only [parse, hfile, Option.getD_some] using hs
    · obtain rfl : content = content' := Option.some.inj (hfile.symm.trans hfile')
      exact .inl (hpair.trans (Option.some.inj (hs.symm.trans hs')))
  · intro hok
    refine ⟨hw, fun _ content settings hfile hs => ?_⟩
    have hparse := parseConfigFile_of_settings cJSONParse l.monitor.version l.monitor.period hs
    simp [parse, hfile, hparse] at hok

theorem told_eventfdWrite (pair : Settings) {s : Shared} :
    Told pair { s with gCfgNotify := eventfdWrite s.gCfgNotify, owed := false } := by
  refine .inr (.inr ?_)
  simp only [eventfdWrite]
  split <;> omega

theorem notify_tells (l : Locals) : Tells s (notify s l).1 :=
  ⟨rfl, rfl, List.Subset.refl _, fun pair _ => told_eventfdWrite pair⟩

theorem run_some {g : Shared → Locals → Shared × Locals} (h : some (g s l) = some (s', l')) :
    (g s l).1 = s' ∧ (g s l).2 = l' :=
  ⟨congrArg Prod.fst (Option.some.inj h), congrArg Prod.snd (Option.some.inj h)⟩

theorem storeVersion_stand (l : Locals) (ph : Phase) (hs : MonitorStand cJSONParse s l.monitor (.version ph))
    (ho : s.owed = false) :
    MonitorStand cJSONParse (storeVersion ph s l).1 l.monitor (.period ph) ∧
      Tells s (storeVersion ph s l).1 := by
  have hcopy : snprintf 64 l.monitor.version = l.monitor.version := snprintf_settings cJSONParse hs.1
  have hpair (hno : l.monitor.notifies ph = false) :
      (storeVersion ph s l).1.gCfg.pair = l.monitor.pair ∧
        (storeVersion ph s l).1.gCfg.pair = s.gCfg.pair := by
    have hg := hs.2.2 hno
    have hv : s.gCfg.swVersion = l.monitor.version := congrArg Settings.swVersion hg
    rw [← hg]
    simp only [storeVersion, hcopy, hv, SharedConfig.pair, and_self]
  constructor
  · exact ⟨hs.1, hs.2.1, hcopy, fun hno => (hpair hno).1⟩
  · refine ⟨rfl, rfl, List.Subset.refl _, fun pair ht => ?_⟩
    cases hno : l.monitor.notifies ph with
    | true => exact .inr (.inl hno)
    | false =>
      obtain ht | ht | ht := ht
      · exact .inl (ht.trans (hpair hno).2.symm)
      · exact nomatch ht.symm.trans ho
      · exact .inr (.inr ht)

theorem storePeriod_stand (l : Locals) (ph : Phase) (hs : MonitorStand cJSONParse s l.monitor (.period ph))
    (ho : s.owed = l.monitor.notifies ph) :
    MonitorStand cJSONParse (storePeriod s l).1 l.monitor (.valid ph) ∧ Tells s (storePeriod s l).1 := by
  have hpair : (storePeriod s l).1.gCfg.pair = l.monitor.pair := by
    simp only [storePeriod, SharedConfig.pair, Monitor.pair, hs.2.2.1]
  constructor
  · exact ⟨hs.1, hs.2.1, hpair⟩
  · refine ⟨rfl, rfl, List.Subset.refl _, fun pair ht => ?_⟩
    cases hno : l.monitor.notifies ph with
    | true => exact .inr (.inl (ho.trans hno))
    | false =>
      obtain ht | ht := ht
      · exact .inl (ht.trans ((hs.2.2.2 hno).trans hpair.symm))
      · exact .inr ht

theorem storeValid_stand (l : Locals) (ph : Phase) (hs : MonitorStand cJSONParse s l.monitor (.valid ph)) :
    MonitorStand cJSONParse (storeValid s l).1 l.monitor (.unlock ph) := by
  obtain ⟨hload, hahead, hpair⟩ := hs
  rw [← hpair] at hahead
  rw [Loaded, ← hpair] at hload
  have hlast : (storeValid s l).1.applied.getLast? = some l.monitor.snapshot := List.getLast?_concat
  constructor
  · rw [Current, hlast]
    exact hload
  · exact hahead

theorem monitor_act {p : MonitorPoint} {q : Point} {f : Input → Shared → Locals → Option (Shared × Locals)}
    (hc : monitorThreadFn cJSONParse p = .act f q) (hf : f x s l = some (s', l'))
    (h : Stand cJSONParse s l (.monitor p)) : p.holds = q.holds ∧ q.agent = .monitor ∧
      Stand cJSONParse s' l' q ∧ Tells s s' ∧
      (p.holds = false → s'.gCfg = s.gCfg ∧ s'.applied = s.applied) := by
  obtain ⟨hs, ho⟩ := h
  have hsame : Tells s s := .refl_of rfl rfl rfl rfl rfl rfl
  cases p with
  | setup =>
    cases hc
    cases x with
    | call ok =>
      cases hf
      exact ⟨rfl, rfl, ⟨fun hok => hok, ho⟩, .refl_of rfl rfl rfl rfl rfl rfl, fun _ => ⟨rfl, rfl⟩⟩
    | _ => cases hf
  | parse ph =>
    cases hc
    obtain ⟨rfl, rfl⟩ := run_some hf
    exact ⟨rfl, rfl, ⟨parse_stand l ph hs, ho⟩, hsame, fun _ => ⟨rfl, rfl⟩⟩
  | changed =>
    cases hc
    obtain ⟨rfl, rfl⟩ := run_some hf
    refine ⟨rfl, rfl, ⟨⟨hs.1, hs.2, fun hno => ?_⟩, ho⟩, hsame, nofun⟩
    simp only [Monitor.notifies, testChanged, Bool.or_eq_false_iff, decide_eq_false_iff_not,
      not_not] at hno
    simp only [SharedConfig.pair, Monitor.pair, testChanged, hno]
  | version ph =>
    cases hc
    obtain ⟨rfl, rfl⟩ := run_some hf
    obtain ⟨hstand, htells⟩ := storeVersion_stand l ph hs ho
    exact ⟨rfl, rfl, ⟨hstand, rfl⟩, htells, nofun⟩
  | period ph =>
    cases hc
    obtain ⟨rfl, rfl⟩ := run_some hf
    obtain ⟨hstand, htells⟩ := storePeriod_stand l ph hs ho
    exact ⟨rfl, rfl, ⟨hstand, ho⟩, htells, nofun⟩
  | valid ph =>
    cases hc
    obtain ⟨rfl, rfl⟩ := run_some hf
    have htells : Tells s (storeValid s l).1 := ⟨rfl, rfl, List.subset_append_left _ _, fun _ h => h⟩
    exact ⟨rfl, rfl, ⟨storeValid_stand l ph hs, ho⟩, htells, nofun⟩
  | notify ph =>
    cases ph with
    | initial =>
      cases hc
      obtain ⟨rfl, rfl⟩ := run_some hf
      exact ⟨rfl, rfl, ⟨hs, rfl⟩, notify_tells l, fun _ => ⟨rfl, rfl⟩⟩
    | reload =>
      cases hc
      obtain ⟨rfl, rfl⟩ := run_some hf
      exact ⟨rfl, rfl, ⟨hs, rfl⟩, notify_tells l, fun _ => ⟨rfl, rfl⟩⟩
  | epollWait =>
    cases hc
    unfold monitorPoll at hf
    split at hf
    · split_ifs at hf
      cases hf
      exact ⟨rfl, rfl, ⟨hs, ho⟩, hsame, fun _ => ⟨rfl, rfl⟩⟩
    · cases hf
  | read =>
    cases hc
    unfold readEvents at hf
    split at hf
    · cases hf
      refine ⟨rfl, rfl, ⟨?_, ho⟩, .refl_of rfl rfl rfl rfl rfl rfl, fun _ => ⟨rfl, rfl⟩⟩
      refine ⟨hs.1, fun hn content settings hfile hp => ?_⟩
      simpa only [List.take_append_drop, List.nil_append] using hs.2 hn content settings hfile hp
    · cases hf
  | next =>
    cases hc
    obtain ⟨rfl, rfl⟩ := run_some hf
    exact ⟨rfl, rfl, ⟨hs, ho⟩, hsame, fun _ => ⟨rfl, rfl⟩⟩
  | close =>
    cases hc
    obtain ⟨rfl, rfl⟩ := run_some hf
    exact ⟨rfl, rfl, ⟨trivial, ho⟩, .refl_of rfl rfl rfl rfl rfl rfl, fun _ => ⟨rfl, rfl⟩⟩
  | parseTest ph | lock ph | unlock ph => cases ph <;> cases hc
  | setupTest | changedTest | loop | ready | failed | event | classify | done => cases hc

theorem timed_settime (timer : Timer) (period : Int32) :
    0 ≤ period → (timer.settime period).interval = period := by
  intro hp
  rw [Timer.settime, if_neg (Int32.not_lt.mpr hp)]

theorem told_copyVersion (hc : Current cJSONParse s) (ht : Told l.server.pair s) :
    Told (copyVersion s l).2.server.pair s := by
  refine ht.imp_left fun hp => ?_
  have hperiod : l.server.period = s.gCfg.periodSec := congrArg Settings.periodSec hp
  simp only [copyVersion, Server.pair, SharedConfig.pair, hc.snprintf, hperiod]

inductive ServerPoint.Own : ServerPoint → ServerPoint → Prop
  | setup : Own .setup .setupTest
  | register : Own .register .loop
  | epollWait : Own .epollWait .ready
  | other : Own .other .next
  | next : Own .next .event
  | close : Own .close .done

inductive ServerAct (x : Input) (s : Shared) (l : Locals) : ServerPoint → ServerPoint → Shared → Locals → Prop
  | period (k : Copy) : ServerAct x s l (.period k) (.version k) s (copyPeriod s l).2
  | version (k : Copy) : ServerAct x s l (.version k) (.unlock k) s (copyVersion s l).2
  | timerVersion : ServerAct x s l .timerVersion .timerUnlock s (copyVersion s l).2
  | startTimer : ServerAct x s l (.settime .startup) .register (setTimer s l).1 l
  | setTimer : ServerAct x s l (.settime .notify) .next (setTimer s l).1 l
  | timerRead : ServerAct x s l .timerRead .expired (readTimer s l).1 (readTimer s l).2
  | notifyRead : ServerAct x s l .notifyRead (.lock .notify) (readNotify s l).1 l
  | broadcast {s' : Shared} : broadcastTelemetry x s l = some (s', l) → ServerAct x s l .broadcast .next s' l
  | own {p q : ServerPoint} {l' : Locals} : p.Own q → l'.server.pair = l.server.pair → ServerAct x s l p q s l'

theorem serverPoll_own (hf : serverPoll x s l = some (s', l')) : s' = s ∧ l'.server.pair = l.server.pair := by
  unfold serverPoll at hf
  split at hf
  · split_ifs at hf
    cases hf
    exact ⟨rfl, rfl⟩
  · split_ifs at hf
    cases hf
    exact ⟨rfl, rfl⟩
  · cases hf

theorem serveOther_own (hf : serveOther x s l = some (s', l')) : s' = s ∧ l'.server.pair = l.server.pair := by
  unfold serveOther at hf
  simp only at hf
  split at hf
  · cases hf
    exact ⟨rfl, rfl⟩
  · cases hf
    exact ⟨rfl, rfl⟩
  · cases hf
    exact ⟨rfl, rfl⟩
  · cases hf

theorem serverAct_of_act {p : ServerPoint} {q : Point}
    {f : Input → Shared → Locals → Option (Shared × Locals)} (hc : serverThreadFn p = .act f q)
    (hf : f x s l = some (s', l')) :
    ∃ q', q = .server q' ∧ ServerAct x s l p q' s' l' := by
  cases p with
  | setup =>
    cases hc
    unfold openServer at hf
    split at hf
    · cases hf
      exact ⟨_, rfl, .own .setup rfl⟩
    · cases hf
  | period k =>
    cases hc
    obtain ⟨rfl, rfl⟩ := run_some hf
    exact ⟨_, rfl, .period k⟩
  | version k =>
    cases hc
    obtain ⟨rfl, rfl⟩ := run_some hf
    exact ⟨_, rfl, .version k⟩
  | settime k =>
    cases k with
    | startup =>
      cases hc
      obtain ⟨rfl, rfl⟩ := run_some hf
      exact ⟨_, rfl, .startTimer⟩
    | notify =>
      cases hc
      obtain ⟨rfl, rfl⟩ := run_some hf
      exact ⟨_, rfl, .setTimer⟩
  | register =>
    cases hc
    obtain ⟨rfl, rfl⟩ := run_some hf
    exact ⟨_, rfl, .own .register rfl⟩
  | epollWait =>
    cases hc
    obtain ⟨rfl, hpair⟩ := serverPoll_own hf
    exact ⟨_, rfl, .own .epollWait hpair⟩
  | timerRead =>
    cases hc
    obtain ⟨rfl, rfl⟩ := run_some hf
    exact ⟨_, rfl, .timerRead⟩
  | timerVersion =>
    cases hc
    obtain ⟨rfl, rfl⟩ := run_some hf
    exact ⟨_, rfl, .timerVersion⟩
  | broadcast =>
    cases hc
    obtain rfl : l' = l := by
      unfold broadcastTelemetry at hf
      split at hf
      · cases hf
        rfl
      · cases hf
    exact ⟨_, rfl, .broadcast hf⟩
  | notifyRead =>
    cases hc
    obtain ⟨rfl, rfl⟩ := run_some hf
    exact ⟨_, rfl, .notifyRead⟩
  | other =>
    cases hc
    obtain ⟨rfl, hpair⟩ := serveOther_own hf
    exact ⟨_, rfl, .own .other hpair⟩
  | next =>
    cases hc
    obtain ⟨rfl, rfl⟩ := run_some hf
    exact ⟨_, rfl, .own .next rfl⟩
  | close =>
    cases hc
    obtain ⟨rfl, rfl⟩ := run_some hf
    exact ⟨_, rfl, .own .close rfl⟩
  | setupTest | lock | unlock | loop | ready | failed | event | timerTest | expired | timerLock
  | timerUnlock | notifyTest | done => cases hc

theorem server_act {p q : ServerPoint} (hact : ServerAct x s l p q s' l')
    (h : ServerStand cJSONParse s l.server p) : p.holds = q.holds ∧
      ServerStand cJSONParse s' l'.server q ∧ Keeps cJSONParse s s' := by
  have hsame : Keeps cJSONParse s s := .refl_of rfl rfl rfl rfl rfl rfl rfl
  cases hact with
  | period k => exact ⟨rfl, ⟨h, rfl⟩, hsame⟩
  | version k =>
    refine ⟨rfl, ⟨h.1, ?_⟩, hsame⟩
    simp only [copyVersion, Server.pair, SharedConfig.pair, h.1.snprintf, h.2]
  | timerVersion => exact ⟨rfl, ⟨h.1, told_copyVersion h.1 h.2.1, h.2.2⟩, hsame⟩
  | startTimer | setTimer => exact ⟨rfl, ⟨h, timed_settime _ _⟩, .refl_of rfl rfl rfl rfl rfl rfl rfl⟩
  | timerRead => exact ⟨rfl, h, .refl_of rfl rfl rfl rfl rfl rfl rfl⟩
  | notifyRead => exact ⟨rfl, trivial, .refl_of rfl rfl rfl rfl rfl rfl rfl⟩
  | broadcast hf =>
    unfold broadcastTelemetry at hf
    split at hf
    · cases hf
      exact ⟨rfl, h, .refl_of rfl rfl rfl rfl rfl rfl rfl⟩
    · cases hf
  | own hown hpair =>
    have hperiod : l'.server.period = l.server.period := congrArg Settings.periodSec hpair
    cases hown with
    | setup | close => exact ⟨rfl, trivial, hsame⟩
    | register | epollWait | other | next =>
      refine ⟨rfl, ?_, hsame⟩
      unfold ServerStand at h ⊢
      rw [hpair, hperiod]
      exact h

theorem ahead_tail {cfg : Settings} {events : List Event} (h : Ahead cJSONParse cfg events s)
    (hno : events.head?.any Event.reloads = false) : Ahead cJSONParse cfg events.tail s := by
  refine ⟨h.1, fun hn content settings hfile hp => (h.2 hn content settings hfile hp).imp_right ?_⟩
  rintro ⟨e, he, hr⟩
  cases events with
  | nil => exact ⟨e, he, hr⟩
  | cons first rest =>
    rcases List.mem_cons.mp he with rfl | he
    · exact nomatch hno.symm.trans hr
    · exact ⟨e, he, hr⟩

theorem monitor_branch {p : MonitorPoint} {test : Shared → Locals → Bool} {yes no : Point}
    (hc : monitorThreadFn cJSONParse p = .branch test yes no) :
    (yes.holds = p.holds ∧ no.holds = p.holds) ∧ (yes.agent = .monitor ∧ no.agent = .monitor) ∧
      ∀ {s l}, Stand cJSONParse s l (.monitor p) →
        (test s l = true → Stand cJSONParse s l yes) ∧ (test s l = false → Stand cJSONParse s l no) := by
  cases p with
  | setupTest =>
    cases hc
    exact ⟨⟨rfl, rfl⟩, ⟨rfl, rfl⟩, fun h => ⟨fun hok => ⟨h.1 hok, h.2⟩, fun _ => ⟨trivial, h.2⟩⟩⟩
  | parseTest ph =>
    cases ph <;> cases hc
    all_goals
      refine ⟨⟨rfl, rfl⟩, ⟨rfl, rfl⟩, fun h => ⟨?_, ?_⟩⟩
      · exact fun hok => ⟨h.1.1 hok, h.2⟩
      · exact fun hok => ⟨h.1.2 hok, h.2⟩
  | changedTest =>
    cases hc
    exact ⟨⟨rfl, rfl⟩, ⟨rfl, rfl⟩, fun h =>
      ⟨fun hb => ⟨h.1, h.2.trans hb⟩, fun hb => ⟨h.1, h.2.trans hb⟩⟩⟩
  | loop =>
    cases hc
    exact ⟨⟨rfl, rfl⟩, ⟨rfl, rfl⟩, fun h => ⟨fun _ => ⟨trivial, h.2⟩, fun _ => h⟩⟩
  | ready =>
    cases hc
    exact ⟨⟨rfl, rfl⟩, ⟨rfl, rfl⟩, fun h => ⟨fun _ => h, fun _ => h⟩⟩
  | failed =>
    cases hc
    exact ⟨⟨rfl, rfl⟩, ⟨rfl, rfl⟩, fun h => ⟨fun _ => ⟨trivial, h.2⟩, fun _ => h⟩⟩
  | event =>
    cases hc
    refine ⟨⟨rfl, rfl⟩, ⟨rfl, rfl⟩, fun h => ⟨fun hb => ⟨?_, h.2⟩, fun _ => h⟩⟩
    have hahead := h.1
    rw [MonitorStand, List.isEmpty_iff.mp hb] at hahead
    exact hahead
  | classify =>
    cases hc
    exact ⟨⟨rfl, rfl⟩, ⟨rfl, rfl⟩, fun h => ⟨fun _ => ⟨h.1.1, h.2⟩, fun hb => ⟨ahead_tail h.1 hb, h.2⟩⟩⟩
  | lock ph | unlock ph | notify ph => cases ph <;> cases hc
  | _ => cases hc

theorem server_branch {p : ServerPoint} {test : Shared → Locals → Bool} {yes no : Point}
    (hc : serverThreadFn p = .branch test yes no) :
    (yes.holds = p.holds ∧ no.holds = p.holds) ∧ (yes.agent = .server ∧ no.agent = .server) ∧
      ∀ {s l}, Stand cJSONParse s l (.server p) →
        (test s l = true → Stand cJSONParse s l yes) ∧ (test s l = false → Stand cJSONParse s l no) := by
  cases p with
  | setupTest =>
    cases hc
    exact ⟨⟨rfl, rfl⟩, ⟨rfl, rfl⟩, fun _ => ⟨fun _ => trivial, fun _ => trivial⟩⟩
  | loop | failed =>
    cases hc
    exact ⟨⟨rfl, rfl⟩, ⟨rfl, rfl⟩, fun h => ⟨fun _ => trivial, fun _ => h⟩⟩
  | ready | event | timerTest | expired | notifyTest =>
    cases hc
    exact ⟨⟨rfl, rfl⟩, ⟨rfl, rfl⟩, fun h => ⟨fun _ => h, fun _ => h⟩⟩
  | settime k => cases k <;> cases hc
  | _ => cases hc

theorem Assertion.goto {i : Agent} {p q : Point} (h : Assertion cJSONParse i ⟨p, l, .running⟩ s)
    (ha : q.agent = p.agent) (hs : Stand cJSONParse s' l' q) :
    Assertion cJSONParse i ⟨q, l', .running⟩ s' :=
  ⟨ha.trans h.agent, .inl rfl, hs⟩

theorem lock_stand {p q : Point} (hc : code cJSONParse p = .lock q) :
    p.holds = false ∧ q.holds = true ∧ q.agent = p.agent ∧
      ∀ {s l}, Stand cJSONParse s l p → Current cJSONParse s → Stand cJSONParse s l q := by
  cases p with
  | environment => cases hc
  | monitor p =>
    cases p with
    | lock ph =>
      cases ph with
      | initial =>
        cases hc
        exact ⟨rfl, rfl, rfl, fun h _ => ⟨⟨h.1.1, h.1.2, nofun⟩, h.2⟩⟩
      | reload =>
        cases hc
        exact ⟨rfl, rfl, rfl, fun h _ => h⟩
    | parseTest ph | unlock ph | notify ph => cases ph <;> cases hc
    | _ => cases hc
  | server p =>
    cases p with
    | lock k =>
      cases hc
      exact ⟨rfl, rfl, rfl, fun _ hi => hi⟩
    | timerLock =>
      cases hc
      exact ⟨rfl, rfl, rfl, fun h hi => ⟨hi, h⟩⟩
    | settime k => cases k <;> cases hc
    | _ => cases hc

theorem unlock_stand {p q : Point} (hc : code cJSONParse p = .unlock q) :
    p.holds = true ∧ q.holds = false ∧ q.agent = p.agent ∧
      ∀ {s l}, Stand cJSONParse s l p → Current cJSONParse s ∧ Stand cJSONParse s l q := by
  cases p with
  | environment => cases hc
  | monitor p =>
    cases p with
    | unlock ph =>
      cases ph <;> cases hc
      all_goals exact ⟨rfl, rfl, rfl, fun h => ⟨h.1.1, h.1.2, h.2⟩⟩
    | parseTest ph | lock ph | notify ph => cases ph <;> cases hc
    | _ => cases hc
  | server p =>
    cases p with
    | unlock k =>
      cases hc
      exact ⟨rfl, rfl, rfl, fun h => ⟨h.1, .inl h.2⟩⟩
    | timerUnlock =>
      cases hc
      exact ⟨rfl, rfl, rfl, fun h => h⟩
    | settime k => cases k <;> cases hc
    | _ => cases hc

theorem act_stand {p q : Point} {f : Input → Shared → Locals → Option (Shared × Locals)}
    (hc : code cJSONParse p = .act f q) (hf : f x s l = some (s', l')) (h : Stand cJSONParse s l p) :
    p.holds = q.holds ∧ q.agent = p.agent ∧ Stand cJSONParse s' l' q ∧
      (p.holds = false → Current cJSONParse s → Current cJSONParse s') := by
  cases p with
  | monitor p =>
    obtain ⟨hhold, hagent, hs, -, hkeep⟩ := monitor_act hc hf h
    refine ⟨hhold, hagent, hs, fun hp hcur => ?_⟩
    unfold Current at hcur ⊢
    rwa [(hkeep hp).1, (hkeep hp).2]
  | server p =>
    obtain ⟨q, rfl, hact⟩ := serverAct_of_act hc hf
    obtain ⟨hhold, hs, hkeep⟩ := server_act hact h
    exact ⟨hhold, rfl, hs, fun _ => hkeep.current⟩
  | environment =>
    cases hc
    exact ⟨rfl, rfl, trivial, fun _ => (environment_keeps hf).1.current⟩

theorem act_apart {p q : Point} {f : Input → Shared → Locals → Option (Shared × Locals)} {m : Locals}
    {r : Point} (hc : code cJSONParse p = .act f q) (hf : f x s l = some (s', l'))
    (h : Stand cJSONParse s l p) (hr : Stand cJSONParse s m r) (hne : r.agent ≠ p.agent)
    (hexcl : p.holds = true → r.holds = false) : Stand cJSONParse s' m r := by
  cases p with
  | monitor p =>
    cases r with
    | monitor r => exact absurd rfl hne
    | server r =>
      obtain ⟨-, -, -, htells, hkeep⟩ := monitor_act hc hf h
      refine htells.stand (fun hheld => hkeep ?_) hr
      cases hp : p.holds with
      | false => rfl
      | true => exact nomatch hheld.symm.trans (hexcl hp)
    | environment => trivial
  | server p =>
    cases r with
    | monitor r =>
      obtain ⟨q', -, hact⟩ := serverAct_of_act hc hf
      obtain ⟨-, -, hkeep⟩ := server_act hact h
      exact ⟨hkeep.stand hr.1, hkeep.owed.trans hr.2⟩
    | server r => exact absurd rfl hne
    | environment => trivial
  | environment =>
    cases hc
    have hact : Keeps cJSONParse s s' ∧ Tells s s' := environment_keeps hf
    obtain ⟨hkeep, htells⟩ := hact
    cases r with
    | monitor r => exact ⟨hkeep.stand hr.1, hkeep.owed.trans hr.2⟩
    | server r => exact htells.stand (fun _ => ⟨hkeep.gCfg, hkeep.applied⟩) hr
    | environment => trivial

theorem branch_stand {p yes no : Point} {test : Shared → Locals → Bool}
    (hc : code cJSONParse p = .branch test yes no) :
    (yes.holds = p.holds ∧ no.holds = p.holds) ∧ (yes.agent = p.agent ∧ no.agent = p.agent) ∧
      ∀ {s l}, Stand cJSONParse s l p →
        (test s l = true → Stand cJSONParse s l yes) ∧ (test s l = false → Stand cJSONParse s l no) := by
  cases p with
  | monitor p => exact monitor_branch hc
  | server p => exact server_branch hc
  | environment => cases hc

theorem act_holds {p q : Point} {f : Input → Shared → Locals → Option (Shared × Locals)}
    (hc : code cJSONParse p = .act f q) : p.holds = q.holds := by
  rcases p with p | p | _
  case' monitor | server => cases p
  all_goals first | cases hc | (rename_i k; cases k <;> cases hc)
  all_goals rfl

theorem code_create {p q r : Point} {child : Locals → Agent} (hc : code cJSONParse p = .create child q r) :
    False := by
  rcases p with p | p | _
  case' monitor | server => cases p
  all_goals first | cases hc | (rename_i k; cases k <;> cases hc)

theorem code_join {p q : Point} {child : Locals → Agent} (hc : code cJSONParse p = .join child q) :
    False := by
  rcases p with p | p | _
  case' monitor | server => cases p
  all_goals first | cases hc | (rename_i k; cases k <;> cases hc)

theorem code_ret {p : Point} (hc : code cJSONParse p = .ret) : p.holds = false := by
  rcases p with p | p | _
  case' monitor | server => cases p
  all_goals first | cases hc | (rename_i k; cases k <;> cases hc)
  all_goals rfl

theorem outline_valid : (outline cJSONParse).Valid (code cJSONParse) where
  lock := by
    intro p q hc
    obtain ⟨hp, hq, ha, hstand⟩ := lock_stand hc
    exact ⟨hp, hq, fun h hi => h.goto ha (hstand h.stand hi)⟩
  unlock := by
    intro p q hc
    obtain ⟨hp, hq, ha, hstand⟩ := unlock_stand hc
    exact ⟨hp, hq, fun h => ⟨(hstand h.stand).1, h.goto ha (hstand h.stand).2⟩⟩
  wait {_ k _} := k.elim
  woken {_ _ _ k _} := k.elim
  resume {_ k _} := k.elim
  signal {_ k _} := k.elim
  broadcast {_ k _} := k.elim
  branch := by
    intro p test yes no hc
    obtain ⟨⟨hy, hn⟩, ⟨hya, hna⟩, hstand⟩ := branch_stand hc
    exact ⟨hy, hn, fun h => ⟨fun hb => h.goto hya ((hstand h.stand).1 hb),
      fun hb => h.goto hna ((hstand h.stand).2 hb)⟩⟩
  act := by
    intro p f q hc
    refine ⟨act_holds hc, fun hf h => ?_⟩
    obtain ⟨-, ha, hstand, hinv⟩ := act_stand hc hf h.stand
    exact ⟨h.goto ha hstand, hinv⟩
  apart := by
    intro p f q hc i j l s x s' l' t hf hij h ht hexcl
    refine ⟨ht.agent, ht.mode, act_apart hc hf h.stand ht.stand ?_ fun hp => ?_⟩
    · rw [ht.agent, h.agent]
      exact hij.symm
    · rcases ht.mode with hm | hm
      · exact Bool.eq_false_iff.mpr fun hh => hexcl hp ⟨hm, hh⟩
      · exact hm.2
  create hc := (code_create hc).elim
  start h := nomatch h.mode
  join hc := (code_join hc).elim
  ret := by
    intro p hc
    exact ⟨code_ret hc, fun h => ⟨h.agent, .inr ⟨rfl, code_ret hc⟩, h.stand⟩⟩

end EmbeddedLinuxTraining.Telemetry
