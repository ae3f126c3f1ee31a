import EmbeddedLinuxTraining.Library.Outline
import EmbeddedLinuxTraining.Telemetry.Program

namespace EmbeddedLinuxTraining.Telemetry

open Library.Pthread Library.Transition

variable (cJSONParse : CString → Option CJson)

def Current (s : Shared) : Prop :=
  match s.applied.getLast? with
  | none => s.gCfg.pair = defaults
  | some content => settingsOf cJSONParse content = some s.gCfg.pair

/-- The directory is watched and, unless a reload is `due`, `cfg` is what the file states. -/
def Ahead (cfg : Settings) (due : List Event) (s : Shared) : Prop :=
  s.watching = true ∧ (s.writers = 0 → ∀ content settings, s.file = some content →
    settingsOf cJSONParse content = some settings →
      cfg = settings ∨ ∃ e ∈ due ++ s.queue, e.reloads = true)

def Monitor.pair (l : Monitor) : Settings := ⟨l.version, l.period⟩

def Server.pair (l : Server) : Settings := ⟨l.swVersion, l.period⟩

def Monitor.due (l : Monitor) : Phase → List Event
  | .initial => []
  | .reload => l.events.tail

def Loaded (l : Monitor) : Prop := settingsOf cJSONParse l.snapshot = some l.pair

def Monitor.owes (l : Monitor) : MonitorPoint → Bool
  | .period ph | .valid ph | .unlock ph => l.notifies ph
  | .changedTest => l.changed
  | .notify _ => true
  | _ => false

def MonitorStand (s : Shared) (l : Monitor) : MonitorPoint → Prop
  | .setup | .close | .done => True
  | .setupTest => l.ok = true → s.watching = true
  | .parse _ => s.watching = true
  | .parseTest ph =>
    (l.ok = true → Loaded cJSONParse l ∧ Ahead cJSONParse l.pair (l.due ph) s) ∧
    (l.ok = false → Ahead cJSONParse s.gCfg.pair (l.due ph) s)
  | .lock ph => Loaded cJSONParse l ∧ Ahead cJSONParse l.pair (l.due ph) s
  | .changed => Loaded cJSONParse l ∧ Ahead cJSONParse l.pair (l.due .reload) s
  | .version ph => Loaded cJSONParse l ∧ Ahead cJSONParse l.pair (l.due ph) s ∧
    (l.notifies ph = false → s.gCfg.pair = l.pair)
  | .period ph => Loaded cJSONParse l ∧ Ahead cJSONParse l.pair (l.due ph) s ∧
    s.gCfg.swVersion = l.version ∧ (l.notifies ph = false → s.gCfg.pair = l.pair)
  | .valid ph => Loaded cJSONParse l ∧ Ahead cJSONParse l.pair (l.due ph) s ∧ s.gCfg.pair = l.pair
  | .unlock ph => Current cJSONParse s ∧ Ahead cJSONParse s.gCfg.pair (l.due ph) s
  | .notify ph => Ahead cJSONParse s.gCfg.pair (l.due ph) s
  | .changedTest | .next => Ahead cJSONParse s.gCfg.pair l.events.tail s
  | .event | .classify => Ahead cJSONParse s.gCfg.pair l.events s
  | .loop | .epollWait | .ready | .failed | .read => Ahead cJSONParse s.gCfg.pair [] s

def Told (pair : Settings) (s : Shared) : Prop :=
  pair = s.gCfg.pair ∨ s.owed = true ∨ 0 < s.gCfgNotify

def Timed (period : Int32) (s : Shared) : Prop := 0 ≤ period → s.timer.interval = period

def ServerStand (s : Shared) (l : Server) : ServerPoint → Prop
  | .setup | .setupTest | .lock _ | .close | .done => True
  | .period _ => Current cJSONParse s
  | .version _ => Current cJSONParse s ∧ l.period = s.gCfg.periodSec
  | .unlock _ => Current cJSONParse s ∧ l.pair = s.gCfg.pair
  | .settime _ => Told l.pair s
  | .timerVersion | .timerUnlock => Current cJSONParse s ∧ Told l.pair s ∧ Timed l.period s
  | _ => Told l.pair s ∧ Timed l.period s

def MonitorPoint.holds : MonitorPoint → Bool
  | .changed | .version _ | .period _ | .valid _ | .unlock _ => true
  | _ => false

def ServerPoint.holds : ServerPoint → Bool
  | .period _ | .version _ | .unlock _ | .timerVersion | .timerUnlock => true
  | _ => false

def Point.holds : Point → Bool
  | .monitor p => p.holds
  | .server p => p.holds
  | .environment => false

def Point.agent : Point → Agent
  | .monitor _ => .monitor
  | .server _ => .server
  | .environment => .environment

def Stand (s : Shared) (l : Locals) : Point → Prop
  | .monitor p => MonitorStand cJSONParse s l.monitor p ∧ s.owed = l.monitor.owes p
  | .server p => ServerStand cJSONParse s l.server p
  | .environment => True

structure Assertion (i : Agent) (t : Thread Locals Empty Point) (s : Shared) : Prop where
  agent : t.pc.agent = i
  mode : t.mode = .running ∨ t.mode = .returned ∧ t.pc.holds = false
  stand : Stand cJSONParse s t.loc t.pc

def outline : Outline Agent Shared Locals Empty Point where
  holds := Point.holds
  inv := Current cJSONParse
  asrt := Assertion cJSONParse

/-- What an act of the server or the environment leaves as it is for the monitor. -/
structure Keeps (s s' : Shared) : Prop where
  gCfg : s'.gCfg = s.gCfg
  applied : s'.applied = s.applied
  owed : s'.owed = s.owed
  watching : s'.watching = s.watching
  ahead : ∀ cfg due, Ahead cJSONParse cfg due s → Ahead cJSONParse cfg due s'

/-- What an act of the monitor or the environment leaves as it is for the server. -/
structure Tells (s s' : Shared) : Prop where
  interval : s'.timer.interval = s.timer.interval
  sent : s'.sent = s.sent
  applied : s.applied ⊆ s'.applied
  told : ∀ pair, Told pair s → Told pair s'

variable {cJSONParse} {s s' : Shared} {l l' : Locals} {x : Input}

theorem Keeps.refl_of (hg : s'.gCfg = s.gCfg) (ha : s'.applied = s.applied) (ho : s'.owed = s.owed)
    (hw : s'.watching = s.watching) (hf : s'.file = s.file) (hn : s'.writers = s.writers)
    (hq : s'.queue = s.queue) : Keeps cJSONParse s s' := by
  refine ⟨hg, ha, ho, hw, fun cfg due h => ?_⟩
  unfold Ahead at h ⊢
  rwa [hw, hf, hn, hq]

theorem Tells.refl_of (hi : s'.timer.interval = s.timer.interval) (hs : s'.sent = s.sent)
    (ha : s'.applied = s.applied) (hg : s'.gCfg = s.gCfg) (ho : s'.owed = s.owed)
    (hn : s'.gCfgNotify = s.gCfgNotify) : Tells s s' := by
  refine ⟨hi, hs, ha ▸ List.Subset.refl _, fun pair h => ?_⟩
  unfold Told at h ⊢
  rwa [hg, ho, hn]

theorem Keeps.current (h : Keeps cJSONParse s s') (hs : Current cJSONParse s) : Current cJSONParse s' := by
  unfold Current at hs ⊢
  rwa [h.applied, h.gCfg]

theorem Keeps.stand {p : MonitorPoint} (h : Keeps cJSONParse s s') {m : Monitor}
    (hs : MonitorStand cJSONParse s m p) : MonitorStand cJSONParse s' m p := by
  cases p with
  | setup | close | done => trivial
  | setupTest => exact fun hok => h.watching.trans (hs hok)
  | parse => exact h.watching.trans hs
  | parseTest =>
    refine ⟨fun hok => ⟨(hs.1 hok).1, h.ahead _ _ (hs.1 hok).2⟩, fun hok => ?_⟩
    rw [h.gCfg]
    exact h.ahead _ _ (hs.2 hok)
  | lock | changed => exact ⟨hs.1, h.ahead _ _ hs.2⟩
  | version | period | valid =>
    unfold MonitorStand at hs ⊢
    rw [h.gCfg]
    exact ⟨hs.1, h.ahead _ _ hs.2.1, hs.2.2⟩
  | unlock =>
    unfold MonitorStand at hs ⊢
    rw [h.gCfg]
    exact ⟨h.current hs.1, h.ahead _ _ hs.2⟩
  | _ =>
    unfold MonitorStand at hs ⊢
    rw [h.gCfg]
    exact h.ahead _ _ hs

theorem Tells.stand {p : ServerPoint} (h : Tells s s') {m : Server}
    (hheld : p.holds = true → s'.gCfg = s.gCfg ∧ s'.applied = s.applied)
    (hs : ServerStand cJSONParse s m p) : ServerStand cJSONParse s' m p := by
  have htimed (period : Int32) (ht : Timed period s) : Timed period s' := by
    unfold Timed at ht ⊢
    rwa [h.interval]
  have hcurrent (hp : p.holds = true) (hc : Current cJSONParse s) : Current cJSONParse s' := by
    unfold Current at hc ⊢
    rwa [(hheld hp).1, (hheld hp).2]
  cases p with
  | setup | setupTest | lock | close | done => trivial
  | period => exact hcurrent rfl hs
  | version | unlock =>
    refine ⟨hcurrent rfl hs.1, ?_⟩
    rw [(hheld rfl).1]
    exact hs.2
  | settime => exact h.told _ hs
  | timerVersion | timerUnlock => exact ⟨hcurrent rfl hs.1, h.told _ hs.2.1, htimed _ hs.2.2⟩
  | _ => exact ⟨h.told _ hs.1, htimed _ hs.2⟩

end EmbeddedLinuxTraining.Telemetry
