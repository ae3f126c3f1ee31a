import EmbeddedLinuxTraining.Telemetry.Propagation

namespace EmbeddedLinuxTraining.Telemetry

open Library.Pthread Library.Transition

structure Ticking (c : State) : Prop where
  armed : 0 < c.shared.timer.interval
  interval : c.shared.timer.interval = (c.thread .server).loc.server.period

def Positive (c : State) (a : Label Agent Input) : Prop :=
  ∀ k, (c.thread a.actor).pc = .server (.period k) → 0 < c.shared.gCfg.periodSec

instance (c : State) (a : Label Agent Input) : Decidable (Positive c a) :=
  decidable_of_iff (((c.thread a.actor).pc = .server (.period .startup) → 0 < c.shared.gCfg.periodSec) ∧
      ((c.thread a.actor).pc = .server (.period .notify) → 0 < c.shared.gCfg.periodSec))
    ⟨fun h k => by cases k; exacts [h.1, h.2], fun h => ⟨h .startup, h .notify⟩⟩

def ServerPoint.started : ServerPoint → Bool
  | .setup | .setupTest | .lock .startup | .period .startup | .done => false
  | _ => true

def Started (l : Locals) : Point → Prop
  | .server p => p.started = true → 0 < l.server.period
  | _ => True

variable {cJSONParse : CString → Option CJson} {s s' : Shared} {l l' : Locals} {x : Input} {c d : State}

theorem started_next {p q : ServerPoint} (h : (code cJSONParse (.server p)).Next (.server q))
    (hq : q.started = true) : p.started = true := by
  cases p with
  | setupTest => rcases h with h | h <;> cases h <;> cases hq
  | lock k =>
    cases h
    cases k
    · cases hq
    · rfl
  | settime k => cases k <;> cases h
  | setup | period | version | done => cases h
  | _ => rfl

theorem Started.act {p q : ServerPoint} (h : Started l (.server p)) (hact : ServerAct x s l p q s' l')
    (hpos : ∀ k, p = .period k → 0 < s.gCfg.periodSec) : Started l' (.server q) := by
  intro hq
  cases hact with
  | period k => exact hpos k rfl
  | version | timerVersion | startTimer | setTimer | timerRead | notifyRead | broadcast => exact h rfl
  | own hown hpair =>
    have hperiod : l'.server.period = l.server.period := congrArg Settings.periodSec hpair
    rw [hperiod]
    cases hown with
    | setup | close => cases hq
    | register | epollWait | other | next => exact h rfl

theorem started_of_positive (h : Reachable ((program cJSONParse).restrict Positive) c) :
    Started (c.thread .server).loc (c.thread .server).pc := by
  have hinv : Invariant ((program cJSONParse).restrict Positive) fun c =>
      Started (c.thread .server).loc (c.thread .server).pc := by
    constructor
    · intro c hc
      obtain ⟨l, hl⟩ := hc.server
      rw [hl.thread]
      exact nofun
    · rintro c a d hr ih ⟨hstep, hpos⟩
      apply server_keeps (G := fun _ l p => Started l p) hr.of_restrict hstep ih
      · intro p q l l' x ha hat hact hp
        unfold Positive at hpos
        rw [ha, hat.thread] at hpos
        apply hp.act hact
        rintro k rfl
        exact hpos k rfl
      · exact fun p q _ l hnext hp hq => hp (started_next hnext hq)
      · exact fun _ _ _ _ hp => hp
  exact hinv.holds h

theorem ticking_iff (h : Reachable (program cJSONParse) c)
    (hp : (c.thread .server).pc = .server .epollWait) :
    Ticking c ↔ 0 < (c.thread .server).loc.server.period := by
  have htimed : Timed (c.thread .server).loc.server.period c.shared := (server_stand h hp).2
  constructor
  · rintro ⟨harmed, hinterval⟩
    rwa [← hinterval]
  · intro hpos
    have hinterval := htimed (Int32.le_of_lt hpos)
    constructor
    · rwa [hinterval]
    · exact hinterval

/-- The timer runs as advertised as long as the periods are positive, and with no other. -/
theorem ticking_positive :
    (∀ c, Reachable ((program cJSONParse).restrict Positive) c →
      (c.thread .server).pc = .server .epollWait → Ticking c) ∧
    ∀ c, Reachable (program cJSONParse) c → (c.thread .server).pc = .server .epollWait →
      (Ticking c ↔ 0 < (c.thread .server).loc.server.period) := by
  constructor
  · intro c h hp
    have hstarted := started_of_positive h
    rw [hp] at hstarted
    exact (ticking_iff h.of_restrict hp).mpr (hstarted rfl)
  · intro c h hp
    exact ticking_iff h hp

/-- The file `{"sw_version":"1","period":0}` -/
def zeroFile : List UInt8 := ascii ['\x7b', '"', 's', 'w', '_', 'v', 'e', 'r', 's', 'i', 'o', 'n', '"', ':',
  '"', '1', '"', ',', '"', 'p', 'e', 'r', 'i', 'o', 'd', '"', ':', '0', '\x7d']

def zeroParse (buf : CString) : Option CJson :=
  if buf = zeroFile then some (.object [(SW_VERSION, .string (ascii ['1'])), (PERIOD, .number 0 (Library.Binary64.nearest false 0 1))])
  else firstParse buf

def zeroStart : State := { start with shared := { start.shared with file := some zeroFile } }

theorem zeroStart_init : Init zeroStart :=
  ⟨rfl, rfl, rfl, ⟨rfl, rfl⟩, rfl, rfl, ⟨rfl, rfl, rfl⟩, ⟨_, rfl⟩, ⟨_, rfl⟩, ⟨_, rfl⟩⟩

def waiting : List (Label Agent Input) := startup ++ handled ++ [.run .server]

theorem ticking_positive_first : ∃ c : State, c.shared.timer.interval = 2 ∧ Ticking c := by
  have hrun : (execWhere (fun c a => decide (Positive c a)) (code firstParse) start
      waiting).isSome = true := by decide
  have hreach : Reachable ((program firstParse).restrict Positive) (Option.get _ hrun) :=
    reachable_of_execWhere (fun _ _ => of_decide_eq_true) (.start start_init) (Option.some_get hrun).symm
  exact ⟨_, rfl, ticking_positive.1 _ hreach rfl⟩

theorem not_ticking : ¬ ∀ (cJSONParse : CString → Option CJson) (c : State),
    Reachable (program cJSONParse) c → (c.thread .server).pc = .server .epollWait → Ticking c := by
  intro h
  have hrun : (execAll (code zeroParse) zeroStart waiting).isSome = true := by decide
  have hreach : Reachable (program zeroParse) (Option.get _ hrun) :=
    reachable_of_execAll zeroStart_init (Option.some_get hrun).symm
  have hzero : 0 < (0 : Int32) := (h zeroParse _ hreach rfl).armed
  exact absurd hzero (by decide)

end EmbeddedLinuxTraining.Telemetry
