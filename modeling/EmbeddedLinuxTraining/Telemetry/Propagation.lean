import EmbeddedLinuxTraining.Library.Exec
import EmbeddedLinuxTraining.Telemetry.Outline

namespace EmbeddedLinuxTraining.Telemetry

open Library.Pthread Library.Transition

variable {cJSONParse : CString → Option CJson} {c : State}

theorem outline_initial (h : Init c) : (outline cJSONParse).Sat (code cJSONParse) c := by
  obtain ⟨hunwatched, -⟩ := h.unwatched
  obtain ⟨-, happlied, howed⟩ := h.nothing
  obtain ⟨lm, hm⟩ := h.monitor
  obtain ⟨ls, hs⟩ := h.server
  obtain ⟨le, he⟩ := h.environment
  refine .of_initial h.owner ?_ (fun i => ?_) (fun i => ?_)
  · change Current cJSONParse c.shared
    rw [Current, happlied, h.gCfg]
    rfl
  · cases i with
    | monitor => rw [hm.thread]; exact .inr ⟨rfl, rfl⟩
    | server => rw [hs.thread]; exact .inr ⟨rfl, rfl⟩
    | environment => rw [he.thread]; exact .inr ⟨rfl, rfl⟩
  · cases i with
    | monitor => rw [hm.thread]; exact ⟨rfl, .inl rfl, trivial, howed⟩
    | server => rw [hs.thread]; exact ⟨rfl, .inl rfl, trivial⟩
    | environment => rw [he.thread]; exact ⟨rfl, .inl rfl, trivial⟩

theorem program_sat (h : Reachable (program cJSONParse) c) :
    (outline cJSONParse).Sat (code cJSONParse) c :=
  outline_valid.sound (fun _ => outline_initial) h

theorem agent_of_at {i : Agent} {p : Point} {l : Locals} (h : Reachable (program cJSONParse) c)
    (hi : c.At i p l) : p.agent = i := ((program_sat h).at hi).agent

theorem server_point (h : Reachable (program cJSONParse) c) : ∃ p, (c.thread .server).pc = .server p := by
  have hagent : (c.thread .server).pc.agent = .server := ((program_sat h).each .server).agent
  generalize (c.thread .server).pc = p at hagent ⊢
  cases p with
  | server p => exact ⟨p, rfl⟩
  | monitor | environment => cases hagent

theorem server_cases {a : Label Agent Input} {d : State} (h : Reachable (program cJSONParse) c)
    (hstep : Step (code cJSONParse) c a d) (ha : a.actor = .server) :
    (∃ p q l l' x, c.At .server (.server p) l ∧ d.At .server (.server q) l' ∧
      ServerAct x c.shared l p q d.shared l') ∨
    (d.shared = c.shared ∧ (d.thread .server).loc = (c.thread .server).loc ∧
      ∃ p q, (c.thread .server).pc = .server p ∧ (d.thread .server).pc = .server q ∧
        (q = p ∨ (code cJSONParse (.server p)).Next (.server q))) := by
  obtain ⟨p, hp⟩ := server_point h
  obtain ⟨q, hq⟩ := server_point (h.next hstep)
  obtain ⟨p', l, f, q', x, l', hat, hc, hf, hd⟩ | ⟨hs, hloc, hpc⟩ := hstep.actor_cases
  · rw [ha] at hat hd
    rw [hat.thread] at hp
    obtain rfl : p' = .server p := hp
    obtain ⟨q', rfl, hact⟩ := serverAct_of_act hc hf
    exact .inl ⟨p, q', l, l', x, hat, hd, hact⟩
  · rw [ha] at hloc hpc
    refine .inr ⟨hs, hloc, p, q, hp, hq, ?_⟩
    rw [hp, hq] at hpc
    obtain hpc | ⟨p', l, hat, hnext, -⟩ := hpc
    · exact .inl (Point.server.inj hpc)
    · rw [hat.thread] at hp
      obtain rfl : p' = .server p := hp
      exact .inr hnext

theorem others_tell {a : Label Agent Input} {d : State} (h : Reachable (program cJSONParse) c)
    (hstep : Step (code cJSONParse) c a d) (ha : a.actor ≠ .server) :
    d.shared.sent = c.shared.sent ∧ c.shared.applied ⊆ d.shared.applied := by
  obtain ⟨p, l, f, q, x, l', hat, hc, hf, hd⟩ | ⟨hs, -⟩ := hstep.actor_cases
  · have hagent := agent_of_at h hat
    have hstand : Stand cJSONParse c.shared l p := ((program_sat h).at hat).stand
    cases p with
    | server p => exact absurd hagent.symm ha
    | monitor p =>
      obtain ⟨-, -, -, htells, -⟩ := monitor_act hc hf hstand
      exact ⟨htells.sent, htells.applied⟩
    | environment =>
      cases hc
      have hact : Keeps cJSONParse c.shared d.shared ∧ Tells c.shared d.shared := environment_keeps hf
      exact ⟨hact.2.sent, hact.2.applied⟩
  · rw [hs]
    exact ⟨rfl, List.Subset.refl _⟩

theorem server_keeps {G : Shared → Locals → Point → Prop} {a : Label Agent Input} {d : State}
    (h : Reachable (program cJSONParse) c) (hstep : Step (code cJSONParse) c a d)
    (hc : G c.shared (c.thread .server).loc (c.thread .server).pc)
    (hact : ∀ p q l l' x, a.actor = .server → c.At .server (.server p) l →
      ServerAct x c.shared l p q d.shared l' → G c.shared l (.server p) → G d.shared l' (.server q))
    (hnext : ∀ p q s l, (code cJSONParse (.server p)).Next (.server q) → G s l (.server p) →
      G s l (.server q))
    (hothers : ∀ l p, d.shared.sent = c.shared.sent → c.shared.applied ⊆ d.shared.applied →
      G c.shared l p → G d.shared l p) :
    G d.shared (d.thread .server).loc (d.thread .server).pc := by
  by_cases ha : a.actor = .server
  · obtain ⟨p, q, l, l', x, hat, hd, hserver⟩ | ⟨hs, hloc, p, q, hpc, hpc', hq⟩ := server_cases h hstep ha
    · rw [hat.thread] at hc
      rw [hd.thread]
      exact hact p q l l' x ha hat hserver hc
    · rw [hpc] at hc
      rw [hs, hloc, hpc']
      obtain rfl | hq := hq
      · exact hc
      · exact hnext p q _ _ hq hc
  · obtain ⟨hpc, hloc⟩ := hstep.frame (Ne.symm ha)
    obtain ⟨hsent, happlied⟩ := others_tell h hstep ha
    rw [hpc, hloc]
    exact hothers _ _ hsent happlied hc

theorem monitor_stand (h : Reachable (program cJSONParse) c) {p : MonitorPoint}
    (hp : (c.thread .monitor).pc = .monitor p) :
    MonitorStand cJSONParse c.shared (c.thread .monitor).loc.monitor p ∧
      c.shared.owed = (c.thread .monitor).loc.monitor.owes p := by
  have hs := ((program_sat h).each .monitor).stand
  rwa [hp] at hs

theorem server_stand (h : Reachable (program cJSONParse) c) {p : ServerPoint}
    (hp : (c.thread .server).pc = .server p) :
    ServerStand cJSONParse c.shared (c.thread .server).loc.server p := by
  have hs := ((program_sat h).each .server).stand
  rwa [hp] at hs

def MonitorPoint.idle : MonitorPoint → Bool
  | .loop | .epollWait | .ready | .failed => true
  | _ => false

def ServerPoint.idle : ServerPoint → Bool
  | .loop | .epollWait | .ready | .failed => true
  | _ => false

/-- Both threads are back at `epoll_wait`, nobody has the file open for writing, and no event and
no notification is pending. -/
structure Quiescent (c : State) : Prop where
  monitor : ∃ p, (c.thread .monitor).pc = .monitor p ∧ p.idle = true
  server : ∃ p, (c.thread .server).pc = .server p ∧ p.idle = true
  queue : c.shared.queue = []
  writers : c.shared.writers = 0
  gCfgNotify : c.shared.gCfgNotify = 0

theorem Quiescent.ahead (hq : Quiescent c) (h : Reachable (program cJSONParse) c) :
    Ahead cJSONParse c.shared.gCfg.pair [] c.shared ∧ c.shared.owed = false := by
  obtain ⟨p, hp, hidle⟩ := hq.monitor
  have hs := monitor_stand h hp
  cases p <;> first | exact hs | cases hidle

theorem Quiescent.told (hq : Quiescent c) (h : Reachable (program cJSONParse) c) :
    Told (c.thread .server).loc.server.pair c.shared ∧
      Timed (c.thread .server).loc.server.period c.shared := by
  obtain ⟨p, hp, hidle⟩ := hq.server
  have hs := server_stand h hp
  cases p <;> first | exact hs | cases hidle

/-- What is loaded is what was parsed, and when everything is quiet the last state of the file has
reached `gCfg` and the server with its timer. -/
theorem propagated (h : Reachable (program cJSONParse) c) :
    (c.owner = none → Current cJSONParse c.shared) ∧
    (Quiescent c →
      (∀ content settings, c.shared.file = some content →
        settingsOf cJSONParse content = some settings → c.shared.gCfg.pair = settings) ∧
      (c.thread .server).loc.server.pair = c.shared.gCfg.pair ∧
      Timed (c.thread .server).loc.server.period c.shared) := by
  refine ⟨(program_sat h).free, fun hq => ⟨fun content settings hfile hs => ?_, ?_, (hq.told h).2⟩⟩
  · rcases (hq.ahead h).1.2 hq.writers content settings hfile hs with hcfg | ⟨e, he, -⟩
    · exact hcfg
    · rw [hq.queue] at he
      cases he
  · rcases (hq.told h).1 with hpair | howed | hnotify
    · exact hpair
    · exact nomatch (hq.ahead h).2.symm.trans howed
    · rw [hq.gCfgNotify] at hnotify
      cases hnotify

/-- The file `{"sw_version":"1","period":2}` and a parser that knows it. -/
def firstFile : List UInt8 := ascii ['\x7b', '"', 's', 'w', '_', 'v', 'e', 'r', 's', 'i', 'o', 'n', '"', ':',
  '"', '1', '"', ',', '"', 'p', 'e', 'r', 'i', 'o', 'd', '"', ':', '2', '\x7d']

def firstParse (buf : CString) : Option CJson :=
  if buf = firstFile then some (.object [(SW_VERSION, .string (ascii ['1'])), (PERIOD, .number 2 (Library.Binary64.nearest false 2 1))])
  else none

def fresh : Locals where
  monitor := ⟨[], 0, false, false, .timeout, [], []⟩
  server := ⟨[], 0, false, .timeout, [], false, []⟩

def start : State where
  shared := ⟨some firstFile, 0, false, [], ⟨defaults.swVersion, defaults.periodSec, false⟩, 0, ⟨0, 0⟩,
    false, 0, [], [], false⟩
  owner := none
  thread
    | .monitor => ⟨.monitor .setup, fresh, .running⟩
    | .server => ⟨.server .setup, fresh, .running⟩
    | .environment => ⟨.environment, fresh, .running⟩

theorem start_init : Init start :=
  ⟨rfl, rfl, rfl, ⟨rfl, rfl⟩, rfl, rfl, ⟨rfl, rfl, rfl⟩, ⟨_, rfl⟩, ⟨_, rfl⟩, ⟨_, rfl⟩⟩

def startup : List (Label Agent Input) :=
  [.input .server (.call true), .run .server, .run .server, .input .server .none, .input .server .none,
    .run .server, .input .server .none, .input .server .none, .run .server,
    .input .monitor (.call true), .run .monitor, .input .monitor .none, .run .monitor, .run .monitor,
    .input .monitor .none, .input .monitor .none, .input .monitor .none, .run .monitor,
    .input .monitor .none, .run .monitor]

def handled : List (Label Agent Input) :=
  [.input .server (.events [.notify]), .run .server, .run .server, .run .server, .run .server,
    .input .server .none, .run .server, .input .server .none, .input .server .none, .run .server,
    .input .server .none, .input .server .none, .run .server]

theorem propagated_first : ∃ c : State, c.shared.applied = [firstFile] ∧
    (Current firstParse c.shared ∧ (c.thread .server).loc.server.pair = c.shared.gCfg.pair) := by
  have hrun : (execAll (code firstParse) start (startup ++ handled)).isSome = true := by decide
  have hreach : Reachable (program firstParse) (Option.get _ hrun) :=
    reachable_of_execAll start_init (Option.some_get hrun).symm
  have hquiet : Quiescent (Option.get _ hrun) := ⟨⟨.epollWait, rfl, rfl⟩, ⟨.loop, rfl, rfl⟩, rfl, rfl, rfl⟩
  exact ⟨_, rfl, (propagated hreach).1 rfl, ((propagated hreach).2 hquiet).2.1⟩

end EmbeddedLinuxTraining.Telemetry
