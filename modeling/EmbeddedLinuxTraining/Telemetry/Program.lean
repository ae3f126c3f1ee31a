import EmbeddedLinuxTraining.Library.Pthread
import EmbeddedLinuxTraining.Telemetry.Config

/-!
The two threads of seance6/project/main.c with their environment: whoever changes the
directory of config.json, the clock and SIGINT.
-/

namespace EmbeddedLinuxTraining.Telemetry

open Library.Pthread Library.Transition

def MAX_CLIENTS : ℕ := 8

def MAX_EPOLL_EVENTS : ℕ := 16

def CONFIG_FILE : CString := ascii ['c', 'o', 'n', 'f', 'i', 'g', '.', 'j', 's', 'o', 'n']

inductive Mask
  | closeWrite | movedTo | delete | movedFrom
  deriving DecidableEq

structure Event where
  mask : Mask
  name : CString
  deriving DecidableEq

def Event.reloads (e : Event) : Bool :=
  e.name = CONFIG_FILE && (e.mask = .closeWrite || e.mask = .movedTo)

/-- The kernel drops an event that repeats the last one in the queue. -/
def enqueue (queue : List Event) (e : Event) : List Event :=
  if queue.getLast? = some e then queue else queue ++ [e]

structure Timer where
  interval : Int32
  expirations : ℕ

/-- `timerfd_settime` with `period` for the first and all other expirations; it refuses a
negative one, and 0 stops the timer. -/
def Timer.settime (timer : Timer) (period : Int32) : Timer :=
  if period < 0 then timer else ⟨period, 0⟩

def eventfdWrite (counter : ℕ) : ℕ := if counter < 2 ^ 64 - 2 then counter + 1 else counter

structure SharedConfig where
  swVersion : CString
  periodSec : Int32
  valid : Bool

def SharedConfig.pair (cfg : SharedConfig) : Settings := ⟨cfg.swVersion, cfg.periodSec⟩

def defaults : Settings := ⟨ascii ['u', 'n', 'k', 'n', 'o', 'w', 'n'], 5⟩

structure Sample where
  id : UInt64
  ts : ℤ
  swVersion : CString
  period : Int32

/-- `writers` counts the descriptors that have config.json open for writing; `sent` records the
samples with the client they went to. The last two fields are history: the files that were
loaded, and whether the monitor has changed `gCfg` and not yet written to `gCfgNotify`. -/
structure Shared where
  file : Option (List UInt8)
  writers : ℕ
  watching : Bool
  queue : List Event
  gCfg : SharedConfig
  gCfgNotify : ℕ
  timer : Timer
  gStop : Bool
  sampleId : UInt64
  sent : List (ℕ × Sample)
  applied : List (List UInt8)
  owed : Bool

inductive Poll
  | ready | timeout | interrupted | failed
  deriving DecidableEq

/-- `snapshot` is history: the file of the last parse. -/
structure Monitor where
  version : CString
  period : Int32
  ok : Bool
  changed : Bool
  poll : Poll
  events : List Event
  snapshot : List UInt8

inductive Ready
  | listen | fifo | timer | notify
  | client (fd : ℕ) (hup : Bool)
  deriving DecidableEq

structure Server where
  swVersion : CString
  period : Int32
  ok : Bool
  poll : Poll
  events : List Ready
  expired : Bool
  clients : List (Option ℕ)

structure Locals where
  monitor : Monitor
  server : Server

inductive Phase
  | initial | reload
  deriving DecidableEq

inductive MonitorPoint
  | setup | setupTest
  | parse (ph : Phase) | parseTest (ph : Phase)
  | lock (ph : Phase) | changed
  | version (ph : Phase) | period (ph : Phase) | valid (ph : Phase)
  | unlock (ph : Phase) | changedTest | notify (ph : Phase)
  | loop | epollWait | ready | failed | read | event | classify | next | close | done
  deriving DecidableEq

inductive Copy
  | startup | notify
  deriving DecidableEq

inductive ServerPoint
  | setup | setupTest
  | lock (k : Copy) | period (k : Copy) | version (k : Copy) | unlock (k : Copy) | settime (k : Copy)
  | register | loop | epollWait | ready | failed | event
  | timerTest | timerRead | expired | timerLock | timerVersion | timerUnlock | broadcast
  | notifyTest | notifyRead | other | next | close | done
  deriving DecidableEq

inductive Point
  | monitor (p : MonitorPoint)
  | server (p : ServerPoint)
  | environment
  deriving DecidableEq

inductive FileAction
  | open (truncate : Bool)
  | write (content : List UInt8)
  | close
  | renameOver (content : List UInt8) (writers : ℕ)
  | delete
  | moveAway

inductive Input
  | call (ok : Bool)
  | poll (p : Poll)
  | events (events : List Ready)
  | read (n : ℕ)
  | accepted (fds : List ℕ)
  | received (gone : Bool)
  | now (ts : ℤ)
  | file (a : FileAction)
  | other (e : Event)
  | tick
  | sigint
  | none

inductive Agent
  | monitor | server | environment
  deriving DecidableEq

instance : Fintype Agent where
  elems := {.monitor, .server, .environment}
  complete a := by cases a <;> decide

abbrev Code := Instr Agent Shared Locals Empty Input Point

section Monitor

variable (cJSONParse : CString → Option CJson)

def addWatch (x : Input) (s : Shared) (l : Locals) : Option (Shared × Locals) :=
  match x with
  | .call ok => some ({ s with watching := ok }, { l with monitor := { l.monitor with ok := ok } })
  | _ => none

def parse (s : Shared) (l : Locals) : Shared × Locals :=
  let (result, version, period) :=
    parseConfigFile cJSONParse s.file 64 l.monitor.version l.monitor.period
  (s, { l with monitor := { l.monitor with
    version := version
    period := period
    ok := result = 0
    snapshot := s.file.getD [] } })

def testChanged (s : Shared) (l : Locals) : Shared × Locals :=
  (s, { l with monitor := { l.monitor with
    changed := l.monitor.period ≠ s.gCfg.periodSec || l.monitor.version ≠ s.gCfg.swVersion } })

def Monitor.notifies (l : Monitor) : Phase → Bool
  | .initial => true
  | .reload => l.changed

def storeVersion (ph : Phase) (s : Shared) (l : Locals) : Shared × Locals :=
  ({ s with
    gCfg := { s.gCfg with swVersion := snprintf 64 l.monitor.version }
    owed := l.monitor.notifies ph }, l)

def storePeriod (s : Shared) (l : Locals) : Shared × Locals :=
  ({ s with gCfg := { s.gCfg with periodSec := l.monitor.period } }, l)

def storeValid (s : Shared) (l : Locals) : Shared × Locals :=
  ({ s with
    gCfg := { s.gCfg with valid := true }
    applied := s.applied ++ [l.monitor.snapshot] }, l)

def notify (s : Shared) (l : Locals) : Shared × Locals :=
  ({ s with gCfgNotify := eventfdWrite s.gCfgNotify, owed := false }, l)

def monitorPoll (x : Input) (s : Shared) (l : Locals) : Option (Shared × Locals) :=
  match x with
  | .poll p =>
    if p = .ready ∧ s.queue = [] then none
    else some (s, { l with monitor := { l.monitor with poll := p } })
  | _ => none

/-- `read` takes as many whole events as fit into `buf`, at least one. -/
def readEvents (x : Input) (s : Shared) (l : Locals) : Option (Shared × Locals) :=
  match x with
  | .read n =>
    some ({ s with queue := s.queue.drop (n + 1) },
      { l with monitor := { l.monitor with events := s.queue.take (n + 1) } })
  | _ => none

def nextEvent (s : Shared) (l : Locals) : Shared × Locals :=
  (s, { l with monitor := { l.monitor with events := l.monitor.events.tail } })

def monitorThreadFn : MonitorPoint → Code
  | .setup => .act addWatch (.monitor .setupTest)
  | .setupTest => .branch (fun _ l => l.monitor.ok) (.monitor (.parse .initial)) (.monitor .done)
  | .parse ph => .run (parse cJSONParse) (.monitor (.parseTest ph))
  | .parseTest .initial =>
    .branch (fun _ l => l.monitor.ok) (.monitor (.lock .initial)) (.monitor .loop)
  | .parseTest .reload =>
    .branch (fun _ l => l.monitor.ok) (.monitor (.lock .reload)) (.monitor .next)
  | .lock .initial => .lock (.monitor (.version .initial))
  | .lock .reload => .lock (.monitor .changed)
  | .changed => .run testChanged (.monitor (.version .reload))
  | .version ph => .run (storeVersion ph) (.monitor (.period ph))
  | .period ph => .run storePeriod (.monitor (.valid ph))
  | .valid ph => .run storeValid (.monitor (.unlock ph))
  | .unlock .initial => .unlock (.monitor (.notify .initial))
  | .unlock .reload => .unlock (.monitor .changedTest)
  | .changedTest => .branch (fun _ l => l.monitor.changed) (.monitor (.notify .reload)) (.monitor .next)
  | .notify .initial => .run notify (.monitor .loop)
  | .notify .reload => .run notify (.monitor .next)
  | .loop => .branch (fun s _ => s.gStop) (.monitor .close) (.monitor .epollWait)
  | .epollWait => .act monitorPoll (.monitor .ready)
  | .ready => .branch (fun _ l => l.monitor.poll = .ready) (.monitor .read) (.monitor .failed)
  | .failed => .branch (fun _ l => l.monitor.poll = .failed) (.monitor .close) (.monitor .loop)
  | .read => .act readEvents (.monitor .event)
  | .event => .branch (fun _ l => l.monitor.events.isEmpty) (.monitor .loop) (.monitor .classify)
  | .classify => .branch (fun _ l => l.monitor.events.head?.any Event.reloads)
      (.monitor (.parse .reload)) (.monitor .next)
  | .next => .run nextEvent (.monitor .event)
  | .close => .run (fun s l => ({ s with watching := false }, l)) (.monitor .done)
  | .done => .ret

end Monitor

section Server

def openServer (x : Input) (s : Shared) (l : Locals) : Option (Shared × Locals) :=
  match x with
  | .call ok => some (s, { l with server := { l.server with ok := ok } })
  | _ => none

def copyPeriod (s : Shared) (l : Locals) : Shared × Locals :=
  (s, { l with server := { l.server with period := s.gCfg.periodSec } })

def copyVersion (s : Shared) (l : Locals) : Shared × Locals :=
  (s, { l with server := { l.server with swVersion := snprintf 64 s.gCfg.swVersion } })

def setTimer (s : Shared) (l : Locals) : Shared × Locals :=
  ({ s with timer := s.timer.settime l.server.period }, l)

def register (s : Shared) (l : Locals) : Shared × Locals :=
  (s, { l with server := { l.server with clients := List.replicate MAX_CLIENTS none } })

def Ready.holds (s : Shared) : Ready → Bool
  | .timer => 0 < s.timer.expirations
  | .notify => 0 < s.gCfgNotify
  | _ => true

/-- `epoll_wait` returns ready descriptors in any order, each of them once. -/
def serverPoll (x : Input) (s : Shared) (l : Locals) : Option (Shared × Locals) :=
  match x with
  | .poll p =>
    if p = .ready then none else some (s, { l with server := { l.server with poll := p } })
  | .events events =>
    if events ≠ [] ∧ events.length ≤ MAX_EPOLL_EVENTS ∧ events.Nodup ∧ events.all (Ready.holds s) then
      some (s, { l with server := { l.server with poll := .ready, events := events } })
    else none
  | _ => none

def readTimer (s : Shared) (l : Locals) : Shared × Locals :=
  ({ s with timer := { s.timer with expirations := 0 } },
    { l with server := { l.server with expired := 0 < s.timer.expirations } })

def readNotify (s : Shared) (l : Locals) : Shared × Locals := ({ s with gCfgNotify := 0 }, l)

def broadcastTelemetry (x : Input) (s : Shared) (l : Locals) : Option (Shared × Locals) :=
  match x with
  | .now ts =>
    let sample : Sample := ⟨s.sampleId, ts, l.server.swVersion, l.server.period⟩
    some ({ s with
      sampleId := s.sampleId + 1
      sent := s.sent ++ (l.server.clients.reduceOption.map fun fd => (fd, sample)) }, l)
  | _ => none

def addClient (clients : List (Option ℕ)) (fd : ℕ) : List (Option ℕ) :=
  match clients with
  | [] => []
  | none :: rest => some fd :: rest
  | some used :: rest => some used :: addClient rest fd

def removeClient (clients : List (Option ℕ)) (fd : ℕ) : List (Option ℕ) :=
  match clients with
  | [] => []
  | client :: rest => if client = some fd then none :: rest else client :: removeClient rest fd

def serveOther (x : Input) (s : Shared) (l : Locals) : Option (Shared × Locals) :=
  let update clients := some (s, { l with server := { l.server with clients := clients } })
  match l.server.events.head?, x with
  | some .listen, .accepted fds => update (fds.foldl addClient l.server.clients)
  | some .fifo, _ => some (s, l)
  | some (.client fd hup), .received gone =>
    update (if hup || gone then removeClient l.server.clients fd else l.server.clients)
  | _, _ => none

def nextReady (s : Shared) (l : Locals) : Shared × Locals :=
  (s, { l with server := { l.server with events := l.server.events.tail } })

def serverThreadFn : ServerPoint → Code
  | .setup => .act openServer (.server .setupTest)
  | .setupTest => .branch (fun _ l => l.server.ok) (.server (.lock .startup)) (.server .done)
  | .lock k => .lock (.server (.period k))
  | .period k => .run copyPeriod (.server (.version k))
  | .version k => .run copyVersion (.server (.unlock k))
  | .unlock k => .unlock (.server (.settime k))
  | .settime .startup => .run setTimer (.server .register)
  | .settime .notify => .run setTimer (.server .next)
  | .register => .run register (.server .loop)
  | .loop => .branch (fun s _ => s.gStop) (.server .close) (.server .epollWait)
  | .epollWait => .act serverPoll (.server .ready)
  | .ready => .branch (fun _ l => l.server.poll = .ready) (.server .event) (.server .failed)
  | .failed => .branch (fun _ l => l.server.poll = .failed) (.server .close) (.server .loop)
  | .event => .branch (fun _ l => l.server.events.isEmpty) (.server .loop) (.server .timerTest)
  | .timerTest => .branch (fun _ l => l.server.events.head? = some .timer)
      (.server .timerRead) (.server .notifyTest)
  | .timerRead => .run readTimer (.server .expired)
  | .expired => .branch (fun _ l => l.server.expired) (.server .timerLock) (.server .next)
  | .timerLock => .lock (.server .timerVersion)
  | .timerVersion => .run copyVersion (.server .timerUnlock)
  | .timerUnlock => .unlock (.server .broadcast)
  | .broadcast => .act broadcastTelemetry (.server .next)
  | .notifyTest => .branch (fun _ l => l.server.events.head? = some .notify)
      (.server .notifyRead) (.server .other)
  | .notifyRead => .run readNotify (.server (.lock .notify))
  | .other => .act serveOther (.server .next)
  | .next => .run nextReady (.server .event)
  | .close => .run (fun s l => (s, { l with server := { l.server with clients := [] } })) (.server .done)
  | .done => .ret

end Server

section Environment

def Shared.notice (s : Shared) (e : Event) : Shared :=
  if s.watching then { s with queue := enqueue s.queue e } else s

/-- A writer whose file has been replaced or removed no longer counts. -/
def FileAction.apply (s : Shared) : FileAction → Option Shared
  | .open truncate =>
    some { s with
      file := some (if truncate then [] else s.file.getD [])
      writers := s.writers + 1 }
  | .write content => if s.writers = 0 then none else some { s with file := some content }
  | .close =>
    if s.writers = 0 then none
    else some ({ s with writers := s.writers - 1 }.notice ⟨.closeWrite, CONFIG_FILE⟩)
  | .renameOver content writers =>
    some ({ s with file := some content, writers := writers }.notice ⟨.movedTo, CONFIG_FILE⟩)
  | .delete => some ({ s with file := none, writers := 0 }.notice ⟨.delete, CONFIG_FILE⟩)
  | .moveAway => some ({ s with file := none, writers := 0 }.notice ⟨.movedFrom, CONFIG_FILE⟩)

/-- An `other` event is one of another file of the directory or of a writer that no longer counts. -/
def environment (x : Input) (s : Shared) (l : Locals) : Option (Shared × Locals) :=
  match x with
  | .file a => (a.apply s).map fun s' => (s', l)
  | .other e => some (s.notice e, l)
  | .tick =>
    if 0 < s.timer.interval then
      some ({ s with timer := { s.timer with expirations := s.timer.expirations + 1 } }, l)
    else none
  | .sigint => some ({ s with gStop := true }, l)
  | _ => none

end Environment

variable (cJSONParse : CString → Option CJson)

def code : Point → Code
  | .monitor p => monitorThreadFn cJSONParse p
  | .server p => serverThreadFn p
  | .environment => .act environment .environment

abbrev State := Config Agent Shared Locals Empty Point

structure Init (c : State) : Prop where
  owner : c.owner = none
  gCfg : c.shared.gCfg = ⟨defaults.swVersion, defaults.periodSec, false⟩
  gCfgNotify : c.shared.gCfgNotify = 0
  unwatched : c.shared.watching = false ∧ c.shared.queue = []
  timer : c.shared.timer = ⟨0, 0⟩
  gStop : c.shared.gStop = false
  nothing : c.shared.sent = [] ∧ c.shared.applied = [] ∧ c.shared.owed = false
  monitor : ∃ l, c.At .monitor (.monitor .setup) l
  server : ∃ l, c.At .server (.server .setup) l
  environment : ∃ l, c.At .environment .environment l

def program : System State (Label Agent Input) := system (code cJSONParse) Init

end EmbeddedLinuxTraining.Telemetry
