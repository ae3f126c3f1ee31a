import Mathlib.Data.List.TakeWhile
import EmbeddedLinuxTraining.Library.Transition

/-!
client_epoll.c and `handle_client_data` of server_epoll.c on the two ends of a TCP connection.
-/

namespace EmbeddedLinuxTraining.Echo

open Library.Transition

inductive Write
  | accepted (n : ℕ)
  | interrupted
  | failed
  deriving DecidableEq

inductive Client
  | typing
  | sending (line : List UInt8) (off : ℕ)
  | reading (line : List UInt8)
  | closed
  deriving DecidableEq

inductive Server
  | waiting
  | echoing (buf : List UInt8) (off : ℕ)
  | closed
  deriving DecidableEq

/-- `up` and `down` are the bytes in flight. The last two fields are the lines that the client has
sent and the texts that it has printed after `[server echoed]`. -/
structure State where
  client : Client
  server : Server
  up : List UInt8
  down : List UInt8
  sent : List (List UInt8)
  printed : List (List UInt8)
  deriving DecidableEq

inductive Action
  | fgets (line : Option (List UInt8))
  | clientWrite (w : Write)
  | clientRead (n : ℕ)
  | serverRead (n : ℕ)
  | serverWrite (w : Write)

def BUF_SIZE : ℕ := 512

/-- What `fgets` leaves in `line`, when no NUL is typed. -/
structure Typed (line : List UInt8) : Prop where
  nonempty : 0 < line.length
  fits : line.length ≤ BUF_SIZE - 1
  nul : 0 ∉ line

instance (line : List UInt8) : Decidable (Typed line) :=
  decidable_of_iff (0 < line.length ∧ line.length ≤ BUF_SIZE - 1 ∧ 0 ∉ line)
    ⟨fun h => ⟨h.1, h.2.1, h.2.2⟩, fun h => ⟨h.1, h.2, h.3⟩⟩

def printf (reply : List UInt8) : List UInt8 := reply.takeWhile (· ≠ 0)

def taken (buf : List UInt8) (off n : ℕ) : List UInt8 := (buf.drop off).take n

namespace State

def fgets (s : State) (input : Option (List UInt8)) : Option State :=
  match s.client, input with
  | .typing, some line =>
    if Typed line then some { s with client := .sending line 0, sent := s.sent ++ [line] } else none
  | .typing, none => some { s with client := .closed }
  | _, _ => none

def clientWrite (s : State) (w : Write) : Option State :=
  match s.client, w with
  | .sending line off, .accepted n =>
    if 0 < n ∧ n ≤ line.length - off then
      some { s with
        client := if off + n < line.length then .sending line (off + n) else .reading line
        up := s.up ++ taken line off n }
    else none
  | .sending _ _, .interrupted => some s
  | .sending _ _, .failed => some { s with client := .closed }
  | _, _ => none

def clientRead (s : State) (n : ℕ) : Option State :=
  match s.client with
  | .reading _ =>
    if n = 0 then
      if s.down = [] ∧ s.server = .closed then some { s with client := .closed } else none
    else if n ≤ BUF_SIZE - 1 ∧ n ≤ s.down.length then
      some { s with client := .typing, down := s.down.drop n, printed := s.printed ++ [printf (s.down.take n)] }
    else none
  | _ => none

def serverRead (s : State) (n : ℕ) : Option State :=
  match s.server with
  | .waiting =>
    if n = 0 then
      if s.up = [] ∧ s.client = .closed then some { s with server := .closed } else none
    else if n ≤ BUF_SIZE ∧ n ≤ s.up.length then
      some { s with server := .echoing (s.up.take n) 0, up := s.up.drop n }
    else none
  | _ => none

def serverWrite (s : State) (w : Write) : Option State :=
  match s.server, w with
  | .echoing buf off, .accepted n =>
    if 0 < n ∧ n ≤ buf.length - off then
      some { s with
        server := if off + n < buf.length then .echoing buf (off + n) else .waiting
        down := s.down ++ taken buf off n }
    else none
  | .echoing _ _, .interrupted => some s
  | .echoing _ _, .failed => some { s with server := .closed }
  | _, _ => none

def next (s : State) : Action → Option State
  | .fgets line => s.fgets line
  | .clientWrite w => s.clientWrite w
  | .clientRead n => s.clientRead n
  | .serverRead n => s.serverRead n
  | .serverWrite w => s.serverWrite w

def connected : State := ⟨.typing, .waiting, [], [], [], []⟩

end State

def session : System State Action where
  init s := s = State.connected
  step s a t := s.next a = some t

end EmbeddedLinuxTraining.Echo
