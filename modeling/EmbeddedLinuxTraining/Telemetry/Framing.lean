import EmbeddedLinuxTraining.Library.Lines
import EmbeddedLinuxTraining.Telemetry.Connections

namespace EmbeddedLinuxTraining.Telemetry.Connections

open Library Library.Transition

structure Framed (sent : List (List UInt8)) (bytes : List UInt8) (ms : List (List UInt8)) (p : List UInt8) :
    Prop where
  bytes : bytes = ms.flatten ++ p
  whole : ∀ m ∈ ms, m ∈ sent
  last : p = [] ∨ ∃ m ∈ sent, p <+: m

def recv : List (List UInt8) × List UInt8 → List UInt8 → List (List UInt8) × List UInt8 :=
  Lines.receive NEWLINE

def Outcome.Fails (outcome : Outcome) : Prop := outcome = .again ∨ outcome = .error

/-- Every write to a connection that has had a short write fails. -/
def Untorn (s : State) : Action → Prop
  | .handle (.expired _ outcomes) =>
    ∀ call ∈ s.clients.reduceOption.zip outcomes, ∀ c, s.conn call.1 = some c → s.torn c = true → call.2.Fails
  | _ => True

structure Framing (s : State) : Prop where
  messages : ∀ m ∈ s.sent, ∃ sample, m = telemetryMessage sample
  framed : ∀ c, ∃ ms p, Framed s.sent (s.stream c) ms p ∧ (p = [] ∨ s.torn c = true)

variable {service : Fd → Option Service} {s t : State} {sent ms : List (List UInt8)} {bytes p : List UInt8}

theorem Framed.mono {sent' : List (List UInt8)} (h : Framed sent bytes ms p) (hsent : sent ⊆ sent') :
    Framed sent' bytes ms p := by
  constructor
  · exact h.bytes
  · intro m hm
    exact hsent (h.whole m hm)
  · obtain hp | ⟨m, hm, hp⟩ := h.last
    · exact .inl hp
    · exact .inr ⟨m, hsent hm, hp⟩

theorem Framed.prefix (h : Framed sent bytes ms p) {received : List UInt8} (hr : received <+: bytes) :
    ∃ ms' p', Framed sent received ms' p' := by
  obtain ⟨rfl, hwhole, hlast⟩ := h
  induction ms generalizing received with
  | nil =>
    refine ⟨[], received, rfl, hwhole, ?_⟩
    obtain rfl | ⟨m, hm, hp⟩ := hlast
    · exact .inl (List.prefix_nil.mp hr)
    · exact .inr ⟨m, hm, hr.trans hp⟩
  | cons m ms ih =>
    rw [List.flatten_cons, List.append_assoc] at hr
    have hm : m ∈ sent := hwhole m List.mem_cons_self
    obtain hshort | ⟨rest, rfl⟩ := List.prefix_or_prefix_of_prefix hr (List.prefix_append m _)
    · refine ⟨[], received, rfl, ?_, .inr ⟨m, hm, hshort⟩⟩
      intro m hmem
      cases hmem
    · have hrest : rest <+: ms.flatten ++ p := (List.prefix_append_right_inj m).mp hr
      have hms : ∀ m ∈ ms, m ∈ sent := by
        intro m' hm'
        exact hwhole m' (List.mem_cons_of_mem m hm')
      obtain ⟨ms', p', rfl, hwhole', hlast'⟩ := ih hms hrest
      refine ⟨m :: ms', p', ?_, ?_, hlast'⟩
      · rw [List.flatten_cons, List.append_assoc]
      · intro m' hm'
        obtain rfl | hm' := List.mem_cons.mp hm'
        · exact hm
        · exact hwhole' m' hm'

theorem Framed.lines (h : Framed sent bytes ms p)
    (hsent : ∀ m ∈ sent, ∃ sample, m = telemetryMessage sample) :
    (Lines.split NEWLINE bytes).1 =
      ms.flatMap (fun m => (Lines.split NEWLINE m).1) ++ (Lines.split NEWLINE p).1 := by
  rw [h.bytes, Lines.split_flatten]
  intro m hm
  obtain ⟨sample, rfl⟩ := hsent m (h.whole m hm)
  obtain ⟨text, htext⟩ := telemetryMessage_newline sample
  rw [htext]
  exact Lines.split_terminated NEWLINE text

theorem recv_pieces (pieces : List (List UInt8)) :
    (pieces.foldl recv ([], [])).1 = (Lines.split NEWLINE pieces.flatten).1 :=
  congrArg Prod.fst (Lines.foldl_receive NEWLINE pieces [])

theorem bytes_of_fails {outcome : Outcome} (h : outcome.Fails) (message : List UInt8) :
    Outcome.bytes message outcome = [] := by
  obtain rfl | rfl := h <;> rfl

theorem write_other (message : List UInt8) {s : State} {call : Fd × Outcome} {c : Connection}
    (hc : s.conn call.1 ≠ some c) :
    (s.write message call).stream c = s.stream c ∧ (s.write message call).torn c = s.torn c := by
  unfold State.write
  split
  · rename_i c' hc'
    have hne : c ≠ c' := by
      rintro rfl
      exact hc hc'
    exact ⟨Function.update_of_ne hne _ _, Function.update_of_ne hne _ _⟩
  · exact ⟨rfl, rfl⟩

theorem foldl_write_stream (message : List UInt8) (c : Connection) (calls : List (Fd × Outcome)) (s : State)
    (hnodup : (calls.map fun call => s.conn call.1).Nodup) :
    ((calls.foldl (State.write message) s).stream c = s.stream c ∧
      (calls.foldl (State.write message) s).torn c = s.torn c) ∨
    ∃ call ∈ calls, s.conn call.1 = some c ∧
      (calls.foldl (State.write message) s).stream c = s.stream c ++ Outcome.bytes message call.2 ∧
      (calls.foldl (State.write message) s).torn c = (s.torn c || Outcome.tears call.2) := by
  induction calls generalizing s with
  | nil => exact .inl ⟨rfl, rfl⟩
  | cons call calls ih =>
    have hconn : (s.write message call).conn = s.conn :=
      foldl_write State.conn (fun _ _ _ _ => rfl) message [call] s
    rw [List.map_cons, List.nodup_cons] at hnodup
    rw [← hconn] at hnodup
    have hrest := ih (s.write message call) hnodup.2
    rw [hconn] at hrest hnodup
    rw [List.foldl_cons]
    by_cases hc : s.conn call.1 = some c
    · have hstream : (s.write message call).stream c = s.stream c ++ Outcome.bytes message call.2 := by
        simp [State.write, hc]
      have htorn : (s.write message call).torn c = (s.torn c || Outcome.tears call.2) := by
        simp [State.write, hc]
      obtain ⟨hs, ht⟩ | ⟨other, hmem, hother, -, -⟩ := hrest
      · exact .inr ⟨call, List.mem_cons_self, hc, hs.trans hstream, ht.trans htorn⟩
      · apply absurd _ hnodup.1
        rw [hc, ← hother]
        exact List.mem_map_of_mem hmem
    · obtain ⟨hstream, htorn⟩ := write_other message hc
      rw [hstream, htorn] at hrest
      obtain hsame | ⟨other, hmem, hother⟩ := hrest
      · exact .inl hsame
      · exact .inr ⟨other, List.mem_cons_of_mem call hmem, hother⟩

theorem Framed.write {message : List UInt8} (h : Framed sent bytes ms []) (hm : message ∈ sent)
    (outcome : Outcome) :
    ∃ ms p, Framed sent (bytes ++ Outcome.bytes message outcome) ms p ∧
      (p = [] ∨ Outcome.tears outcome = true) := by
  obtain ⟨rfl, hwhole, -⟩ := h
  cases outcome with
  | whole =>
    refine ⟨ms ++ [message], [], ⟨?_, ?_, .inl rfl⟩, .inl rfl⟩
    · simp [Outcome.bytes]
    · intro m hmem
      obtain hmem | hmem := List.mem_append.mp hmem
      · exact hwhole m hmem
      · rwa [List.mem_singleton.mp hmem]
  | short n =>
    refine ⟨ms, message.take n, ⟨?_, hwhole, .inr ⟨message, hm, List.take_prefix n message⟩⟩, .inr rfl⟩
    rw [List.append_nil]
    rfl
  | again => exact ⟨ms, [], ⟨List.append_nil _, hwhole, .inl rfl⟩, .inl rfl⟩
  | error => exact ⟨ms, [], ⟨List.append_nil _, hwhole, .inl rfl⟩, .inl rfl⟩

theorem Framing.broadcast (h : Framing s) (hlive : Live service s) {sample : Sample} {outcomes : List Outcome}
    (hok : ∀ call ∈ s.clients.reduceOption.zip outcomes, ∀ c, s.conn call.1 = some c → s.torn c = true →
      call.2.Fails)
    (hb : s.broadcast (telemetryMessage sample) outcomes = some t) : Framing t := by
  unfold State.broadcast at hb
  obtain ⟨⟨hlength, -⟩, hb⟩ := Option.ite_none_right_eq_some.mp hb
  have hsent : t.sent = s.sent ++ [telemetryMessage sample] := by
    cases hb
    rw [foldl_write State.sent fun _ _ _ _ => rfl]
  have hkeep : s.sent ⊆ t.sent := by
    rw [hsent]
    exact List.subset_append_left _ _
  have hmem : telemetryMessage sample ∈ t.sent := by
    rw [hsent]
    exact List.mem_append_right _ List.mem_cons_self
  constructor
  · rw [hsent]
    intro m hm
    obtain hm | hm := List.mem_append.mp hm
    · exact h.messages m hm
    · exact ⟨sample, List.mem_singleton.mp hm⟩
  · intro c
    have hnodup := hlive.conn_nodup
    rw [← map_conn_zip s hlength] at hnodup
    obtain ⟨ms, p, hframed, hp⟩ := h.framed c
    have hframed' : Framed t.sent (s.stream c) ms p := hframed.mono hkeep
    obtain ⟨hs, ht⟩ | ⟨call, hcall, hc, hs, ht⟩ :=
        foldl_write_stream (telemetryMessage sample) c (s.clients.reduceOption.zip outcomes)
          { s with sent := s.sent ++ [telemetryMessage sample] } hnodup
    · cases hb
      rw [hs, ht]
      exact ⟨ms, p, hframed', hp⟩
    · have hquiet : s.torn c = true → Outcome.bytes (telemetryMessage sample) call.2 = [] :=
        fun htorn => bytes_of_fails (hok call hcall c hc htorn) _
      cases hb
      rw [hs, ht]
      obtain rfl | htorn := hp
      · obtain ⟨ms, p, hwrite, hp⟩ := hframed'.write hmem call.2
        refine ⟨ms, p, hwrite, hp.imp id ?_⟩
        intro htears
        change (s.torn c || _) = true
        rw [htears, Bool.or_true]
      · change ∃ ms p, Framed _ (s.stream c ++ _) ms p ∧ _
        rw [hquiet htorn, List.append_nil]
        refine ⟨ms, p, hframed', .inr ?_⟩
        change (s.torn c || _) = true
        rw [htorn, Bool.true_or]

structure Quiet (s t : State) : Prop where
  stream : t.stream = s.stream
  torn : t.torn = s.torn
  sent : t.sent = s.sent

theorem Framing.of_quiet (h : Framing s) (hq : Quiet s t) : Framing t := by
  constructor
  · rw [hq.sent]
    exact h.messages
  · rw [hq.sent, hq.stream, hq.torn]
    exact h.framed

theorem Quiet.trans {u : State} (h : Quiet s t) (h' : Quiet t u) : Quiet s u := by
  constructor
  · rw [h'.stream, h.stream]
  · rw [h'.torn, h.torn]
  · rw [h'.sent, h.sent]

theorem accept_quiet {fd : Fd} (h : s.accept service fd = some t) : Quiet s t := by
  unfold State.accept at h
  obtain ⟨-, h⟩ := Option.ite_none_right_eq_some.mp h
  cases h
  unfold State.addClient
  split_ifs
  · exact ⟨rfl, rfl, rfl⟩
  · exact ⟨rfl, rfl, rfl⟩

theorem removeClient_quiet (s : State) (fd : Fd) : Quiet s (s.removeClient fd) := by
  unfold State.removeClient
  split_ifs
  · exact ⟨rfl, rfl, rfl⟩
  · exact ⟨rfl, rfl, rfl⟩

theorem foldl_close_quiet (fds : List Fd) (s : State) : Quiet s (fds.foldl State.close s) := by
  induction fds generalizing s with
  | nil => exact ⟨rfl, rfl, rfl⟩
  | cons fd fds ih =>
    apply Quiet.trans _ (ih (s.close fd))
    exact ⟨rfl, rfl, rfl⟩

theorem dispatch_quiet {e : Event} {input : Input} (h : s.dispatch service e input = some t)
    (hinput : ∀ sample outcomes, input ≠ .expired sample outcomes) : Quiet s t := by
  unfold State.dispatch at h
  split at h
  · apply execute_keeps (I := Quiet s) _ ⟨rfl, rfl, rfl⟩ h
    intro u fd v hu hv
    exact hu.trans (accept_quiet hv)
  · rename_i sample outcomes _
    exact absurd rfl (hinput sample outcomes)
  · cases h
    exact ⟨rfl, rfl, rfl⟩
  · cases h
    exact ⟨rfl, rfl, rfl⟩
  · cases h
    exact ⟨rfl, rfl, rfl⟩
  · cases h
    split_ifs
    · exact removeClient_quiet s e.fd
    · exact ⟨rfl, rfl, rfl⟩
  · cases h

theorem handle_quiet {input : Input} (h : s.handle service input = some t)
    (hinput : ∀ sample outcomes, input ≠ .expired sample outcomes) : Quiet s t := by
  unfold State.handle at h
  split at h
  · cases h
  · obtain ⟨hstream, htorn, hsent⟩ := dispatch_quiet h hinput
    exact ⟨hstream, htorn, hsent⟩

theorem framing_invariant : Invariant ((server service).restrict Untorn) Framing := by
  constructor
  · intro s hs
    obtain ⟨-, -, hsent, htorn, hstream⟩ := hs.history
    constructor
    · rw [hsent]
      intro m hm
      cases hm
    · intro c
      refine ⟨[], [], ⟨hstream c, ?_, .inl rfl⟩, .inl rfl⟩
      intro m hm
      cases hm
  · intro s a t hs h ht
    obtain ⟨ht, hok⟩ := ht
    cases a with
    | poll events =>
      obtain ⟨-, ht⟩ := Option.ite_none_right_eq_some.mp ht
      cases ht
      exact h.of_quiet ⟨rfl, rfl, rfl⟩
    | handle input =>
      cases input with
      | expired sample outcomes =>
        obtain ⟨e, events, he, -, hb⟩ := handle_expired ht
        have hlive : Live service s := (accounts_invariant.holds hs.of_restrict).live_of_events he
        have hrest : Framing { s with events := events } := h.of_quiet ⟨rfl, rfl, rfl⟩
        exact hrest.broadcast (hlive.rest he) hok hb
      | accepted fds =>
        apply h.of_quiet (handle_quiet ht _)
        intro sample outcomes hinput
        cases hinput
      | received gone =>
        apply h.of_quiet (handle_quiet ht _)
        intro sample outcomes hinput
        cases hinput
      | nothing =>
        apply h.of_quiet (handle_quiet ht _)
        intro sample outcomes hinput
        cases hinput
    | stop =>
      obtain ⟨-, ht⟩ := Option.ite_none_right_eq_some.mp ht
      cases ht
      obtain ⟨hstream, htorn, hsent⟩ := foldl_close_quiet s.clients.reduceOption s
      exact h.of_quiet ⟨hstream, htorn, hsent⟩

/-- When nothing is accepted for a connection after a short write, its bytes are whole messages and
at most the beginning of one more, and a client finds in them the lines of each message. -/
theorem framing_untorn (service : Fd → Option Service) (s : State)
    (hs : Reachable ((server service).restrict Untorn) s) (c : Connection) :
    (∃ ms p, Framed s.sent (s.stream c) ms p) ∧
    ∀ pieces : List (List UInt8), pieces.flatten <+: s.stream c →
      ∃ ms p, Framed s.sent pieces.flatten ms p ∧
        (pieces.foldl recv ([], [])).1 =
          ms.flatMap (fun m => (Lines.split NEWLINE m).1) ++ (Lines.split NEWLINE p).1 := by
  obtain ⟨hmessages, hframed⟩ := framing_invariant.holds hs
  obtain ⟨ms, p, h, -⟩ := hframed c
  refine ⟨⟨ms, p, h⟩, ?_⟩
  intro pieces hpieces
  obtain ⟨ms', p', h'⟩ := h.prefix hpieces
  refine ⟨ms', p', h', ?_⟩
  rw [recv_pieces, h'.lines hmessages]

def connected : List Action := [.poll [(6, false)], .handle (.accepted [10])]

def tick (id : UInt64) (outcome : Outcome) : List Action :=
  [.poll [(8, false)], .handle (.expired ⟨id, 5, [], 5⟩ [outcome])]

def untornSession : List Action := connected ++ tick 0 .whole ++ tick 1 (.short 2) ++ tick 2 .again

theorem untornSession_reachable : ∃ s, execute (State.next ports) State.initial untornSession = some s ∧
    Reachable ((server ports).restrict Untorn) s ∧
    s.stream 0 = telemetryMessage ⟨0, 5, [], 5⟩ ++ [123, 34] := by
  have hstart : Reachable ((server ports).restrict Untorn) State.initial := .start initial_start
  have hlistens := hstart.next (a := Action.poll [(6, false)]) ⟨rfl, trivial⟩
  have haccepted := hlistens.next (a := Action.handle (.accepted [10])) ⟨rfl, trivial⟩
  have hexpired := haccepted.next (a := Action.poll [(8, false)]) ⟨rfl, trivial⟩
  have hwhole := hexpired.next (a := Action.handle (.expired ⟨0, 5, [], 5⟩ [.whole])) ⟨rfl, by
    intro call hcall c hc ht
    cases ht⟩
  have hexpired := hwhole.next (a := Action.poll [(8, false)]) ⟨rfl, trivial⟩
  have hshort := hexpired.next (a := Action.handle (.expired ⟨1, 5, [], 5⟩ [.short 2])) ⟨rfl, by
    intro call hcall c hc ht
    rw [List.mem_singleton.mp hcall] at hc
    cases hc
    cases ht⟩
  have hexpired := hshort.next (a := Action.poll [(8, false)]) ⟨rfl, trivial⟩
  have hfailed := hexpired.next (a := Action.handle (.expired ⟨2, 5, [], 5⟩ [.again])) ⟨rfl, by
    intro call hcall c hc ht
    rw [List.mem_singleton.mp hcall]
    exact .inl rfl⟩
  exact ⟨_, rfl, hfailed, rfl⟩

theorem framing_untorn_again : ∃ s, execute (State.next ports) State.initial untornSession = some s ∧
    (∃ ms p, Framed s.sent (s.stream 0) ms p) ∧
    ∃ ms p, Framed s.sent (telemetryMessage ⟨0, 5, [], 5⟩ ++ [123, 34]) ms p ∧
      ([telemetryMessage ⟨0, 5, [], 5⟩ ++ [123], [34]].foldl recv ([], [])).1 =
        ms.flatMap (fun m => (Lines.split NEWLINE m).1) ++ (Lines.split NEWLINE p).1 := by
  obtain ⟨s, hs, hr, hstream⟩ := untornSession_reachable
  obtain ⟨hframed, hpieces⟩ := framing_untorn ports s hr 0
  have hflatten : [telemetryMessage ⟨0, 5, [], 5⟩ ++ [123], [34]].flatten =
      telemetryMessage ⟨0, 5, [], 5⟩ ++ [123, 34] := by
    simp
  have hlines := hpieces [telemetryMessage ⟨0, 5, [], 5⟩ ++ [123], [34]]
  rw [hflatten, hstream] at hlines
  exact ⟨s, hs, hframed, hlines (List.prefix_refl _)⟩

theorem telemetryMessage_start (sample : Sample) :
    ∃ rest, telemetryMessage sample = 123 :: 34 :: rest := ⟨_, rfl⟩

theorem Framed.start (h : Framed sent bytes ms p)
    (hsent : ∀ m ∈ sent, ∃ sample, m = telemetryMessage sample) {a b : UInt8} {rest : List UInt8}
    (hbytes : bytes = a :: b :: rest) : b = 34 := by
  obtain ⟨rfl, hwhole, hlast⟩ := h
  cases ms with
  | nil =>
    obtain rfl | ⟨m, hm, tail, hp⟩ := hlast
    · cases hbytes
    · obtain ⟨sample, rfl⟩ := hsent m hm
      obtain ⟨text, htext⟩ := telemetryMessage_start sample
      rw [htext] at hp
      rw [List.flatten_nil, List.nil_append] at hbytes
      rw [hbytes] at hp
      simp only [List.cons_append, List.cons.injEq] at hp
      exact hp.2.1
  | cons m ms =>
    obtain ⟨sample, rfl⟩ := hsent m (hwhole m List.mem_cons_self)
    obtain ⟨text, htext⟩ := telemetryMessage_start sample
    rw [List.flatten_cons, htext] at hbytes
    simp only [List.cons_append, List.cons.injEq] at hbytes
    exact hbytes.2.1.symm

theorem not_framed : ¬ ∀ s, Reachable (server ports) s → ∀ c, ∃ ms p, Framed s.sent (s.stream c) ms p := by
  intro h
  obtain ⟨s, hs⟩ : ∃ s, execute (State.next ports) State.initial
      (connected ++ tick 0 (.short 1) ++ tick 1 .whole) = some s := ⟨_, rfl⟩
  have hr : Reachable (server ports) s := by
    apply reachable_execute _ hs
    exact .start initial_start
  obtain ⟨ms, p, hframed⟩ := h s hr 0
  have hsent : ∀ m ∈ s.sent, ∃ sample, m = telemetryMessage sample := by
    have hs' : s.sent = [telemetryMessage ⟨0, 5, [], 5⟩, telemetryMessage ⟨1, 5, [], 5⟩] := by
      cases hs
      rfl
    rw [hs']
    intro m hm
    obtain hm | hm := List.mem_pair.mp hm
    · exact ⟨_, hm⟩
    · exact ⟨_, hm⟩
  have hstart : ∃ rest, s.stream 0 = 123 :: 123 :: rest := by
    cases hs
    exact ⟨_, rfl⟩
  obtain ⟨rest, hrest⟩ := hstart
  have hquote : (123 : UInt8) = 34 := hframed.start hsent hrest
  exact absurd hquote (by decide)

end EmbeddedLinuxTraining.Telemetry.Connections
