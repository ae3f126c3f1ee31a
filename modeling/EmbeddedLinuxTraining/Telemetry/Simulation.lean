import EmbeddedLinuxTraining.Telemetry.Framing
import EmbeddedLinuxTraining.Telemetry.MessageLength

namespace EmbeddedLinuxTraining.Telemetry.Connections

open Library.Pthread Library.Transition

structure Wiring (service : Fd → Option Service) where
  port : Service → Fd
  served : ∀ k, service (port k) = some k

example : Wiring ports where
  port
    | .listen => 6
    | .fifo => 7
    | .timer => 8
    | .notify => 3
  served k := by cases k <;> rfl

variable {service : Fd → Option Service} (wiring : Wiring service)

def report : Ready → Fd × Bool
  | .listen => (wiring.port .listen, false)
  | .fifo => (wiring.port .fifo, false)
  | .timer => (wiring.port .timer, false)
  | .notify => (wiring.port .notify, false)
  | .client fd hup => (fd, hup)

def Unused (service : Fd → Option Service) : List (Option Fd) → List Fd → Prop
  | _, [] => True
  | clients, fd :: fds =>
    (service fd = none ∧ some fd ∉ clients) ∧ Unused service (Telemetry.addClient clients fd) fds

def Granted (clients : List (Option Fd)) : Telemetry.Input → Prop
  | .events events => (events.map fun r => (report wiring r).1).Nodup ∧
      ∀ fd hup, Ready.client fd hup ∈ events → some fd ∈ clients
  | .accepted fds => Unused service clients fds
  | .now ts => -2 ^ 63 ≤ ts ∧ ts < 2 ^ 63
  | _ => True

def Conforms (c : Telemetry.State) (a : Label Agent Telemetry.Input) : Prop :=
  ∀ x, a = .input .server x → Granted wiring (c.thread .server).loc.server.clients x

structure Handles (l : Server) (s : State) (due : List Ready) : Prop where
  running : s.running = true
  clients : s.clients = l.clients
  events : s.events.map (fun e => (e.fd, e.hup)) = due.map (report wiring)
  own : ∀ fd hup, Ready.client fd hup ∈ due → service fd = none

/-- An event is handled in one step, when it changes what the clients see. -/
def Along (l : Server) (s : State) : ServerPoint → Prop
  | .setup | .setupTest | .lock .startup | .period .startup | .version .startup | .unlock .startup
  | .settime .startup | .register => Start s
  | .loop | .epollWait | .failed | .close => Handles wiring l s []
  | .ready => Handles wiring l s (if l.poll = .ready then l.events else [])
  | .event | .timerTest | .notifyTest | .other => Handles wiring l s l.events
  | .timerRead | .expired | .timerLock | .timerVersion | .timerUnlock | .broadcast =>
    l.events.head? = some .timer ∧ Handles wiring l s l.events
  | .notifyRead => l.events.head? = some .notify ∧ Handles wiring l s l.events
  | .lock .notify | .period .notify | .version .notify | .unlock .notify | .settime .notify | .next =>
    Handles wiring l s l.events.tail
  | .done => s.running = false ∨ Start s

structure Corresponds (c : Telemetry.State) (s : State) : Prop where
  along : ∀ p, (c.thread .server).pc = .server p → Along wiring (c.thread .server).loc.server s p
  sent : ∀ y ∈ c.shared.sent, telemetryMessage y.2 ∈ s.sent

variable {wiring} {l l' : Server} {s t : State} {r : Ready} {rest due : List Ready} {fds : List Fd}
  {clients : List (Option Fd)}

theorem Handles.of_eq (h : Handles wiring l s due) (hclients : l'.clients = l.clients) :
    Handles wiring l' s due :=
  ⟨h.running, h.clients.trans hclients.symm, h.events, h.own⟩

theorem Handles.first (h : Handles wiring l s (r :: rest)) : ∃ e events,
    s.events = e :: events ∧ (e.fd, e.hup) = report wiring r ∧
      Handles wiring l { s with events := events } rest := by
  have hevents := h.events
  cases hs : s.events with
  | nil =>
    rw [hs] at hevents
    cases hevents
  | cons e events =>
    rw [hs, List.map_cons, List.map_cons] at hevents
    obtain ⟨he, hrest⟩ := List.cons.inj hevents
    exact ⟨e, events, rfl, he, h.running, h.clients, hrest, fun fd hup hmem =>
      h.own fd hup (List.mem_cons_of_mem r hmem)⟩

theorem Handles.nothing (h : Handles wiring l s (r :: rest)) (hr : r = .fifo ∨ r = .timer ∨ r = .notify) :
    ∃ t, s.next service (.handle .nothing) = some t ∧ Handles wiring l t rest ∧ t.sent = s.sent := by
  obtain ⟨e, events, hs, he, hrest⟩ := h.first
  refine ⟨{ s with events := events }, ?_, hrest, rfl⟩
  have hfd : e.fd = (report wiring r).1 := congrArg Prod.fst he
  obtain rfl | rfl | rfl := hr
  · have hservice : service e.fd = some .fifo := hfd ▸ wiring.served .fifo
    simp only [State.next, State.handle, hs, State.dispatch, hservice]
  · have hservice : service e.fd = some .timer := hfd ▸ wiring.served .timer
    simp only [State.next, State.handle, hs, State.dispatch, hservice]
  · have hservice : service e.fd = some .notify := hfd ▸ wiring.served .notify
    simp only [State.next, State.handle, hs, State.dispatch, hservice]

theorem addClient_full {fd : Fd} (h : none ∉ clients) : Telemetry.addClient clients fd = clients := by
  induction clients with
  | nil => rfl
  | cons client clients ih =>
    obtain ⟨hne, hrest⟩ := List.ne_and_not_mem_of_not_mem_cons h
    cases client with
    | none => exact absurd rfl hne
    | some used => rw [Telemetry.addClient, ih hrest]

theorem removeClient_unused {fd : Fd} (h : some fd ∉ clients) :
    Telemetry.removeClient clients fd = clients := by
  induction clients with
  | nil => rfl
  | cons client clients ih =>
    obtain ⟨hne, hrest⟩ := List.ne_and_not_mem_of_not_mem_cons h
    rw [Telemetry.removeClient, if_neg (Ne.symm hne), ih hrest]

theorem Table.unused (h : Table s) {fd : Fd} : some fd ∉ s.clients ↔ s.conn fd = none := by
  rw [← List.reduceOption_mem_iff, h.used, not_not]

theorem accept_clients {fd : Fd} (h : s.accept service fd = some t) :
    t.clients = Telemetry.addClient s.clients fd := by
  unfold State.accept at h
  obtain ⟨-, h⟩ := Option.ite_none_right_eq_some.mp h
  cases h
  unfold State.addClient
  split_ifs with hroom
  · rfl
  · exact (addClient_full hroom).symm

theorem accept_loop (hk : Kernel service s) (ht : Table s) (h : Unused service s.clients fds) :
    ∃ t, fds.foldlM (State.accept service) s = some t ∧
      t.clients = fds.foldl Telemetry.addClient s.clients ∧ Accepting s t ∧ t.sent = s.sent := by
  induction fds generalizing s with
  | nil => exact ⟨s, rfl, rfl, ⟨rfl, rfl, fun _ _ hc => hc⟩, rfl⟩
  | cons fd fds ih =>
    obtain ⟨⟨hservice, hunused⟩, hrest⟩ := h
    obtain ⟨u, hu⟩ : ∃ u, s.accept service fd = some u := by
      simp only [State.accept, hservice, ht.unused.mp hunused, and_self, if_true, Option.some.injEq,
        exists_eq']
    have hclients := accept_clients hu
    obtain ⟨hk', ht', haccept⟩ := accept_keeps hk ht hu
    rw [← hclients] at hrest
    obtain ⟨t, hrun, hfold, haccepts, hsent⟩ := ih hk' ht' hrest
    refine ⟨t, ?_, ?_, haccept.trans haccepts, hsent.trans (accept_quiet hu).sent⟩
    · rw [List.foldlM_cons, hu]
      exact hrun
    · rw [hfold, hclients, List.foldl_cons]

theorem Handles.accepted (h : Handles wiring l s (.listen :: rest)) (hk : Kernel service s) (ht : Table s)
    (hunused : Unused service l.clients fds) :
    ∃ t, s.next service (.handle (.accepted fds)) = some t ∧
      Handles wiring { l with clients := fds.foldl Telemetry.addClient l.clients } t rest ∧
      t.sent = s.sent := by
  obtain ⟨e, events, hs, he, hrest⟩ := h.first
  rw [← h.clients] at hunused ⊢
  obtain ⟨t, hrun, hclients, haccepts, hsent⟩ :=
    accept_loop (s := { s with events := events }) (hk.of_eq rfl rfl rfl) (ht.of_eq rfl rfl rfl) hunused
  have hfd : e.fd = wiring.port .listen := congrArg Prod.fst he
  have hservice : service e.fd = some .listen := hfd ▸ wiring.served .listen
  refine ⟨t, ?_, ⟨haccepts.running.trans h.running, hclients, ?_, hrest.own⟩, hsent⟩
  · simpa only [State.next, State.handle, hs, State.dispatch, hservice] using hrun
  · rw [haccepts.events]
    exact hrest.events

theorem removeClient_clients (s : State) (fd : Fd) :
    (s.removeClient fd).clients = Telemetry.removeClient s.clients fd ∧
      (s.removeClient fd).running = s.running ∧ (s.removeClient fd).events = s.events := by
  unfold State.removeClient
  split_ifs with hmem
  · exact ⟨rfl, rfl, rfl⟩
  · exact ⟨(removeClient_unused hmem).symm, rfl, rfl⟩

theorem Handles.received {fd : Fd} {hup : Bool} (h : Handles wiring l s (.client fd hup :: rest)) (gone : Bool) :
    ∃ t, s.next service (.handle (.received gone)) = some t ∧
      Handles wiring { l with
        clients := if hup || gone then Telemetry.removeClient l.clients fd else l.clients } t rest ∧
      t.sent = s.sent := by
  obtain ⟨e, events, hs, he, hrest⟩ := h.first
  obtain ⟨rfl, rfl⟩ : e.fd = fd ∧ e.hup = hup := ⟨congrArg Prod.fst he, congrArg Prod.snd he⟩
  have hservice : service e.fd = none := h.own e.fd e.hup List.mem_cons_self
  have hnext : s.next service (.handle (.received gone)) = some
      (if e.hup || gone then State.removeClient { s with events := events } e.fd else { s with events := events }) := by
    simp only [State.next, State.handle, hs, State.dispatch, hservice]
  refine ⟨_, hnext, ?_⟩
  split_ifs
  · obtain ⟨hclients, hrunning, hevents⟩ := removeClient_clients { s with events := events } e.fd
    refine ⟨⟨hrunning.trans h.running, ?_, ?_, hrest.own⟩, (removeClient_quiet _ _).sent⟩
    · rw [hclients]
      exact congrArg (Telemetry.removeClient · e.fd) h.clients
    · rw [hevents]
      exact hrest.events
  · exact ⟨hrest, rfl⟩

theorem broadcast_clients {message : List UInt8} {outcomes : List Outcome}
    (h : s.broadcast message outcomes = some t) :
    t.clients = s.clients ∧ t.running = s.running ∧ t.events = s.events ∧ t.sent = s.sent ++ [message] := by
  unfold State.broadcast at h
  obtain ⟨-, h⟩ := Option.ite_none_right_eq_some.mp h
  cases h
  refine ⟨?_, ?_, ?_, ?_⟩
  · exact foldl_write State.clients (fun _ _ _ _ => rfl) ..
  · exact foldl_write State.running (fun _ _ _ _ => rfl) ..
  · exact foldl_write State.events (fun _ _ _ _ => rfl) ..
  · exact foldl_write State.sent (fun _ _ _ _ => rfl) ..

theorem Handles.expired (h : Handles wiring l s (.timer :: rest)) (sample : Sample) (hfits : sample.Fits) :
    ∃ outcomes t, s.next service (.handle (.expired sample outcomes)) = some t ∧ Handles wiring l t rest ∧
      t.sent = s.sent ++ [telemetryMessage sample] := by
  obtain ⟨e, events, hs, he, hrest⟩ := h.first
  have hfd : e.fd = wiring.port .timer := congrArg Prod.fst he
  have hservice : service e.fd = some .timer := hfd ▸ wiring.served .timer
  let outcomes := List.replicate s.clients.reduceOption.length Outcome.whole
  have hpossible : outcomes.length = s.clients.reduceOption.length ∧
      outcomes.all (Outcome.possible (telemetryMessage sample)) = true := by
    simp [outcomes, Outcome.possible]
  obtain ⟨t, ht⟩ : ∃ t, State.broadcast { s with events := events } (telemetryMessage sample) outcomes = some t :=
    ⟨_, if_pos hpossible⟩
  obtain ⟨hclients, hrunning, hevents, hsent⟩ := broadcast_clients ht
  refine ⟨outcomes, t, ?_, ⟨hrunning.trans h.running, hclients.trans h.clients, ?_, hrest.own⟩, hsent⟩
  · simpa only [State.next, State.handle, hs, State.dispatch, hservice, hfits, if_true] using ht
  · rw [hevents]
    exact hrest.events

theorem Handles.poll (h : Handles wiring l s []) (hk : Kernel service s) (ht : Table s) {events : List Ready}
    (hlength : events.length ≤ MAX_EPOLL_EVENTS) (hgranted : Granted wiring l.clients (.events events)) :
    ∃ t, s.next service (.poll (events.map (report wiring))) = some t ∧ Handles wiring l t events ∧
      t.sent = s.sent := by
  obtain ⟨hnodup, hregistered⟩ := hgranted
  have hclient (fd : Fd) (hup : Bool) (hmem : Ready.client fd hup ∈ events) : s.conn fd ≠ none := by
    have hslot := hregistered fd hup hmem
    rw [← h.clients] at hslot
    exact fun hc => ht.unused.mpr hc hslot
  have hidle : s.events = [] := List.map_eq_nil_iff.mp h.events
  have hready : ∀ e ∈ events.map (report wiring), (service e.1).isSome ∨ s.watched e.1 := by
    intro e he
    obtain ⟨r, hr, rfl⟩ := List.mem_map.mp he
    cases r with
    | client fd hup => exact .inr ((ht.watched fd).mpr (hclient fd hup hr))
    | listen => exact .inl (Option.isSome_iff_exists.mpr ⟨_, wiring.served .listen⟩)
    | fifo => exact .inl (Option.isSome_iff_exists.mpr ⟨_, wiring.served .fifo⟩)
    | timer => exact .inl (Option.isSome_iff_exists.mpr ⟨_, wiring.served .timer⟩)
    | notify => exact .inl (Option.isSome_iff_exists.mpr ⟨_, wiring.served .notify⟩)
  have hpoll : s.running = true ∧ s.events = [] ∧ ((events.map (report wiring)).map Prod.fst).Nodup ∧
      (events.map (report wiring)).length ≤ MAX_EPOLL_EVENTS ∧
      ∀ e ∈ events.map (report wiring), (service e.1).isSome ∨ s.watched e.1 := by
    refine ⟨h.running, hidle, ?_, ?_, hready⟩
    · rwa [List.map_map]
    · rwa [List.length_map]
  refine ⟨_, if_pos hpoll, ⟨h.running, h.clients, ?_, ?_⟩, rfl⟩
  · rw [List.map_map]
    exact List.map_id _
  · intro fd hup hmem
    obtain ⟨c, hc⟩ := Option.ne_none_iff_exists'.mp (hclient fd hup hmem)
    exact hk.own fd c hc

variable {p : ServerPoint} {q : Point} {σ σ' : Shared} {m m' : Locals} {x : Telemetry.Input}

structure Follows (wiring : Wiring service) (s : State) (σ σ' : Shared) (l : Server) (q : ServerPoint)
    (t : State) : Prop where
  moves : t = s ∨ ∃ a, s.next service a = some t
  along : Along wiring l t q
  sent : s.sent ⊆ t.sent ∧ ∀ y ∈ σ'.sent, y ∈ σ.sent ∨ telemetryMessage y.2 ∈ t.sent

theorem Follows.idle {q : ServerPoint} (hσ : σ'.sent = σ.sent) (h : Along wiring l s q) :
    Follows wiring s σ σ' l q s := by
  refine ⟨.inl rfl, h, List.Subset.refl _, ?_⟩
  rw [hσ]
  exact fun _ hy => .inl hy

theorem Follows.step {q : ServerPoint} {a : Action} (hσ : σ'.sent = σ.sent) (ht : s.next service a = some t)
    (h : Along wiring l t q) (hsent : t.sent = s.sent) : Follows wiring s σ σ' l q t := by
  refine ⟨.inr ⟨a, ht⟩, h, ?_, ?_⟩
  · rw [hsent]
    exact List.Subset.refl _
  · rw [hσ]
    exact fun _ hy => .inl hy

theorem Handles.live (h : Handles wiring l s due) (hs : Reachable (server service) s) : Live service s :=
  (accounts_invariant.holds hs).live h.running

theorem openServer_follows (hf : openServer x σ m = some (σ', m')) (h : Start s) :
    Follows wiring s σ σ' m'.server .setupTest s := by
  unfold openServer at hf
  split at hf
  · cases hf
    exact .idle rfl h
  · cases hf

theorem register_follows (h : Start s) : Follows wiring s σ σ (register σ m).2.server .loop s := by
  refine .idle rfl ⟨h.running, h.clients, ?_, nofun⟩
  rw [h.events]
  rfl

theorem serverPoll_follows (hf : serverPoll x σ m = some (σ', m')) (h : Handles wiring m.server s [])
    (hs : Reachable (server service) s) (hgranted : Granted wiring m.server.clients x) :
    ∃ t, Follows wiring s σ σ' m'.server .ready t := by
  obtain ⟨hk, ht, -⟩ := h.live hs
  unfold serverPoll at hf
  split at hf
  · split_ifs at hf with hready
    cases hf
    refine ⟨s, .idle rfl ?_⟩
    rw [Along, if_neg hready]
    exact h.of_eq rfl
  · obtain ⟨⟨-, hlength, -⟩, hf⟩ := Option.ite_none_right_eq_some.mp hf
    cases hf
    obtain ⟨t, hpoll, hhandles, hsent⟩ := h.poll hk ht hlength hgranted
    exact ⟨t, .step rfl hpoll (hhandles.of_eq rfl) hsent⟩
  · cases hf

theorem broadcast_follows (hf : broadcastTelemetry x σ m = some (σ', m'))
    (hhead : m.server.events.head? = some .timer) (h : Handles wiring m.server s m.server.events)
    (hgranted : Granted wiring m.server.clients x) (hstored : Stored m.server.swVersion) :
    ∃ t, Follows wiring s σ σ' m'.server .next t := by
  unfold broadcastTelemetry at hf
  split at hf
  · rename_i ts
    cases hf
    obtain ⟨rest, hevents⟩ := List.head?_eq_some_iff.mp hhead
    rw [hevents] at h
    obtain ⟨outcomes, t, ht, hhandles, hsent⟩ :=
      h.expired ⟨σ.sampleId, ts, m.server.swVersion, m.server.period⟩ ⟨hstored.1, hstored.2, hgranted⟩
    refine ⟨t, .inr ⟨_, ht⟩, ?_, ?_, ?_⟩
    · rw [Along, hevents]
      exact hhandles
    · rw [hsent]
      exact List.subset_append_left _ _
    · intro y hy
      refine (List.mem_append.mp hy).imp_right fun hnew => ?_
      obtain ⟨fd, -, rfl⟩ := List.mem_map.mp hnew
      rw [hsent]
      exact List.mem_append_right _ List.mem_cons_self
  · cases hf

theorem serveOther_follows (hf : serveOther x σ m = some (σ', m')) (h : Handles wiring m.server s m.server.events)
    (hs : Reachable (server service) s) (hgranted : Granted wiring m.server.clients x) :
    ∃ t, Follows wiring s σ σ' m'.server .next t := by
  obtain ⟨hk, ht, -⟩ := h.live hs
  unfold serveOther at hf
  simp only at hf
  split at hf
  · rename_i fds hhead
    cases hf
    obtain ⟨rest, hevents⟩ := List.head?_eq_some_iff.mp hhead
    rw [hevents] at h
    obtain ⟨t, ht, hhandles, hsent⟩ := h.accepted hk ht hgranted
    refine ⟨t, .step rfl ht ?_ hsent⟩
    rw [Along, hevents]
    exact hhandles.of_eq rfl
  · rename_i hhead
    cases hf
    obtain ⟨rest, hevents⟩ := List.head?_eq_some_iff.mp hhead
    rw [hevents] at h
    obtain ⟨t, ht, hhandles, hsent⟩ := h.nothing (.inl rfl)
    refine ⟨t, .step rfl ht ?_ hsent⟩
    rw [Along, hevents]
    exact hhandles
  · rename_i fd hup gone hhead
    cases hf
    obtain ⟨rest, hevents⟩ := List.head?_eq_some_iff.mp hhead
    rw [hevents] at h
    obtain ⟨t, ht, hhandles, hsent⟩ := h.received gone
    refine ⟨t, .step rfl ht ?_ hsent⟩
    rw [Along, hevents]
    exact hhandles.of_eq rfl
  · cases hf

theorem readNotify_follows (hhead : m.server.events.head? = some .notify)
    (h : Handles wiring m.server s m.server.events) :
    ∃ t, Follows wiring s σ (readNotify σ m).1 m.server (.lock .notify) t := by
  obtain ⟨rest, hevents⟩ := List.head?_eq_some_iff.mp hhead
  rw [hevents] at h
  obtain ⟨t, ht, hhandles, hsent⟩ := h.nothing (.inr (.inr rfl))
  refine ⟨t, .step rfl ht ?_ hsent⟩
  rw [Along, hevents]
  exact hhandles

theorem close_follows (h : Handles wiring l s []) : ∃ t, Follows wiring s σ σ l' .done t := by
  have hidle : s.events = [] := List.map_eq_nil_iff.mp h.events
  refine ⟨_, .step rfl (a := .stop) (if_pos ⟨h.running, hidle⟩) (.inl rfl) ?_⟩
  exact (foldl_close_quiet s.clients.reduceOption s).sent

theorem act_follows {f : Telemetry.Input → Shared → Locals → Option (Shared × Locals)}
    (hc : serverThreadFn p = .act f q) (hf : f x σ m = some (σ', m')) (h : Along wiring m.server s p)
    (hs : Reachable (server service) s) (hgranted : Granted wiring m.server.clients x)
    (hcopied : Copied m (.server p)) : ∃ q' t, q = .server q' ∧ Follows wiring s σ σ' m'.server q' t := by
  cases p with
  | setup =>
    cases hc
    exact ⟨_, s, rfl, openServer_follows hf h⟩
  | period k | version k =>
    cases hc
    obtain ⟨rfl, rfl⟩ := run_some hf
    cases k with
    | startup => exact ⟨_, s, rfl, .idle rfl h⟩
    | notify => exact ⟨_, s, rfl, .idle rfl (h.of_eq rfl)⟩
  | settime k =>
    cases k with
    | startup | notify =>
      cases hc
      obtain ⟨rfl, rfl⟩ := run_some hf
      exact ⟨_, s, rfl, .idle rfl h⟩
  | register =>
    cases hc
    obtain ⟨rfl, rfl⟩ := run_some hf
    exact ⟨_, s, rfl, register_follows h⟩
  | epollWait =>
    cases hc
    obtain ⟨t, ht⟩ := serverPoll_follows hf h hs hgranted
    exact ⟨_, t, rfl, ht⟩
  | timerRead | timerVersion =>
    cases hc
    obtain ⟨rfl, rfl⟩ := run_some hf
    exact ⟨_, s, rfl, .idle rfl ⟨h.1, h.2.of_eq rfl⟩⟩
  | broadcast =>
    cases hc
    obtain ⟨t, ht⟩ := broadcast_follows hf h.1 h.2 hgranted hcopied
    exact ⟨_, t, rfl, ht⟩
  | notifyRead =>
    cases hc
    obtain ⟨rfl, rfl⟩ := run_some hf
    obtain ⟨t, ht⟩ := readNotify_follows h.1 h.2
    exact ⟨_, t, rfl, ht⟩
  | other =>
    cases hc
    obtain ⟨t, ht⟩ := serveOther_follows hf h hs hgranted
    exact ⟨_, t, rfl, ht⟩
  | next =>
    cases hc
    obtain ⟨rfl, rfl⟩ := run_some hf
    exact ⟨_, s, rfl, .idle rfl (h.of_eq rfl)⟩
  | close =>
    cases hc
    obtain ⟨rfl, rfl⟩ := run_some hf
    obtain ⟨t, ht⟩ := close_follows h
    exact ⟨_, t, rfl, ht⟩
  | setupTest | lock | unlock | loop | ready | failed | event | timerTest | expired | timerLock
  | timerUnlock | notifyTest | done => cases hc

theorem expired_follows (hhead : l.events.head? = some .timer) (h : Handles wiring l s l.events) :
    ∃ t, Follows wiring s σ σ l .next t := by
  obtain ⟨rest, hevents⟩ := List.head?_eq_some_iff.mp hhead
  rw [hevents] at h
  obtain ⟨t, ht, hhandles, hsent⟩ := h.nothing (.inr (.inl rfl))
  refine ⟨t, .step rfl ht ?_ hsent⟩
  rw [Along, hevents]
  exact hhandles

theorem target_follows (htarget : (serverThreadFn p).Target σ m q) (h : Along wiring m.server s p) :
    ∃ q' t, q = .server q' ∧ Follows wiring s σ σ m.server q' t := by
  obtain ⟨hnext, htest⟩ := htarget
  cases p with
  | setupTest =>
    rcases hnext with rfl | rfl
    · exact ⟨_, s, rfl, .idle rfl h⟩
    · exact ⟨_, s, rfl, .idle rfl (.inr h)⟩
  | lock k | unlock k =>
    cases hnext
    cases k <;> exact ⟨_, s, rfl, .idle rfl h⟩
  | loop =>
    rcases hnext with rfl | rfl <;> exact ⟨_, s, rfl, .idle rfl h⟩
  | ready =>
    have hq := htest _ _ _ rfl
    by_cases hready : m.server.poll = .ready
    · rw [Along, if_pos hready] at h
      simp only [hready, decide_true, cond_true] at hq
      exact ⟨_, s, hq, .idle rfl h⟩
    · rw [Along, if_neg hready] at h
      simp only [hready, decide_false, cond_false] at hq
      exact ⟨_, s, hq, .idle rfl h⟩
  | failed =>
    rcases hnext with rfl | rfl <;> exact ⟨_, s, rfl, .idle rfl h⟩
  | event =>
    have hq := htest _ _ _ rfl
    cases hevents : m.server.events with
    | nil =>
      rw [Along, hevents] at h
      rw [hevents] at hq
      exact ⟨_, s, hq, .idle rfl h⟩
    | cons r rest =>
      rw [hevents] at hq
      exact ⟨_, s, hq, .idle rfl h⟩
  | timerTest =>
    have hq := htest _ _ _ rfl
    by_cases hhead : m.server.events.head? = some .timer
    · simp only [hhead, decide_true, cond_true] at hq
      exact ⟨_, s, hq, .idle rfl ⟨hhead, h⟩⟩
    · simp only [hhead, decide_false, cond_false] at hq
      exact ⟨_, s, hq, .idle rfl h⟩
  | expired =>
    rcases hnext with rfl | rfl
    · exact ⟨_, s, rfl, .idle rfl h⟩
    · obtain ⟨t, ht⟩ := expired_follows h.1 h.2
      exact ⟨_, t, rfl, ht⟩
  | timerLock | timerUnlock =>
    cases hnext
    exact ⟨_, s, rfl, .idle rfl h⟩
  | notifyTest =>
    have hq := htest _ _ _ rfl
    by_cases hhead : m.server.events.head? = some .notify
    · simp only [hhead, decide_true, cond_true] at hq
      exact ⟨_, s, hq, .idle rfl ⟨hhead, h⟩⟩
    · simp only [hhead, decide_false, cond_false] at hq
      exact ⟨_, s, hq, .idle rfl h⟩
  | settime k => cases k <;> cases hnext
  | _ => cases hnext

theorem Follows.corresponds {c d : Telemetry.State} {p : ServerPoint} (hσ : c.shared = σ) (hσ' : d.shared = σ')
    (h : Corresponds wiring c s) (hpc : (d.thread .server).pc = .server p)
    (ht : Follows wiring s σ σ' (d.thread .server).loc.server p t) : Corresponds wiring d t := by
  constructor
  · intro p' hp'
    rw [hpc] at hp'
    obtain rfl : p = p' := Point.server.inj hp'
    exact ht.along
  · rw [hσ']
    intro y hy
    obtain hold | hnew := ht.sent.2 y hy
    · rw [← hσ] at hold
      exact ht.sent.1 (h.sent y hold)
    · exact hnew

variable {cJSONParse : CString → Option CJson} {c d : Telemetry.State} {a : Label Agent Telemetry.Input}

theorem server_follows (hr : Reachable (program cJSONParse) c) (hstep : Step (code cJSONParse) c a d)
    (ha : a.actor = .server) (hconforms : Conforms wiring c a) (hs : Reachable (server service) s)
    (h : Corresponds wiring c s) :
    ∃ t, (t = s ∨ ∃ b, s.next service b = some t) ∧ Corresponds wiring d t := by
  obtain ⟨p, hp⟩ := server_point hr
  have halong := h.along p hp
  obtain ⟨p', m, f, q, -, -, hat, hc, -, -⟩ | ⟨hshared, hloc, hpc⟩ := hstep.actor_cases
  · obtain ⟨x, m', hinput, hf, hd⟩ := hstep.input hat hc
    rw [ha] at hat hinput hd
    have hcopied := (copies_of_reachable hr).copied
    have hgranted := hconforms x hinput
    rw [hat.thread] at hp halong hcopied hgranted
    obtain rfl : p' = .server p := hp
    obtain ⟨q', t, rfl, ht⟩ := act_follows hc hf halong hs hgranted hcopied
    refine ⟨t, ht.moves, ?_⟩
    apply Follows.corresponds rfl rfl h (p := q')
    · rw [hd.thread]
    · rw [hd.thread]
      exact ht
  · rw [ha] at hloc hpc
    obtain hsame | ⟨p', m, hat, htarget⟩ := hpc
    · refine ⟨s, .inl rfl, ?_, ?_⟩
      · rw [hsame, hloc]
        exact h.along
      · rw [hshared]
        exact h.sent
    · rw [hat.thread] at hp halong hloc
      obtain rfl : p' = .server p := hp
      obtain ⟨q', t, hq, ht⟩ := target_follows htarget halong
      refine ⟨t, ht.moves, ?_⟩
      apply Follows.corresponds rfl hshared h hq
      rw [hloc]
      exact ht

theorem others_follow (hr : Reachable (program cJSONParse) c) (hstep : Step (code cJSONParse) c a d)
    (ha : a.actor ≠ .server) (h : Corresponds wiring c s) : Corresponds wiring d s := by
  obtain ⟨hpc, hloc⟩ := hstep.frame (Ne.symm ha)
  constructor
  · rw [hpc, hloc]
    exact h.along
  · rw [(others_tell hr hstep ha).1]
    exact h.sent

/-- Every run of the two threads is, for the clients, a run of the epoll loop towards them. -/
theorem program_simulated (h : Reachable ((program cJSONParse).restrict (Conforms wiring)) c) :
    ∃ s, Reachable (server service) s ∧ Corresponds wiring c s := by
  apply h.simulate (Corresponds wiring)
  · intro c hc
    obtain ⟨l, hl⟩ := hc.server
    refine ⟨State.initial, initial_start, ?_, ?_⟩
    · rw [hl.thread]
      rintro p hp
      cases hp
      exact initial_start
    · rw [hc.nothing.1]
      exact fun y hy => absurd hy List.not_mem_nil
  · rintro c a d s hr hs ⟨hstep, hconforms⟩ hcorresponds
    by_cases ha : a.actor = .server
    · exact server_follows hr.of_restrict hstep ha hconforms hs hcorresponds
    · exact ⟨s, .inl rfl, others_follow hr.of_restrict hstep ha hcorresponds⟩

def registered : ServerPoint → Bool
  | .setup | .setupTest | .lock .startup | .period .startup | .version .startup | .unlock .startup
  | .settime .startup | .register | .done => false
  | _ => true

theorem Along.handles (h : Along wiring l s p) (hp : registered p = true) :
    ∃ due, Handles wiring l s due := by
  cases p with
  | setup | setupTest | register | done => cases hp
  | lock k | period k | version k | unlock k | settime k =>
    cases k with
    | startup => cases hp
    | notify => exact ⟨_, h⟩
  | timerRead | expired | timerLock | timerVersion | timerUnlock | broadcast | notifyRead => exact ⟨_, h.2⟩
  | loop | epollWait | ready | failed | event | timerTest | notifyTest | other | next | close => exact ⟨_, h⟩

theorem program_table (h : Reachable ((program cJSONParse).restrict (Conforms wiring)) c)
    (hp : (c.thread .server).pc = .server p) (hregistered : registered p = true) :
    let l := (c.thread .server).loc.server
    l.clients.length = MAX_CLIENTS ∧ l.clients.reduceOption.Nodup ∧
      (p = .other → ∀ fd hup, l.events.head? = some (.client fd hup) → some fd ∈ l.clients) := by
  intro l
  obtain ⟨s, hs, hcorresponds⟩ := program_simulated h
  have halong := hcorresponds.along p hp
  obtain ⟨due, hhandles⟩ := halong.handles hregistered
  have hlive := hhandles.live hs
  have hclients : s.clients = l.clients := hhandles.clients
  refine ⟨?_, ?_, ?_⟩
  · rw [← hclients]
    exact hlive.table.size
  · rw [← hclients]
    exact hlive.table.nodup
  · rintro rfl fd hup hhead
    obtain ⟨rest, hevents⟩ := List.head?_eq_some_iff.mp hhead
    have hother : Handles wiring l s l.events := halong
    rw [hevents] at hother
    obtain ⟨e, events, he, hreport, -⟩ := hother.first
    have hfd : e.fd = fd := congrArg Prod.fst hreport
    have hservice : service e.fd = none := hfd ▸ hother.own fd hup List.mem_cons_self
    obtain ⟨hconn, hopen⟩ := hlive.batch.current e (he ▸ List.mem_cons_self) hservice
    rw [← hclients, ← hfd, ← List.reduceOption_mem_iff, hlive.table.used, hconn]
    exact hopen

end EmbeddedLinuxTraining.Telemetry.Connections
