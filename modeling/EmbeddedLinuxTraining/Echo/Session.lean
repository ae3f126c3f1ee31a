import EmbeddedLinuxTraining.Echo.Program

namespace EmbeddedLinuxTraining.Echo

open Library.Transition

def Echoed (s : State) : Prop := s.printed <+: s.sent

/-- The client's read returns the whole echo of its line, unless the connection is at its end. -/
def Client.Whole (n : ℕ) : Client → Prop
  | .reading line => n = 0 ∨ n = line.length
  | _ => True

instance (n : ℕ) : (client : Client) → Decidable (client.Whole n)
  | .reading line => inferInstanceAs (Decidable (n = 0 ∨ n = line.length))
  | .typing | .sending _ _ | .closed => isTrue trivial

def Whole (s : State) : Action → Prop
  | .clientRead n => s.client.Whole n
  | _ => True

instance (s : State) : (a : Action) → Decidable (Whole s a)
  | .clientRead n => inferInstanceAs (Decidable (s.client.Whole n))
  | .fgets _ | .clientWrite _ | .serverRead _ | .serverWrite _ => isTrue trivial

def Server.rest : Server → List UInt8
  | .echoing buf off => buf.drop off
  | _ => []

structure Outstanding (s : State) (line unsent : List UInt8) : Prop where
  arrived : s.down <+: line
  whole : s.server ≠ .closed → s.down ++ s.server.rest ++ s.up ++ unsent = line

def InTime (s : State) : Prop :=
  match s.client with
  | .typing => s.printed = s.sent ∧ Outstanding s [] []
  | .sending line off => s.sent = s.printed ++ [line] ∧ Typed line ∧ Outstanding s line (line.drop off)
  | .reading line => s.sent = s.printed ++ [line] ∧ Typed line ∧ Outstanding s line []
  | .closed => s.printed <+: s.sent

variable {s t u : State} {line unsent buf : List UInt8} {off n : ℕ}

theorem printf_typed (h : Typed line) : printf line = line := by
  apply List.takeWhile_eq_self_iff.mpr
  intro b hb
  apply decide_eq_true
  rintro rfl
  exact h.nul hb

theorem taken_append_drop (buf : List UInt8) (off n : ℕ) :
    taken buf off n ++ buf.drop (off + n) = buf.drop off := by
  rw [taken, ← List.drop_drop, List.take_append_drop]

structure Served (s t : State) : Prop where
  client : t.client = s.client
  sent : t.sent = s.sent
  printed : t.printed = s.printed
  outstanding : ∀ line unsent, Outstanding s line unsent → Outstanding t line unsent

theorem serverRead_served (ht : s.serverRead n = some t) : Served s t := by
  unfold State.serverRead at ht
  split at ht
  · rename_i hserver
    split_ifs at ht with hn hend hread
    · cases ht
      refine ⟨rfl, rfl, rfl, fun line unsent h => ⟨h.arrived, ?_⟩⟩
      intro hc
      exact absurd rfl hc
    · cases ht
      refine ⟨rfl, rfl, rfl, fun line unsent h => ⟨h.arrived, ?_⟩⟩
      intro _
      have hwhole : s.down ++ s.server.rest ++ s.up ++ unsent = line := by
        apply h.whole
        rw [hserver]
        nofun
      rw [hserver] at hwhole
      change s.down ++ (s.up.take n).drop 0 ++ s.up.drop n ++ unsent = line
      rw [List.drop_zero, List.append_assoc s.down, List.take_append_drop, ← hwhole]
      simp [Server.rest]
  · cases ht

theorem serverWrite_served {w : Write} (ht : s.serverWrite w = some t) : Served s t := by
  unfold State.serverWrite at ht
  split at ht
  · rename_i buf off n hserver
    obtain ⟨hn, ht⟩ := Option.ite_none_right_eq_some.mp ht
    have hrest : (if off + n < buf.length then Server.echoing buf (off + n) else .waiting).rest =
        buf.drop (off + n) := by
      split_ifs with hlt
      · rfl
      · exact (List.drop_eq_nil_of_le (Nat.le_of_not_lt hlt)).symm
    cases ht
    refine ⟨rfl, rfl, rfl, fun line unsent h => ?_⟩
    have hwhole : s.down ++ s.server.rest ++ s.up ++ unsent = line := by
      apply h.whole
      rw [hserver]
      nofun
    have hpassed : s.down ++ taken buf off n ++ buf.drop (off + n) ++ s.up ++ unsent = line := by
      rw [List.append_assoc s.down, taken_append_drop, ← hwhole, hserver]
      rfl
    constructor
    · rw [← hpassed]
      simp only [List.append_assoc]
      rw [← List.append_assoc]
      exact List.prefix_append _ _
    · intro _
      change s.down ++ taken buf off n ++ Server.rest (if _ then _ else _) ++ s.up ++ unsent = line
      rw [hrest, hpassed]
  · cases ht
    exact ⟨rfl, rfl, rfl, fun _ _ h => h⟩
  · cases ht
    refine ⟨rfl, rfl, rfl, fun line unsent h => ⟨h.arrived, ?_⟩⟩
    intro hc
    exact absurd rfl hc
  · cases ht

theorem InTime.served (h : InTime s) (hs : Served s t) : InTime t := by
  unfold InTime at h ⊢
  rw [hs.client, hs.sent, hs.printed]
  split at h
  · exact ⟨h.1, hs.outstanding _ _ h.2⟩
  · exact ⟨h.1, h.2.1, hs.outstanding _ _ h.2.2⟩
  · exact ⟨h.1, h.2.1, hs.outstanding _ _ h.2.2⟩
  · exact h

theorem InTime.echoed (h : InTime s) : Echoed s := by
  unfold InTime at h
  unfold Echoed
  split at h
  · exact ⟨[], by rw [List.append_nil, h.1]⟩
  · rw [h.1]
    exact List.prefix_append _ _
  · rw [h.1]
    exact List.prefix_append _ _
  · exact h

theorem InTime.close (h : InTime s) : InTime { s with client := .closed } := h.echoed

theorem InTime.fgets (h : InTime s) {input : Option (List UInt8)} (ht : s.fgets input = some t) :
    InTime t := by
  unfold State.fgets at ht
  split at ht
  · rename_i line hclient
    obtain ⟨htyped, ht⟩ := Option.ite_none_right_eq_some.mp ht
    cases ht
    unfold InTime at h
    rw [hclient] at h
    obtain ⟨hprinted, hout⟩ := h
    refine ⟨?_, htyped, ?_, ?_⟩
    · change s.sent ++ [line] = s.printed ++ [line]
      rw [hprinted]
    · have hdown : s.down = [] := List.prefix_nil.mp hout.arrived
      change s.down <+: line
      rw [hdown]
      exact List.nil_prefix
    · intro hopen
      have hwhole := hout.whole hopen
      rw [List.append_nil] at hwhole
      change s.down ++ s.server.rest ++ s.up ++ line.drop 0 = line
      rw [hwhole, List.nil_append, List.drop_zero]
  · cases ht
    exact h.close
  · cases ht

theorem InTime.clientWrite (h : InTime s) {w : Write} (ht : s.clientWrite w = some t) : InTime t := by
  unfold State.clientWrite at ht
  split at ht
  · rename_i line off n hclient
    obtain ⟨-, ht⟩ := Option.ite_none_right_eq_some.mp ht
    unfold InTime at h
    rw [hclient] at h
    obtain ⟨hsent, htyped, hout⟩ := h
    have hnext : Outstanding { s with up := s.up ++ taken line off n } line (line.drop (off + n)) := by
      refine ⟨hout.arrived, fun hopen => ?_⟩
      change s.down ++ s.server.rest ++ (s.up ++ taken line off n) ++ line.drop (off + n) = line
      rw [← List.append_assoc, List.append_assoc _ (taken line off n), taken_append_drop]
      exact hout.whole hopen
    split_ifs at ht with hlt
    · cases ht
      exact ⟨hsent, htyped, hnext.arrived, hnext.whole⟩
    · cases ht
      rw [List.drop_eq_nil_of_le (Nat.le_of_not_lt hlt)] at hnext
      exact ⟨hsent, htyped, hnext.arrived, hnext.whole⟩
  · cases ht
    exact h
  · cases ht
    exact h.close
  · cases ht

theorem InTime.read (h : InTime s) (hclient : s.client = .reading line) :
    s.sent = s.printed ++ [line] ∧ Typed line ∧ Outstanding s line [] := by
  unfold InTime at h
  rwa [hclient] at h

theorem InTime.clientRead (h : InTime s) (hwhole : Whole s (.clientRead n)) (ht : s.clientRead n = some t) :
    InTime t := by
  unfold State.clientRead at ht
  split at ht
  · rename_i line hclient
    obtain ⟨hsent, htyped, hout⟩ := h.read hclient
    split_ifs at ht with hn hend hread
    · cases ht
      exact h.close
    · have hlen : n = line.length := by
        unfold Whole at hwhole
        rw [hclient] at hwhole
        exact hwhole.resolve_left hn
      have hdown : s.down = line := by
        apply hout.arrived.eq_of_length_le
        rw [← hlen]
        exact hread.2
      cases ht
      rw [hlen, hdown, List.take_length, List.drop_length, printf_typed htyped]
      refine ⟨hsent.symm, List.prefix_refl _, fun hopen => ?_⟩
      have hall := hout.whole hopen
      rw [hdown, List.append_nil, List.append_assoc] at hall
      have hempty : s.server.rest ++ s.up = [] := List.append_right_eq_self.mp hall
      change [] ++ s.server.rest ++ s.up ++ [] = []
      rw [List.append_nil, List.nil_append, hempty]
  · cases ht

theorem inTime_invariant : Invariant (session.restrict Whole) InTime := by
  constructor
  · rintro s rfl
    refine ⟨rfl, List.prefix_refl _, fun _ => rfl⟩
  · intro s a t _ h ht
    obtain ⟨ht, hwhole⟩ := ht
    cases a with
    | fgets line => exact h.fgets ht
    | clientWrite w => exact h.clientWrite ht
    | clientRead n => exact h.clientRead hwhole ht
    | serverRead n => exact h.served (serverRead_served ht)
    | serverWrite w => exact h.served (serverWrite_served ht)

theorem fgets_grows {input : Option (List UInt8)} (ht : s.fgets input = some t) :
    s.printed <+: t.printed ∧ s.sent <+: t.sent := by
  unfold State.fgets at ht
  split at ht
  · obtain ⟨-, ht⟩ := Option.ite_none_right_eq_some.mp ht
    cases ht
    exact ⟨List.prefix_refl _, List.prefix_append _ _⟩
  · cases ht
    exact ⟨List.prefix_refl _, List.prefix_refl _⟩
  · cases ht

theorem clientWrite_grows {w : Write} (ht : s.clientWrite w = some t) :
    s.printed <+: t.printed ∧ s.sent <+: t.sent := by
  unfold State.clientWrite at ht
  split at ht
  · obtain ⟨-, ht⟩ := Option.ite_none_right_eq_some.mp ht
    cases ht
    exact ⟨List.prefix_refl _, List.prefix_refl _⟩
  · cases ht
    exact ⟨List.prefix_refl _, List.prefix_refl _⟩
  · cases ht
    exact ⟨List.prefix_refl _, List.prefix_refl _⟩
  · cases ht

theorem clientRead_grows (ht : s.clientRead n = some t) : s.printed <+: t.printed ∧ s.sent <+: t.sent := by
  unfold State.clientRead at ht
  split at ht
  · split_ifs at ht
    · cases ht
      exact ⟨List.prefix_refl _, List.prefix_refl _⟩
    · cases ht
      exact ⟨List.prefix_append _ _, List.prefix_refl _⟩
  · cases ht

theorem next_grows {a : Action} (ht : s.next a = some t) : s.printed <+: t.printed ∧ s.sent <+: t.sent := by
  cases a with
  | fgets line => exact fgets_grows ht
  | clientWrite w => exact clientWrite_grows ht
  | clientRead n => exact clientRead_grows ht
  | serverRead n =>
    have hs := serverRead_served ht
    rw [hs.printed, hs.sent]
    exact ⟨List.prefix_refl _, List.prefix_refl _⟩
  | serverWrite w =>
    have hs := serverWrite_served ht
    rw [hs.printed, hs.sent]
    exact ⟨List.prefix_refl _, List.prefix_refl _⟩

theorem grows (h : Reachable (session.after t) u) : t.printed <+: u.printed ∧ t.sent <+: u.sent := by
  induction h with
  | start hu =>
    rw [show _ = t from hu]
    exact ⟨List.prefix_refl _, List.prefix_refl _⟩
  | next _ ht ih =>
    obtain ⟨hprinted, hsent⟩ := next_grows ht
    exact ⟨ih.1.trans hprinted, ih.2.trans hsent⟩

theorem InTime.clientRead_off (h : InTime s) (hwhole : ¬ Whole s (.clientRead n))
    (ht : s.clientRead n = some t) : t.printed.length = t.sent.length ∧ t.printed ≠ t.sent := by
  obtain ⟨line, hclient⟩ : ∃ line, s.client = .reading line := by
    unfold State.clientRead at ht
    split at ht
    · rename_i line hclient
      exact ⟨line, hclient⟩
    · cases ht
  unfold Whole at hwhole
  rw [hclient] at hwhole
  obtain ⟨hn, hne⟩ := not_or.mp hwhole
  obtain ⟨hsent, htyped, hout⟩ := h.read hclient
  unfold State.clientRead at ht
  rw [hclient] at ht
  simp only [if_neg hn] at ht
  obtain ⟨⟨-, hle⟩, ht⟩ := Option.ite_none_right_eq_some.mp ht
  have hlt : n < line.length := by
    apply Nat.lt_of_le_of_ne _ hne
    exact hle.trans hout.arrived.length_le
  have hshort : (printf (s.down.take n)).length < line.length := by
    apply Nat.lt_of_le_of_lt _ hlt
    exact (List.takeWhile_prefix _).length_le.trans (List.length_take_le n s.down)
  cases ht
  rw [hsent]
  constructor
  · rw [List.length_append, List.length_append]
    rfl
  · intro he
    have hline : [printf (s.down.take n)] = [line] := List.append_cancel_left he
    rw [List.singleton_inj.mp hline] at hshort
    exact Nat.lt_irrefl _ hshort

/-- While every read has returned the whole echo the client has printed the lines that it has sent; after
one read that does not, it never has again. -/
theorem echoed_whole (s : State) (hs : Reachable (session.restrict Whole) s) :
    Echoed s ∧ ∀ t a, s.next a = some t → ¬ Whole s a → ∀ u, Reachable (session.after t) u → ¬ Echoed u := by
  constructor
  · exact (inTime_invariant.holds hs).echoed
  · intro t a ht hwhole u hu hechoed
    cases a with
    | clientRead n =>
      obtain ⟨hlen, hne⟩ := (inTime_invariant.holds hs).clientRead_off hwhole ht
      obtain ⟨hprinted, hsent⟩ := grows hu
      apply hne
      have hle : t.printed.length ≤ t.sent.length := Nat.le_of_eq hlen
      exact (List.prefix_of_prefix_length_le (hprinted.trans hechoed) hsent hle).eq_of_length hlen
    | fgets | clientWrite | serverRead | serverWrite => exact hwhole trivial

def typedLine : List UInt8 := [97, 98, 10]

def sendLine : List Action := [.fgets (some typedLine), .clientWrite (.accepted 1), .clientWrite .interrupted,
  .clientWrite (.accepted 2), .serverRead 2, .serverWrite (.accepted 1)]

def partWay : State := ⟨.reading typedLine, .echoing [97, 98] 1, [10], [97], [typedLine], []⟩

def receiveLine : List Action :=
  [.serverWrite (.accepted 1), .serverRead 1, .serverWrite (.accepted 1), .clientRead 3]

theorem whole_execute (as : List Action) (h : Reachable (session.restrict Whole) s)
    (he : execute (fun s a => if Whole s a then s.next a else none) s as = some t) :
    Reachable (session.restrict Whole) t := by
  apply h.execute _ he
  intro s a t hs
  obtain ⟨ha, hs⟩ := Option.ite_none_right_eq_some.mp hs
  exact ⟨hs, ha⟩

theorem partWay_reachable : Reachable (session.restrict Whole) partWay := by
  apply whole_execute sendLine (.start rfl)
  decide

theorem echoed_whole_line :
    (∃ s, execute State.next partWay receiveLine = some s ∧ s.printed = [typedLine] ∧ Echoed s) ∧
    ∃ t, partWay.next (.clientRead 1) = some t ∧ t.printed = [[97]] ∧ ¬ Echoed t := by
  constructor
  · have hreach : Reachable (session.restrict Whole)
        ⟨.typing, .waiting, [], [], [typedLine], [typedLine]⟩ := by
      apply whole_execute receiveLine partWay_reachable
      decide
    exact ⟨_, by decide, rfl, (echoed_whole _ hreach).1⟩
  · have hread : partWay.next (.clientRead 1) = some { partWay with
        client := .typing, down := [], printed := [[97]] } := by decide
    exact ⟨_, hread, rfl, (echoed_whole partWay partWay_reachable).2 _ _ hread (by decide) _ (.start rfl)⟩

theorem not_echoed : ¬ ∀ s, Reachable session s → Echoed s := by
  intro h
  have hreach : Reachable session { partWay with client := .typing, down := [], printed := [[97]] } := by
    apply partWay_reachable.of_restrict.next (a := .clientRead 1)
    change partWay.next _ = _
    decide
  have hno : ¬ [[97]] <+: [typedLine] := by decide
  exact hno (h _ hreach)

end EmbeddedLinuxTraining.Echo
