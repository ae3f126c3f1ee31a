import EmbeddedLinuxTraining.Telemetry.Propagation

namespace EmbeddedLinuxTraining.Telemetry

open Library.Pthread Library.Transition

variable (cJSONParse : CString → Option CJson)

def Held (s : Shared) (pair : Settings) : Prop :=
  pair = defaults ∨ ∃ content ∈ s.applied, settingsOf cJSONParse content = some pair

def Sample.pair (sample : Sample) : Settings := ⟨sample.swVersion, sample.period⟩

/-- When the timer handler copies the version, not both fields have changed since the last copy. -/
def Consistent (c : State) (a : Label Agent Input) : Prop :=
  (c.thread a.actor).pc = .server .timerVersion →
    c.shared.gCfg.periodSec = (c.thread a.actor).loc.server.period ∨
    c.shared.gCfg.swVersion = (c.thread a.actor).loc.server.swVersion

instance (c : State) (a : Label Agent Input) : Decidable (Consistent c a) :=
  inferInstanceAs (Decidable (_ → _ ∨ _))

def ServerPoint.paired : ServerPoint → Bool
  | .setup | .setupTest | .lock .startup | .period .startup | .version _ | .close | .done => false
  | _ => true

def Paired (s : Shared) (l : Locals) : Point → Prop
  | .server p => p.paired = true → Held cJSONParse s l.server.pair
  | _ => True

variable {cJSONParse} {s s' : Shared} {l l' : Locals} {x : Input} {c d : State}

theorem Held.mono {pair : Settings} (h : Held cJSONParse s pair) (hs : s.applied ⊆ s'.applied) :
    Held cJSONParse s' pair := by
  refine h.imp_right ?_
  rintro ⟨content, hmem, hp⟩
  exact ⟨content, hs hmem, hp⟩

theorem Current.held (h : Current cJSONParse s) : Held cJSONParse s s.gCfg.pair := by
  unfold Current at h
  split at h
  · exact .inl h
  · rename_i content hlast
    exact .inr ⟨content, List.mem_of_getLast? hlast, h⟩

theorem held_copyVersion (hc : Current cJSONParse s) (hl : Held cJSONParse s l.server.pair)
    (h : s.gCfg.periodSec = l.server.period ∨ s.gCfg.swVersion = l.server.swVersion) :
    Held cJSONParse s (copyVersion s l).2.server.pair := by
  have hpair : (copyVersion s l).2.server.pair = ⟨s.gCfg.swVersion, l.server.period⟩ := by
    simp only [copyVersion, Server.pair, hc.snprintf]
  rw [hpair]
  rcases h with h | h
  · rw [← h]
    exact hc.held
  · rw [h]
    exact hl

theorem held_broadcast (hl : Held cJSONParse s l.server.pair)
    (hf : broadcastTelemetry x s l = some (s', l')) : Held cJSONParse s' l'.server.pair ∧
      ∀ y ∈ s'.sent, y ∈ s.sent ∨ Held cJSONParse s' y.2.pair := by
  unfold broadcastTelemetry at hf
  split at hf
  · cases hf
    refine ⟨hl, fun y hy => (List.mem_append.mp hy).imp_right fun hnew => ?_⟩
    obtain ⟨fd, -, rfl⟩ := List.mem_map.mp hnew
    exact hl
  · cases hf

theorem server_paired {p q : ServerPoint} (hact : ServerAct x s l p q s' l')
    (hs : ServerStand cJSONParse s l.server p) (hp : Paired cJSONParse s l (.server p))
    (hcons : p = .timerVersion →
      s.gCfg.periodSec = l.server.period ∨ s.gCfg.swVersion = l.server.swVersion) :
    Paired cJSONParse s' l' (.server q) ∧ ∀ y ∈ s'.sent, y ∈ s.sent ∨ Held cJSONParse s' y.2.pair := by
  obtain ⟨-, hstand, -⟩ := server_act hact hs
  cases hact with
  | period k => exact ⟨nofun, fun _ hy => .inl hy⟩
  | version k =>
    refine ⟨fun _ => ?_, fun _ hy => .inl hy⟩
    rw [hstand.2]
    exact hstand.1.held
  | timerVersion => exact ⟨fun _ => held_copyVersion hs.1 (hp rfl) (hcons rfl), fun _ hy => .inl hy⟩
  | startTimer | setTimer | timerRead | notifyRead => exact ⟨fun _ => hp rfl, fun _ hy => .inl hy⟩
  | broadcast hf =>
    obtain ⟨hheld, hsent⟩ := held_broadcast (hp rfl) hf
    exact ⟨fun _ => hheld, hsent⟩
  | own hown hpair =>
    refine ⟨?_, fun _ hy => .inl hy⟩
    unfold Paired at hp ⊢
    rw [hpair]
    cases hown with
    | setup | close => exact nofun
    | register | epollWait | other | next => exact fun _ => hp rfl

theorem paired_next {p q : ServerPoint} (h : (code cJSONParse (.server p)).Next (.server q))
    (hq : q.paired = true) : p.paired = true := by
  cases p with
  | setupTest =>
    rcases h with h | h <;> cases h <;> cases hq
  | lock k =>
    cases h
    cases k
    · cases hq
    · rfl
  | setup | period | version => cases h
  | settime k => cases k <;> cases h
  | close | done => cases h
  | _ => rfl

structure Pairs (cJSONParse : CString → Option CJson) (c : State) : Prop where
  paired : Paired cJSONParse c.shared (c.thread .server).loc (c.thread .server).pc
  sent : ∀ y ∈ c.shared.sent, Held cJSONParse c.shared y.2.pair

theorem Paired.mono {p : Point} (h : Paired cJSONParse s l p) (hs : s.applied ⊆ s'.applied) :
    Paired cJSONParse s' l p := by
  cases p with
  | server p => exact fun hp => (h hp).mono hs
  | _ => trivial

theorem Pairs.step {a : Label Agent Input} (h : Pairs cJSONParse c) (hr : Reachable (program cJSONParse) c)
    (hstep : Step (code cJSONParse) c a d) (hcons : Consistent c a) : Pairs cJSONParse d := by
  have hkeeps : Paired cJSONParse d.shared (d.thread .server).loc (d.thread .server).pc ∧
      ∀ y ∈ d.shared.sent, Held cJSONParse d.shared y.2.pair := by
    apply server_keeps (G := fun s l p => Paired cJSONParse s l p ∧
      ∀ y ∈ s.sent, Held cJSONParse s y.2.pair) hr hstep ⟨h.paired, h.sent⟩
    · rintro p q l l' x ha hat hact ⟨hp, hold⟩
      have hstand : ServerStand cJSONParse c.shared l.server p := ((program_sat hr).at hat).stand
      have hcopy : p = .timerVersion → c.shared.gCfg.periodSec = l.server.period ∨
          c.shared.gCfg.swVersion = l.server.swVersion := by
        rintro rfl
        unfold Consistent at hcons
        rw [ha, hat.thread] at hcons
        exact hcons rfl
      obtain ⟨hpaired, hsent⟩ := server_paired hact hstand hp hcopy
      obtain ⟨-, -, hkeep⟩ := server_act hact hstand
      refine ⟨hpaired, fun y hy => ?_⟩
      obtain hy | hnew := hsent y hy
      · exact (hold y hy).mono (hkeep.applied ▸ List.Subset.refl _)
      · exact hnew
    · exact fun p q s l hnext hp => ⟨fun hq => hp.1 (paired_next hnext hq), hp.2⟩
    · rintro l p hsent happlied ⟨hp, hold⟩
      refine ⟨hp.mono happlied, fun y hy => ?_⟩
      rw [hsent] at hy
      exact (hold y hy).mono happlied
  exact ⟨hkeeps.1, hkeeps.2⟩

theorem pairs_of_reachable (h : Reachable ((program cJSONParse).restrict Consistent) c) :
    Pairs cJSONParse c := by
  have hinv : Invariant ((program cJSONParse).restrict Consistent) (Pairs cJSONParse) := by
    constructor
    · intro c hc
      obtain ⟨l, hl⟩ := hc.server
      constructor
      · rw [hl.thread]
        exact nofun
      · rw [hc.nothing.1]
        exact nofun
    · intro c a d hr hp hstep
      exact hp.step hr.of_restrict hstep.1 hstep.2
  exact hinv.holds h

theorem consistent_samples (h : Reachable ((program cJSONParse).restrict Consistent) c) :
    ∀ y ∈ c.shared.sent, Held cJSONParse c.shared y.2.pair :=
  (pairs_of_reachable h).sent

/-- The file `{"sw_version":"2","period":7}` -/
def secondFile : List UInt8 := ascii ['\x7b', '"', 's', 'w', '_', 'v', 'e', 'r', 's', 'i', 'o', 'n', '"', ':',
  '"', '2', '"', ',', '"', 'p', 'e', 'r', 'i', 'o', 'd', '"', ':', '7', '\x7d']

def bothParse (buf : CString) : Option CJson :=
  if buf = secondFile then some (.object [(SW_VERSION, .string (ascii ['2'])), (PERIOD, .number 7 (Library.Binary64.nearest false 7 1))])
  else firstParse buf

def expiry : List (Label Agent Input) :=
  [.run .server, .input .environment .tick, .input .server (.events [.listen, .timer]), .run .server, .run .server,
    .run .server, .run .server, .input .server (.accepted [4]), .input .server .none, .run .server,
    .run .server, .input .server .none, .run .server, .run .server, .input .server .none, .run .server,
    .input .server (.now 0)]

def reloaded : List (Label Agent Input) :=
  [.input .environment (.file (.renameOver secondFile 0)), .input .monitor (.poll .ready), .run .monitor,
    .input .monitor (.read 0), .run .monitor, .run .monitor, .input .monitor .none, .run .monitor,
    .run .monitor, .input .monitor .none, .input .monitor .none, .input .monitor .none,
    .input .monitor .none, .run .monitor, .run .monitor, .input .monitor .none]

theorem consistent_samples_first : ∃ c : State, c.shared.sent = [(4, ⟨0, 0, ascii ['1'], 2⟩)] ∧
    ∀ y ∈ c.shared.sent, Held bothParse c.shared y.2.pair := by
  have hrun : (execWhere (fun c a => decide (Consistent c a)) (code bothParse) start
      (startup ++ handled ++ expiry)).isSome = true := by decide
  have hreach : Reachable ((program bothParse).restrict Consistent) (Option.get _ hrun) :=
    reachable_of_execWhere (fun _ _ => of_decide_eq_true) (.start start_init) (Option.some_get hrun).symm
  exact ⟨_, rfl, consistent_samples hreach⟩

theorem samples_mixed : ¬ ∀ (cJSONParse : CString → Option CJson) (c : State),
    Reachable (program cJSONParse) c → ∀ y ∈ c.shared.sent, Held cJSONParse c.shared y.2.pair := by
  intro h
  have hrun : (execAll (code bothParse) start (startup ++ handled ++ reloaded ++ expiry)).isSome = true := by
    decide
  have hreach : Reachable (program bothParse) (Option.get _ hrun) :=
    reachable_of_execAll start_init (Option.some_get hrun).symm
  have hheld := h bothParse _ hreach (4, ⟨0, 0, ascii ['2'], 2⟩) (List.mem_singleton_self _)
  rcases hheld with hdefault | ⟨content, hmem, hs⟩
  · cases hdefault
  · have happlied : content ∈ [firstFile, secondFile] := hmem
    rw [List.mem_pair] at happlied
    rcases happlied with rfl | rfl
    · have hno : settingsOf bothParse firstFile ≠ some ⟨ascii ['2'], 2⟩ := by decide
      exact hno hs
    · have hno : settingsOf bothParse secondFile ≠ some ⟨ascii ['2'], 2⟩ := by decide
      exact hno hs

end EmbeddedLinuxTraining.Telemetry
