import EmbeddedLinuxTraining.Library.Buffer
import EmbeddedLinuxTraining.Telemetry.Consistency
import EmbeddedLinuxTraining.Telemetry.Encoding

namespace EmbeddedLinuxTraining.Telemetry

open Library Library.Pthread Library.Transition

def formatMessage (msg : Buffer 256) (sample : Sample) : Buffer 256 × Int32 :=
  msg.snprintf (telemetryMessage sample)

def writtenMessage (msg : Buffer 256) (sample : Sample) : Option (List UInt8) :=
  (formatMessage msg sample).1.read (sizeOfInt (formatMessage msg sample).2)

structure Untruncated (msg : Buffer 256) (sample : Sample) : Prop where
  length : (formatMessage msg sample).2.toInt = (telemetryMessage sample).length
  fits : (formatMessage msg sample).2 < 256
  string : (formatMessage msg sample).1.text = telemetryMessage sample
  newline : ∃ text, telemetryMessage sample = text ++ [NEWLINE]
  written : writtenMessage msg sample = some (telemetryMessage sample)

theorem Sample.Fits.untruncated {sample : Sample} (h : sample.Fits) (msg : Buffer 256) :
    Untruncated msg sample := by
  have hlt := telemetryMessage_fits h
  have hholds : Buffer.Holds (formatMessage msg sample) (telemetryMessage sample) :=
    Buffer.snprintf_holds (by decide) (Nat.le_of_lt_succ hlt) (nul_not_mem_message h.nul)
  constructor
  · exact hholds.length
  · rw [Int32.lt_iff_toInt_lt, hholds.length]
    exact Int.ofNat_lt.mpr hlt
  · exact hholds.string
  · exact telemetryMessage_newline sample
  · exact hholds.read

def Stored (swVersion : CString) : Prop := swVersion.length ≤ 63 ∧ (0 : UInt8) ∉ swVersion

def Copied (l : Locals) : Point → Prop
  | .server .timerUnlock | .server .broadcast => Stored l.server.swVersion
  | _ => True

structure Copies (c : State) : Prop where
  copied : Copied (c.thread .server).loc (c.thread .server).pc
  sent : ∀ y ∈ c.shared.sent, Stored y.2.swVersion

variable {cJSONParse : CString → Option CJson} {s s' : Shared} {l l' : Locals} {x : Input} {c d : State}

theorem stored_snprintf (src : List UInt8) : Stored (snprintf 64 src) := by
  constructor
  · exact List.length_take_le _ _
  · intro hmem
    exact not_mem_cString _ (List.mem_of_mem_take hmem)

theorem server_copied {p q : ServerPoint} (hact : ServerAct x s l p q s' l') (h : Copied l (.server p)) :
    Copied l' (.server q) ∧ ∀ y ∈ s'.sent, y ∈ s.sent ∨ Stored y.2.swVersion := by
  cases hact with
  | timerVersion => exact ⟨stored_snprintf _, fun _ hy => .inl hy⟩
  | broadcast hf =>
    refine ⟨trivial, ?_⟩
    unfold broadcastTelemetry at hf
    split at hf
    · cases hf
      intro y hy
      refine (List.mem_append.mp hy).imp_right fun hnew => ?_
      obtain ⟨fd, -, rfl⟩ := List.mem_map.mp hnew
      exact h
    · cases hf
  | own hown =>
    refine ⟨?_, fun _ hy => .inl hy⟩
    cases hown <;> trivial
  | period | version | startTimer | setTimer | timerRead | notifyRead => exact ⟨trivial, fun _ hy => .inl hy⟩

theorem copied_next {p q : ServerPoint} (h : (code cJSONParse (.server p)).Next (.server q))
    (hp : Copied l (.server p)) : Copied l (.server q) := by
  cases p with
  | timerUnlock =>
    cases h
    exact hp
  | setupTest | loop | ready | failed | event | timerTest | expired | notifyTest =>
    rcases h with h | h <;> cases h <;> trivial
  | lock | unlock | timerLock =>
    cases h
    trivial
  | settime k => cases k <;> cases h
  | _ => cases h

theorem Copies.step {a : Label Agent Input} (h : Copies c) (hr : Reachable (program cJSONParse) c)
    (hstep : Step (code cJSONParse) c a d) : Copies d := by
  have hkeeps : Copied (d.thread .server).loc (d.thread .server).pc ∧
      ∀ y ∈ d.shared.sent, Stored y.2.swVersion := by
    apply server_keeps (G := fun s l p => Copied l p ∧ ∀ y ∈ s.sent, Stored y.2.swVersion) hr hstep
      ⟨h.copied, h.sent⟩
    · rintro p q l l' x - - hact ⟨hp, hold⟩
      obtain ⟨hcopied, hsent⟩ := server_copied hact hp
      refine ⟨hcopied, fun y hy => ?_⟩
      obtain hy | hnew := hsent y hy
      · exact hold y hy
      · exact hnew
    · exact fun p q s l hnext hp => ⟨copied_next hnext hp.1, hp.2⟩
    · rintro l p hsent - hp
      rw [hsent]
      exact hp
  exact ⟨hkeeps.1, hkeeps.2⟩

theorem copies_of_reachable (h : Reachable (program cJSONParse) c) : Copies c := by
  have hinv : Invariant (program cJSONParse) Copies := by
    constructor
    · intro c hc
      obtain ⟨l, hl⟩ := hc.server
      constructor
      · rw [hl.thread]
        trivial
      · rw [hc.nothing.1]
        exact fun _ hy => absurd hy List.not_mem_nil
    · exact fun c a d hr hc hstep => hc.step hr hstep
  exact hinv.holds h

/-- `msg` holds every message whole and the write takes it and nothing after it; the versions that the
server broadcasts are such as the bound is for. -/
theorem telemetry_message_length (cJSONParse : CString → Option CJson) (msg : Buffer 256) :
    (∀ (id : UInt64) (ts : Int64) (swVersion : CString) (period : Int32), swVersion.length ≤ 63 →
      (0 : UInt8) ∉ swVersion → Untruncated msg ⟨id, ts.toInt, swVersion, period⟩) ∧
    ∀ c, Reachable (program cJSONParse) c →
      ∀ y ∈ c.shared.sent, y.2.swVersion.length ≤ 63 ∧ (0 : UInt8) ∉ y.2.swVersion := by
  constructor
  · intro id ts swVersion period hlength hnul
    apply Sample.Fits.untruncated
    exact ⟨hlength, hnul, ts.le_toInt, ts.toInt_lt⟩
  · exact fun c hc => (copies_of_reachable hc).sent

theorem telemetry_message_length_widest : Untruncated ⟨List.replicate 256 255, List.length_replicate⟩
    ⟨18446744073709551615, Int64.minValue.toInt, List.replicate 63 97, Int32.minValue⟩ := by
  apply (telemetry_message_length (fun _ => none) _).1
  · decide
  · decide

end EmbeddedLinuxTraining.Telemetry
