import Mathlib
import EmbeddedLinuxTraining.Ipc.Delivery
import EmbeddedLinuxTraining.Ipc.WireFormat

namespace EmbeddedLinuxTraining.Ipc

open Library.Transition

/-- What a tick makes of messages. `draft` is one with its field set and its text still to be printed. -/
structure Ticks where
  built : List IpcMsg
  draft : Option IpcMsg
  seq : UInt32
  count : Int32

namespace Ticks

def build (v : Ticks) (now : UInt64) : Ticks :=
  { v with draft := some (buildMsg (v.seq + 1) now v.count), seq := v.seq + 1 }

def print (v : Ticks) (m : IpcMsg) : Ticks := { v with built := v.built ++ [m.print v.count], draft := none }

def signal (v : Ticks) : Ticks := { v with count := v.count + 1 }

def messages (v : Ticks) : List IpcMsg := v.built ++ v.draft.toList

def stamps (v : Ticks) : List (UInt32 × Int32) := v.messages.map fun m => (m.seq, m.sigCount)

structure Sound (v : Ticks) : Prop where
  agree : ∀ m ∈ v.built, m.Holds (tickText m.seq m.sigCount)
  draft : ∀ m, v.draft = some m → m.sigCount = v.count
  rising : v.stamps.Pairwise fun p q => p.2 ≤ q.2
  bound : ∀ p ∈ v.stamps, p.2 ≤ v.count
  numbered : v.stamps.length < 2 ^ 32 → v.seq.toNat = v.stamps.length ∧
    v.stamps.Pairwise (fun p q => p.1 < q.1) ∧ ∀ p ∈ v.stamps, p.1 ≤ v.seq
  flat : 2 ^ 32 ≤ v.stamps.length → ∀ p ∈ v.stamps, ∀ q ∈ v.stamps, p.2 = q.2

variable {v : Ticks} {m : IpcMsg} {now : UInt64}

theorem stamps_build (hdraft : v.draft = none) :
    (v.build now).stamps = v.stamps ++ [(v.seq + 1, v.count)] := by
  simp [stamps, messages, build, hdraft, buildMsg]

theorem stamps_print (hdraft : v.draft = some m) : (v.print m).stamps = v.stamps := by
  simp [stamps, messages, print, hdraft, IpcMsg.print]

theorem Sound.build (h : v.Sound) (hdraft : v.draft = none)
    (hticks : v.built.length + 1 < 2 ^ 32 ∨ ∀ m ∈ v.built, m.sigCount = v.count) : (v.build now).Sound := by
  have hstamps : v.stamps = v.built.map fun m => (m.seq, m.sigCount) := by
    simp [stamps, messages, hdraft]
  have hlength : v.stamps.length = v.built.length := by
    rw [hstamps, List.length_map]
  constructor
  · exact h.agree
  · intro m hm
    cases hm
    rfl
  · rw [stamps_build hdraft, List.pairwise_append]
    refine ⟨h.rising, List.pairwise_singleton _ _, ?_⟩
    intro p hp q hq
    rw [List.mem_singleton.mp hq]
    exact h.bound p hp
  · intro p hp
    rw [stamps_build hdraft] at hp
    apply (List.mem_append.mp hp).elim (h.bound p)
    intro hp
    rw [List.mem_singleton.mp hp]
    exact Int32.le_refl _
  · rw [stamps_build hdraft, List.length_append, List.length_singleton]
    intro hlt
    obtain ⟨hseq, hsorted, hupto⟩ := h.numbered (by omega)
    have hsucc : (v.seq + 1).toNat = v.seq.toNat + 1 := by
      rw [UInt32.toNat_add, UInt32.toNat_one]
      omega
    have hbefore : ∀ p ∈ v.stamps, p.1 < v.seq + 1 := by
      intro p hp
      have hle := UInt32.le_iff_toNat_le.mp (hupto p hp)
      rw [UInt32.lt_iff_toNat_lt]
      omega
    refine ⟨?_, ?_, ?_⟩
    · exact hsucc.trans (congrArg (· + 1) hseq)
    · rw [List.pairwise_append]
      refine ⟨hsorted, List.pairwise_singleton _ _, ?_⟩
      intro p hp q hq
      rw [List.mem_singleton.mp hq]
      exact hbefore p hp
    · intro p hp
      apply (List.mem_append.mp hp).elim
      · intro hp
        exact UInt32.le_of_lt (hbefore p hp)
      · intro hp
        rw [List.mem_singleton.mp hp]
        exact UInt32.le_refl _
  · rw [stamps_build hdraft, List.length_append, List.length_singleton]
    intro hlong
    have hall : ∀ p ∈ v.stamps ++ [(v.seq + 1, v.count)], p.2 = v.count := by
      intro p hp
      apply (List.mem_append.mp hp).elim
      · intro hp
        rw [hstamps] at hp
        obtain ⟨m, hm, rfl⟩ := List.mem_map.mp hp
        apply hticks.elim _ (fun hsame => hsame m hm)
        omega
      · intro hp
        rw [List.mem_singleton.mp hp]
    intro p hp q hq
    rw [hall p hp, hall q hq]

theorem Sound.print (h : v.Sound) (hdraft : v.draft = some m) : (v.print m).Sound := by
  have hstamps := stamps_print hdraft
  constructor
  · intro m' hm'
    apply (List.mem_append.mp hm').elim (h.agree m')
    intro hm'
    rw [List.mem_singleton.mp hm', ← h.draft m hdraft]
    exact print_holds m m.sigCount
  · intro m' hm'
    cases hm'
  · rw [hstamps]
    exact h.rising
  · rw [hstamps]
    exact h.bound
  · rw [hstamps]
    exact h.numbered
  · rw [hstamps]
    exact h.flat

theorem Sound.signal (h : v.Sound) (hdraft : v.draft = none) (hcount : v.count.toInt + 1 < 2 ^ 31) :
    v.signal.Sound := by
  have hsucc : v.count ≤ v.count + 1 := by
    have hlo := v.count.le_toInt
    rw [Int32.le_iff_toInt_le, Int32.toInt_add, Int32.toInt_one, Int.bmod_eq_of_le] <;> omega
  constructor
  · exact h.agree
  · intro m hm
    rw [Ticks.signal, hdraft] at hm
    cases hm
  · exact h.rising
  · intro p hp
    exact Int32.le_trans (h.bound p hp) hsucc
  · exact h.numbered
  · exact h.flat

theorem Sound.monotone (h : v.Sound) : ∀ p ∈ v.stamps, ∀ q ∈ v.stamps, p.1 ≤ q.1 → p.2 ≤ q.2 := by
  intro p hp q hq
  by_cases hlt : v.stamps.length < 2 ^ 32
  · obtain ⟨-, hsorted, -⟩ := h.numbered hlt
    have hforward : v.stamps.Pairwise fun p q => p.1 ≤ q.1 → p.2 ≤ q.2 := by
      apply h.rising.imp
      intro p q hcount _
      exact hcount
    have hbackward : v.stamps.Pairwise (flip fun p q => p.1 ≤ q.1 → p.2 ≤ q.2) := by
      apply hsorted.imp
      intro p q hseq hle
      exact absurd hseq (UInt32.not_lt.mpr hle)
    exact hforward.forall_of_forall_of_flip (fun p _ _ => Int32.le_refl _) hbackward hp hq
  · rw [h.flat (Nat.not_lt.mp hlt) p hp q hq]
    intro _
    exact Int32.le_refl _

end Ticks

variable {ι : Type}

def ServerPoint.printed : ServerPoint → Bool
  | .semWait | .blocked | .memcpy _ => true
  | _ => false

def ServerPoint.draft (msg : IpcMsg) : ServerPoint → Option IpcMsg
  | .print => some msg
  | _ => none

namespace State

def built (s : State ι) : List IpcMsg := s.copied ++ if s.server.pc.printed then [s.server.msg] else []

def ticks (s : State ι) : Ticks :=
  ⟨s.built, s.server.pc.draft s.server.msg, s.server.seq, s.server.gSigusr1Count⟩

end State

structure SelfConsistent (s : State ι) : Prop where
  agree : ∀ m ∈ s.built, m.Holds (tickText m.seq m.sigCount)
  monotone : ∀ m ∈ s.built, ∀ m' ∈ s.built, m.seq ≤ m'.seq → m.sigCount ≤ m'.sigCount

/-- No handler runs between the two reads, the counter does not overflow, and when `seq` has been
through all its values no signal has been counted since the first message. -/
structure Quiet (s : State ι) (a : Action ι) : Prop where
  apart : a = .sigusr1 → s.server.pc ≠ .print
  counted : a = .sigusr1 → s.server.gSigusr1Count.toInt + 1 < 2 ^ 31
  ticks : ∀ now, a = .server now → s.server.pc = .loop →
    s.copied.length + 1 < 2 ^ 32 ∨ ∀ m ∈ s.copied, m.sigCount = s.server.gSigusr1Count

variable {s t : State ι} {now : UInt64}

theorem semWait_ticks (hp : s.server.pc = .semWait ∨ s.server.pc = .blocked) : s.semWait.ticks = s.ticks := by
  have hprinted : s.server.pc.printed = true := by
    obtain hp | hp := hp <;> rw [hp] <;> rfl
  have hdraft : s.server.pc.draft s.server.msg = none := by
    obtain hp | hp := hp <;> rw [hp] <;> rfl
  unfold State.semWait State.ticks State.built
  rw [hprinted, hdraft]
  by_cases hvalue : 0 < s.value
  · simp [hvalue, ServerPoint.printed, ServerPoint.draft]
  · simp [hvalue, ServerPoint.printed, ServerPoint.draft]

theorem server_ticks (hs : s.serverNext now = some t) :
    (s.server.pc = .loop ∧ t.ticks = s.ticks.build now) ∨
      (∃ m, s.ticks.draft = some m ∧ t.ticks = s.ticks.print m) ∨ t.ticks = s.ticks := by
  unfold State.serverNext at hs
  split at hs
  case h_1 hp =>
    cases hs
    left
    refine ⟨hp, ?_⟩
    simp [State.ticks, State.built, Ticks.build, hp, ServerPoint.printed, ServerPoint.draft]
  case h_2 hp =>
    cases hs
    right
    left
    refine ⟨s.server.msg, ?_, ?_⟩
    · simp [State.ticks, hp, ServerPoint.draft]
    · simp [State.ticks, State.built, Ticks.print, hp, ServerPoint.printed, ServerPoint.draft]
  case h_3 hp =>
    cases hs
    right
    right
    exact semWait_ticks (.inl hp)
  case h_4 hp =>
    cases hs
    right
    right
    exact semWait_ticks (.inr hp)
  case h_5 todo hp =>
    split_ifs at hs with htodo
    cases hs
    right
    right
    simp [State.ticks, State.built, hp, ServerPoint.printed, ServerPoint.draft]
  case h_6 hp =>
    cases hs
    right
    right
    simp [State.ticks, State.built, hp, ServerPoint.printed, ServerPoint.draft]

theorem sigusr1_ticks : s.sigusr1.ticks = s.ticks.signal := by
  unfold State.sigusr1
  split
  · rename_i hp
    simp [State.ticks, State.built, Ticks.signal, hp, ServerPoint.printed, ServerPoint.draft]
  · rfl

theorem store_ticks {k : Fin MSG_SIZE} (hs : s.storeNext k = some t) : t.ticks = s.ticks := by
  unfold State.storeNext at hs
  split at hs
  · rename_i hp
    split_ifs at hs
    cases hs
    simp [State.ticks, State.built, hp, ServerPoint.printed, ServerPoint.draft]
  · cases hs

theorem tickText_injective {seq : UInt32} {c c' : Int32} (h : tickText seq c = tickText seq c') : c = c' := by
  have hlist := congrArg String.toList h
  rw [toList_tickText, toList_tickText] at hlist
  have hrepr := List.append_cancel_left (List.append_cancel_right hlist)
  exact Int32.toInt_inj.mp (Int.repr_injective (String.toList_inj.mp hrepr))

theorem Holds.unique {m : IpcMsg} {c c' : Int32} (h : m.Holds (tickText m.seq c))
    (h' : m.Holds (tickText m.seq c')) : c = c' := by
  have hunpack := unpackMsg_holds (tickText_ascii _ _) (tickText_nul _ _) h
  have hunpack' := unpackMsg_holds (tickText_ascii _ _) (tickText_nul _ _) h'
  rw [hunpack] at hunpack'
  injection hunpack' with hmessage
  injection hmessage with _ _ _ htext
  exact tickText_injective htext

theorem selfConsistent_of_sound (h : s.ticks.Sound) : SelfConsistent s := by
  constructor
  · exact h.agree
  · intro m hm m' hm'
    apply h.monotone (m.seq, m.sigCount) _ (m'.seq, m'.sigCount)
    · exact List.mem_map.mpr ⟨m', List.mem_append_left _ hm', rfl⟩
    · exact List.mem_map.mpr ⟨m, List.mem_append_left _ hm, rfl⟩

theorem draft_none (hp : s.server.pc ≠ .print) : s.ticks.draft = none := by
  unfold State.ticks ServerPoint.draft
  split
  · contradiction
  · rfl

theorem sound_of_fresh (h : Fresh s) : s.ticks.Sound := by
  have hticks : s.ticks = ⟨[], none, 0, s.server.gSigusr1Count⟩ := by
    simp [State.ticks, State.built, h.server, h.copied, h.seq, ServerPoint.printed, ServerPoint.draft]
  rw [hticks]
  constructor <;> simp [Ticks.stamps, Ticks.messages]

variable [DecidableEq ι]

theorem worker_ticks {w : ι} (hs : s.workerNext w = some t) : t.ticks = s.ticks := by
  unfold State.workerNext at hs
  simp only at hs
  split at hs
  case h_1 | h_4 =>
    cases hs
    rfl
  case h_2 | h_3 =>
    split_ifs at hs
    cases hs
    rfl
  case h_5 =>
    obtain ⟨message, -, rfl⟩ := Option.map_eq_some_iff.mp hs
    rfl
  case h_6 => cases hs

theorem load_ticks {w : ι} {k : Fin MSG_SIZE} (hs : s.loadNext w k = some t) : t.ticks = s.ticks := by
  unfold State.loadNext at hs
  simp only at hs
  split at hs
  · split_ifs at hs
    cases hs
    rfl
  · cases hs

theorem sound_next {a : Action ι} (h : s.ticks.Sound) (hs : s.next a = some t) (ha : Quiet s a) :
    t.ticks.Sound := by
  cases a with
  | server now =>
    obtain ⟨hp, ht⟩ | ⟨m, hm, ht⟩ | ht := server_ticks hs
    · have hdraft : s.ticks.draft = none := by
        apply draft_none
        rw [hp]
        nofun
      have hbuilt : s.ticks.built = s.copied := by
        simp [State.ticks, State.built, hp, ServerPoint.printed]
      rw [ht]
      apply h.build hdraft
      rw [hbuilt]
      exact ha.ticks now rfl hp
    · rw [ht]
      exact h.print hm
    · rwa [ht]
  | store k => rwa [store_ticks hs]
  | worker w => rwa [worker_ticks hs]
  | load w k => rwa [load_ticks hs]
  | sigusr1 =>
    cases hs
    rw [sigusr1_ticks]
    exact h.signal (draft_none (ha.apart rfl)) (ha.counted rfl)
  | stop w =>
    cases hs
    exact h

theorem sound_of_reachable (h : Reachable (channel.restrict Quiet) s) : s.ticks.Sound := by
  have hinv : Invariant (channel.restrict Quiet) fun s : State ι => s.ticks.Sound :=
    ⟨fun _ hs => sound_of_fresh hs, fun _ _ _ _ hi hs => sound_next hi hs.1 hs.2⟩
  exact hinv.holds h

theorem Ticks.Sound.torn (h : s.ticks.Sound) (hp : s.server.pc = .print)
    (hs : s.sigusr1.next (.server now) = some t) : ¬ SelfConsistent t := by
  have hpc : s.sigusr1.server.pc = .print := by
    simp [State.sigusr1, hp]
  have hdraft : s.ticks.draft = some s.server.msg := by
    simp [State.ticks, hp, ServerPoint.draft]
  have hcount := h.draft _ hdraft
  have hnext : s.sigusr1.serverNext now = some t := hs
  rw [State.serverNext, hpc] at hnext
  cases hnext
  intro ht
  have hagree := ht.agree (s.server.msg.print (s.server.gSigusr1Count + 1))
    (List.mem_append_right _ List.mem_cons_self)
  have hprinted := print_holds s.server.msg (s.server.gSigusr1Count + 1)
  have hsame : s.server.gSigusr1Count = s.server.gSigusr1Count + 1 := by
    apply Eq.trans hcount.symm
    exact Holds.unique hagree hprinted
  exact absurd (Int32.add_eq_left.mp hsame.symm) (by decide)

theorem selfConsistent_quiet :
    (∀ s : State ι, Reachable (channel.restrict Quiet) s → SelfConsistent s) ∧
    ∀ (s t : State ι) (now : UInt64), Reachable (channel.restrict Quiet) s → s.server.pc = .print →
      s.sigusr1.next (.server now) = some t → ¬ SelfConsistent t := by
  constructor
  · intro s h
    exact selfConsistent_of_sound (sound_of_reachable h)
  · intro s t now h hp hs
    exact (sound_of_reachable h).torn hp hs

def drafting : State Unit := { sharedStart with server := ⟨.print, 1, 1, buildMsg 1 0 1⟩ }

theorem drafting_reachable : Reachable (channel.restrict Quiet) drafting := by
  have hstart : Reachable (channel.restrict Quiet) sharedStart := .start sharedStart_fresh
  have hcounted : Reachable (channel.restrict Quiet) { sharedStart with server := ⟨.loop, 0, 1, buildMsg 0 0 0⟩ } := by
    apply hstart.next (a := .sigusr1)
    exact ⟨rfl, nofun, fun _ => by decide, nofun⟩
  apply hcounted.next (a := .server 0)
  exact ⟨rfl, nofun, nofun, fun _ _ _ => .inl (by decide)⟩

def printed : State Unit := { sharedStart with server := ⟨.semWait, 1, 1, (buildMsg 1 0 1).print 1⟩ }

theorem printed_reachable : Reachable (channel.restrict Quiet) printed := by
  apply drafting_reachable.next (a := .server 0)
  exact ⟨rfl, nofun, nofun, nofun⟩

theorem selfConsistent_quiet_drafting : (printed.built = [(buildMsg 1 0 1).print 1] ∧ SelfConsistent printed) ∧
    ∃ t, drafting.sigusr1.next (.server 0) = some t ∧ ¬ SelfConsistent t := by
  constructor
  · exact ⟨rfl, selfConsistent_quiet.1 printed printed_reachable⟩
  · exact ⟨_, rfl, selfConsistent_quiet.2 drafting _ 0 drafting_reachable rfl rfl⟩

theorem not_selfConsistent : ¬ ∀ s : State Unit, Reachable channel s → SelfConsistent s := by
  intro h
  have hsignal : Reachable channel drafting.sigusr1 := drafting_reachable.of_restrict.next (a := .sigusr1) rfl
  obtain ⟨t, ht⟩ : ∃ t, drafting.sigusr1.next (.server 0) = some t := ⟨_, rfl⟩
  have hprint : Reachable channel t := hsignal.next (a := .server 0) ht
  exact (sound_of_reachable drafting_reachable).torn rfl ht (h t hprint)

end EmbeddedLinuxTraining.Ipc
