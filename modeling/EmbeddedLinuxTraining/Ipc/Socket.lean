import EmbeddedLinuxTraining.Ipc.Message
import EmbeddedLinuxTraining.Library.Framing

/-!
`SocketWorker` of py_gui.py on one connection, while `_running` is set.
-/

namespace EmbeddedLinuxTraining.Ipc

open Library.Framing

/-- What reaches the socket: bytes, at least one, or a second without any. -/
inductive Arrival
  | segment (b : UInt8) (bs : List UInt8)
  | timeout

inductive Ending
  | open | closed | failed

structure Connection where
  arrivals : List Arrival
  ending : Ending

inductive Recv
  | chunk (bytes : List UInt8)
  | timeout
  | error
  | pending

def unread : List UInt8 → List Arrival
  | [] => []
  | b :: bs => [.segment b bs]

def recv (request : ℕ) (conn : Connection) : Recv × Connection :=
  match conn.arrivals with
  | .segment b bs :: rest =>
    (.chunk ((b :: bs).take request), { conn with arrivals := unread ((b :: bs).drop request) ++ rest })
  | .timeout :: rest => (.timeout, { conn with arrivals := rest })
  | [] =>
    match conn.ending with
    | .open => (.pending, conn)
    | .closed => (.chunk [], conn)
    | .failed => (.error, conn)

inductive Outcome
  | data (raw : List UInt8)
  | closed
  | timeout
  | error
  | pending

def recvExact (n : ℕ) (buf : List UInt8) (conn : Connection) : Outcome × Connection :=
  if buf.length < n then
    match recv (n - buf.length) conn with
    | (.chunk (b :: bs), conn') => recvExact n (buf ++ b :: bs) conn'
    | (.chunk [], conn') => (.closed, conn')
    | (.timeout, conn') => (.timeout, conn')
    | (.error, conn') => (.error, conn')
    | (.pending, conn') => (.pending, conn')
  else (.data buf, conn)
termination_by n - buf.length
decreasing_by simp only [List.length_append, List.length_cons]; omega

def flat : List Arrival → List (Option UInt8)
  | [] => []
  | .segment b bs :: rest => (b :: bs).map some ++ flat rest
  | .timeout :: rest => none :: flat rest

theorem flat_unread (bs : List UInt8) (rest : List Arrival) :
    flat (unread bs ++ rest) = bs.map some ++ flat rest := by
  cases bs <;> rfl

theorem recv_chunk {request : ℕ} {bs : List UInt8} {conn conn' : Connection} (hr : 0 < request)
    (h : recv request conn = (.chunk bs, conn')) : bs.length ≤ request ∧
      flat conn.arrivals = bs.map some ++ flat conn'.arrivals ∧ (bs = [] → conn.arrivals = []) := by
  unfold recv at h
  split at h
  · rename_i c cs rest harr
    cases h
    refine ⟨List.length_take_le .., ?_, fun hnil => ?_⟩
    · rw [flat_unread, ← List.append_assoc, ← List.map_append, List.take_append_drop, harr, flat]
    · obtain ⟨k, rfl⟩ : ∃ k, request = k + 1 := ⟨request - 1, by omega⟩
      cases hnil
  · cases h
  · rename_i harr
    split at h <;> cases h
    exact ⟨Nat.zero_le _, rfl, fun _ => harr⟩

theorem recv_timeout {request : ℕ} {conn conn' : Connection}
    (h : recv request conn = (.timeout, conn')) : flat conn.arrivals = none :: flat conn'.arrivals := by
  unfold recv at h
  split at h
  · cases h
  · rename_i rest harr
    cases h
    rw [harr, flat]
  · split at h <;> cases h

theorem recv_stuck {request : ℕ} {r : Recv} {conn conn' : Connection}
    (h : recv request conn = (r, conn')) (hr : r = .error ∨ r = .pending) : conn.arrivals = [] := by
  unfold recv at h
  split at h
  · cases h
    rcases hr with hr | hr <;> cases hr
  · cases h
    rcases hr with hr | hr <;> cases hr
  · assumption

def Taken (n : ℕ) (buf : List UInt8) (conn : Connection) : Outcome × Connection → Prop
  | (.data raw, conn') => raw.length = n ∧
      ∃ bs, raw = buf ++ bs ∧ flat conn.arrivals = bs.map some ++ flat conn'.arrivals
  | (.timeout, conn') => ∃ bs, (buf ++ bs).length < n ∧
      flat conn.arrivals = bs.map some ++ none :: flat conn'.arrivals
  | (_, _) => ∃ bs, (buf ++ bs).length < n ∧ flat conn.arrivals = bs.map some

theorem Taken.cons {n : ℕ} {buf bs : List UInt8} {conn conn' : Connection} {r : Outcome × Connection}
    (hflat : flat conn.arrivals = bs.map some ++ flat conn'.arrivals)
    (h : Taken n (buf ++ bs) conn' r) : Taken n buf conn r := by
  obtain ⟨outcome, conn''⟩ := r
  cases outcome with
  | data raw =>
    obtain ⟨hlen, more, hraw, hrest⟩ := h
    refine ⟨hlen, bs ++ more, ?_, ?_⟩
    · rw [hraw, List.append_assoc]
    · rw [hflat, hrest, List.map_append, List.append_assoc]
  | timeout =>
    obtain ⟨more, hlt, hrest⟩ := h
    refine ⟨bs ++ more, ?_, ?_⟩
    · rwa [← List.append_assoc]
    · rw [hflat, hrest, List.map_append, List.append_assoc]
  | closed | error | pending =>
    obtain ⟨more, hlt, hrest⟩ := h
    refine ⟨bs ++ more, ?_, ?_⟩
    · rwa [← List.append_assoc]
    · rw [hflat, hrest, List.map_append]

theorem recvExact_taken (n : ℕ) (buf : List UInt8) (conn : Connection) (h : buf.length ≤ n) :
    Taken n buf conn (recvExact n buf conn) := by
  have stuck {conn : Connection} {buf : List UInt8} (hlt : buf.length < n) (harr : conn.arrivals = []) :
      ∃ bs, (buf ++ bs).length < n ∧ flat conn.arrivals = bs.map some :=
    ⟨[], by rwa [List.append_nil], by rw [harr]; rfl⟩
  fun_induction recvExact n buf conn with
  | case1 buf conn hlt b bs conn' hrecv ih =>
    obtain ⟨hle, hflat, -⟩ := recv_chunk (by omega) hrecv
    refine (ih ?_).cons hflat
    rw [List.length_append]
    omega
  | case2 buf conn hlt conn' hrecv => exact stuck hlt ((recv_chunk (by omega) hrecv).2.2 rfl)
  | case3 buf conn hlt conn' hrecv =>
    exact ⟨[], by rwa [List.append_nil], recv_timeout hrecv⟩
  | case4 buf conn hlt conn' hrecv => exact stuck hlt (recv_stuck hrecv (.inl rfl))
  | case5 buf conn hlt conn' hrecv => exact stuck hlt (recv_stuck hrecv (.inr rfl))
  | case6 buf conn hlt => exact ⟨by omega, [], (List.append_nil buf).symm, rfl⟩

theorem recvExact_shorter {conn conn' : Connection} {outcome : Outcome}
    (h : recvExact MSG_SIZE [] conn = (outcome, conn'))
    (ho : (∃ raw, outcome = .data raw) ∨ outcome = .timeout) :
    (flat conn'.arrivals).length < (flat conn.arrivals).length := by
  have ht := recvExact_taken MSG_SIZE [] conn (Nat.zero_le _)
  rw [h] at ht
  rcases ho with ⟨raw, rfl⟩ | rfl
  · obtain ⟨hlen, bs, hraw, hflat⟩ := ht
    rw [hflat, List.length_append, List.length_map]
    rw [List.nil_append] at hraw
    rw [← hraw, hlen]
    simp [MSG_SIZE]
  · obtain ⟨bs, -, hflat⟩ := ht
    rw [hflat]
    simp only [List.length_append, List.length_map, List.length_cons]
    omega

def run (conn : Connection) : List Message :=
  match _h : recvExact MSG_SIZE [] conn with
  | (.timeout, conn') => run conn'
  | (.data raw, conn') =>
    match unpackMsg raw with
    | some message => message :: run conn'
    | none => []
  | (.error, _) | (.closed, _) | (.pending, _) => []
termination_by (flat conn.arrivals).length
decreasing_by
  · exact recvExact_shorter _h (.inr rfl)
  · exact recvExact_shorter _h (.inl ⟨_, rfl⟩)

theorem run_reassemble (conn : Connection) :
    (run conn).map some = (reassemble MSG_SIZE [] (flat conn.arrivals)).map unpackMsg := by
  fun_induction run conn with
  | case1 conn conn' hexact ih =>
    have ht := recvExact_taken MSG_SIZE [] conn (Nat.zero_le _)
    rw [hexact] at ht
    obtain ⟨bs, hlt, hflat⟩ := ht
    rw [hflat, reassemble_append _ (by simpa using hlt), reassemble]
    exact ih
  | case2 conn raw conn' hexact message hm ih =>
    have ht := recvExact_taken MSG_SIZE [] conn (Nat.zero_le _)
    rw [hexact] at ht
    obtain ⟨hlen, bs, hraw, hflat⟩ := ht
    rw [List.nil_append] at hraw
    rw [hflat, reassemble_frame _ (by decide) (by rw [← hraw, hlen]; rfl), List.map_cons,
      List.map_cons, ih, List.nil_append, ← hraw, hm]
  | case3 conn raw conn' hexact hm =>
    have ht := recvExact_taken MSG_SIZE [] conn (Nat.zero_le _)
    rw [hexact] at ht
    have := unpackMsg_isSome ht.1
    rw [hm] at this
    cases this
  | case4 conn conn' hexact | case5 conn conn' hexact | case6 conn conn' hexact =>
    have ht := recvExact_taken MSG_SIZE [] conn (Nat.zero_le _)
    rw [hexact] at ht
    obtain ⟨bs, hlt, hflat⟩ := ht
    rw [hflat, ← List.append_nil (bs.map some), reassemble_append _ (by simpa using hlt)]
    rfl

def received : List Arrival → List UInt8
  | [] => []
  | .segment b bs :: rest => b :: bs ++ received rest
  | .timeout :: rest => received rest

/-- Every timeout comes when a whole number of frames has been received; `k` bytes are already there. -/
def TimeoutsBetween : ℕ → List Arrival → Prop
  | _, [] => True
  | k, .segment _ bs :: rest => TimeoutsBetween (k + (bs.length + 1)) rest
  | k, .timeout :: rest => k % MSG_SIZE = 0 ∧ TimeoutsBetween k rest

theorem reduceOption_flat (arrivals : List Arrival) : (flat arrivals).reduceOption = received arrivals := by
  induction arrivals with
  | nil => rfl
  | cons a rest ih =>
    cases a with
    | segment b bs =>
      rw [flat, List.reduceOption_append, ih, List.reduceOption, List.filterMap_map]
      simp [received]
    | timeout =>
      rw [flat, List.reduceOption_cons_of_none, ih]
      rfl

theorem aligned_map (n k : ℕ) (bs : List UInt8) (xs : List (Option UInt8)) :
    Aligned n k (bs.map some ++ xs) ↔ Aligned n (k + bs.length) xs := by
  induction bs generalizing k with
  | nil => rfl
  | cons b bs ih =>
    rw [List.length_cons, Nat.add_comm bs.length, ← Nat.add_assoc]
    exact ih (k + 1)

theorem aligned_flat (k : ℕ) (arrivals : List Arrival) :
    Aligned MSG_SIZE k (flat arrivals) ↔ TimeoutsBetween k arrivals := by
  induction arrivals generalizing k with
  | nil => rfl
  | cons a rest ih =>
    cases a with
    | segment b bs =>
      rw [flat, aligned_map, ih]
      rfl
    | timeout => exact and_congr_right fun _ => ih k

/-- The messages are those of the frames sent exactly when no timeout cuts a frame. -/
theorem emitted_iff (conn : Connection) (frames : List (List UInt8))
    (hf : ∀ f ∈ frames, f.length = MSG_SIZE) (hs : received conn.arrivals = frames.flatten) :
    (run conn).map some = frames.map unpackMsg ↔ TimeoutsBetween 0 conn.arrivals := by
  have hpayload : (flat conn.arrivals).reduceOption = frames.flatten := by
    rw [reduceOption_flat, hs]
  rw [run_reassemble, ← aligned_flat]
  constructor
  · intro h
    have hlen := congrArg List.length h
    rw [List.length_map, List.length_map] at hlen
    exact aligned_of_length (by decide) hf hpayload hlen
  · intro h
    rw [reassemble_of_aligned [] _ (by decide) (Nat.zero_mod _) h hf hpayload]

def zeroFrame : List UInt8 := List.replicate MSG_SIZE 0

def cutFrame : Connection where
  arrivals := [.segment 0 (List.replicate 39 0), .timeout, .segment 0 (List.replicate 39 0)]
  ending := .open

def lateFrame : Connection where
  arrivals := [.timeout, .segment 0 (List.replicate 79 0)]
  ending := .open

theorem emitted_iff_late : (run lateFrame).map some = [unpackMsg zeroFrame] :=
  (emitted_iff lateFrame [zeroFrame] (by decide) (by decide)).mpr ⟨rfl, trivial⟩

theorem frame_lost : ¬ ∀ (conn : Connection) (frames : List (List UInt8)),
    (∀ f ∈ frames, f.length = MSG_SIZE) → received conn.arrivals = frames.flatten →
      (run conn).map some = frames.map unpackMsg := by
  intro h
  have hall := h cutFrame [zeroFrame] (by decide) (by decide)
  rw [run_reassemble] at hall
  have hnone : reassemble MSG_SIZE [] (flat cutFrame.arrivals) = [] := by decide
  rw [hnone] at hall
  cases hall

end EmbeddedLinuxTraining.Ipc
