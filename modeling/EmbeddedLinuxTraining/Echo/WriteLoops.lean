import Mathlib.Algebra.Group.Nat.Defs
import EmbeddedLinuxTraining.Echo.Program

namespace EmbeddedLinuxTraining.Echo

open Library.Transition

structure Buffer where
  bytes : List UInt8
  fits : bytes.length < 2 ^ 63

structure Request where
  offset : ℕ
  count : UInt64
  deriving DecidableEq

/-- `handed` are the bytes that the kernel has accepted; `ret` is `none` as long as the loop runs. -/
structure Loop (α : Type) where
  off : α
  requests : List Request
  handed : List UInt8
  ret : Option Int32
  deriving DecidableEq

/-- What `write` returns where the kernel has room for `n` bytes and is asked to take `count`. -/
def Write.value (count : UInt64) : Write → Int64
  | .accepted n => .ofNat (min n count.toNat)
  | .interrupted | .failed => -1

/-- `while (off < len)` around `write(fd, buf + off, len - off)`, for an integer type `α` of offsets -/
def writeLoop {α : Type} [LT α] [DecidableLT α] [Add α] [Sub α] (index : α → ℕ) (toSize : α → UInt64)
    (ofSsize : Int64 → α) (buf : List UInt8) (len : α) (loop : Loop α) : List Write → Loop α
  | [] => if loop.off < len then loop else { loop with ret := some 0 }
  | w :: ws =>
    if loop.off < len then
      let request : Request := ⟨index loop.off, toSize (len - loop.off)⟩
      let requests := loop.requests ++ [request]
      let n := w.value request.count
      if n < 0 then
        if w = .interrupted then
          writeLoop index toSize ofSsize buf len { loop with requests := requests } ws
        else { loop with requests := requests, ret := some (-1) }
      else
        writeLoop index toSize ofSsize buf len { loop with
          off := loop.off + ofSsize n
          requests := requests
          handed := loop.handed ++ taken buf request.offset n.toNatClampNeg } ws
    else { loop with ret := some 0 }

def sendAll (buf : List UInt8) (len : UInt64) : List Write → Loop UInt64 :=
  writeLoop UInt64.toNat id Int64.toUInt64 buf len ⟨0, [], [], none⟩

def echo (buf : List UInt8) (n : Int64) : List Write → Loop Int64 :=
  writeLoop Int64.toNatClampNeg Int64.toUInt64 id buf n ⟨0, [], [], none⟩

def acceptedBytes : List Write → ℕ
  | [] => 0
  | .accepted n :: ws => n + acceptedBytes ws
  | .interrupted :: ws => acceptedBytes ws
  | .failed :: _ => 0

def progress (len off : ℕ) : List Write → ℕ × Option Int32
  | [] => (off, if off < len then none else some 0)
  | w :: ws =>
    if off < len then
      match w with
      | .accepted n => progress len (min len (off + n)) ws
      | .interrupted => progress len off ws
      | .failed => (off, some (-1))
    else (off, some 0)

def offsets (len off : ℕ) : List Write → List ℕ
  | [] => []
  | w :: ws =>
    if off < len then
      match w with
      | .accepted n => off :: offsets len (min len (off + n)) ws
      | .interrupted => off :: offsets len off ws
      | .failed => [off]
    else []

variable {buf : List UInt8} {len off n : ℕ} {ws : List Write}

theorem progress_of_le (h : len ≤ off) : progress len off ws = (off, some 0) := by
  cases ws <;> simp [progress, Nat.not_lt.mpr h]

theorem offsets_of_le (h : len ≤ off) : offsets len off ws = [] := by
  cases ws <;> simp [offsets, Nat.not_lt.mpr h]

theorem progress_off (ws : List Write) (hle : off ≤ len) : (progress len off ws).1 = min len (off + acceptedBytes ws) := by
  induction ws generalizing off with
  | nil => simp [progress, acceptedBytes, hle]
  | cons w ws ih =>
    by_cases hlt : off < len
    · cases w with
      | accepted n =>
        have hrec := ih (Nat.min_le_left len (off + n))
        simp only [progress, hlt, if_true, acceptedBytes, hrec]
        omega
      | interrupted =>
        simp only [progress, hlt, if_true, acceptedBytes]
        exact ih hle
      | failed => simp [progress, hlt, acceptedBytes, hle]
    · rw [progress_of_le (by omega)]
      simp only
      omega

theorem progress_ret (ws : List Write) (hle : off ≤ len) :
    (progress len off ws).2 =
      if len ≤ off + acceptedBytes ws then some 0 else if .failed ∈ ws then some (-1) else none := by
  induction ws generalizing off with
  | nil =>
    by_cases hlt : off < len
    · simp [progress, acceptedBytes, hlt, Nat.not_le.mpr hlt]
    · simp [progress, acceptedBytes, hlt, Nat.not_lt.mp hlt]
  | cons w ws ih =>
    by_cases hlt : off < len
    · cases w with
      | accepted n =>
        have hrec := ih (Nat.min_le_left len (off + n))
        have hend : len ≤ min len (off + n) + acceptedBytes ws ↔ len ≤ off + (n + acceptedBytes ws) := by omega
        simp [progress, hlt, acceptedBytes, hrec, hend]
      | interrupted =>
        have hrec := ih hle
        simp [progress, hlt, acceptedBytes, hrec]
      | failed => simp [progress, hlt, acceptedBytes, Nat.not_le.mpr hlt]
    · have hend : len ≤ off + acceptedBytes (w :: ws) := by omega
      rw [progress_of_le (by omega), if_pos hend]

theorem progress_stops (hpos : ∀ n, .accepted n ∈ ws → 0 < n)
    (hlong : len - off + ws.count .interrupted ≤ ws.length) : (progress len off ws).2.isSome := by
  induction ws generalizing off with
  | nil =>
    have hend : len ≤ off := by simpa [Nat.sub_eq_zero_iff_le] using hlong
    rw [progress_of_le hend]
    rfl
  | cons w ws ih =>
    have hrest : ∀ n, .accepted n ∈ ws → 0 < n := fun n hn => hpos n (List.mem_cons_of_mem w hn)
    by_cases hlt : off < len
    · cases w with
      | accepted n =>
        have hn := hpos n List.mem_cons_self
        simp only [progress, hlt, if_true]
        apply ih hrest
        simp at hlong
        omega
      | interrupted =>
        simp only [progress, hlt, if_true]
        apply ih hrest
        simp at hlong
        omega
      | failed => simp [progress, hlt]
    · rw [progress_of_le (by omega)]
      rfl

theorem offsets_lt {k : ℕ} (h : k ∈ offsets len off ws) : k < len := by
  induction ws generalizing off with
  | nil => cases h
  | cons w ws ih =>
    by_cases hlt : off < len
    · cases w with
      | accepted n =>
        simp only [offsets, hlt, if_true, List.mem_cons] at h
        obtain rfl | h := h
        · exact hlt
        · exact ih h
      | interrupted =>
        simp only [offsets, hlt, if_true, List.mem_cons] at h
        obtain rfl | h := h
        · exact hlt
        · exact ih h
      | failed =>
        simp only [offsets, hlt, if_true, List.mem_singleton] at h
        exact h ▸ hlt
    · rw [offsets_of_le (by omega)] at h
      cases h

theorem take_append_taken (buf : List UInt8) (off n : ℕ) :
    buf.take off ++ taken buf off n = buf.take (off + n) := by
  rw [taken, List.take_add]

structure Faithful {α : Type} [LT α] [Add α] [Sub α] (index : α → ℕ) (toSize : α → UInt64) (ofSsize : Int64 → α)
    (cast : ℕ → α) (len : ℕ) : Prop where
  index : ∀ k ≤ len, index (cast k) = k
  compare : ∀ k ≤ len, cast k < cast len ↔ k < len
  advance : ∀ k n, k + n ≤ len → cast k + ofSsize (.ofNat n) = cast (k + n)
  remaining : ∀ k ≤ len, toSize (cast len - cast k) = .ofNat (len - k)

def requestAt (len k : ℕ) : Request := ⟨k, .ofNat (len - k)⟩

theorem toNat_size (h : len < 2 ^ 63) : (UInt64.ofNat len).toNat = len := by
  apply UInt64.toNat_ofNat_of_lt'
  simp only [UInt64.size]
  omega

theorem writeLoop_eq {α : Type} [LT α] [DecidableLT α] [Add α] [Sub α] {index : α → ℕ} {toSize : α → UInt64}
    {ofSsize : Int64 → α} {cast : ℕ → α} (hfaithful : Faithful index toSize ofSsize cast buf.length)
    (hfits : buf.length < 2 ^ 63) (hle : off ≤ buf.length) (ws : List Write) (requests : List Request) :
    writeLoop index toSize ofSsize buf (cast buf.length) ⟨cast off, requests, buf.take off, none⟩ ws =
      ⟨cast (progress buf.length off ws).1,
        requests ++ (offsets buf.length off ws).map (requestAt buf.length),
        buf.take (progress buf.length off ws).1, (progress buf.length off ws).2⟩ := by
  induction ws generalizing off requests with
  | nil =>
    by_cases hlt : off < buf.length
    · simp [writeLoop, progress, offsets, hfaithful.compare off hle, hlt]
    · simp [writeLoop, progress, offsets, hfaithful.compare off hle, hlt]
  | cons w ws ih =>
    by_cases hlt : off < buf.length
    · have hindex := hfaithful.index off hle
      have hremaining := hfaithful.remaining off hle
      cases w with
      | accepted n =>
        have hvalue : (Write.accepted n).value (.ofNat (buf.length - off)) = .ofNat (min n (buf.length - off)) := by
          rw [Write.value, toNat_size (by omega)]
        have hnonneg : ¬ Int64.ofNat (min n (buf.length - off)) < 0 := by
          rw [Int64.lt_iff_toInt_lt, Int64.toInt_ofNat_of_lt (by omega)]
          simp
        have htaken : (Int64.ofNat (min n (buf.length - off))).toNatClampNeg = min n (buf.length - off) :=
          Int64.toNatClampNeg_ofNat_of_lt (by omega)
        have hnext : off + min n (buf.length - off) = min buf.length (off + n) := by omega
        have hadvance := hfaithful.advance off (min n (buf.length - off)) (by omega)
        simp only [writeLoop, progress, offsets, hfaithful.compare off hle, hlt, if_true, hindex, hremaining, hvalue,
          hnonneg, if_false, htaken, take_append_taken, hadvance, hnext]
        rw [ih (Nat.min_le_left _ _), List.append_assoc]
        rfl
      | interrupted =>
        have hvalue : Write.interrupted.value (.ofNat (buf.length - off)) < 0 := by
          rw [Write.value]
          decide
        simp only [writeLoop, progress, offsets, hfaithful.compare off hle, hlt, if_true, hindex, hremaining, hvalue]
        rw [ih hle, List.append_assoc]
        rfl
      | failed =>
        have hvalue : Write.failed.value (.ofNat (buf.length - off)) < 0 := by
          rw [Write.value]
          decide
        have hne : Write.failed ≠ .interrupted := by decide
        simp only [writeLoop, progress, offsets, hfaithful.compare off hle, hlt, if_true, hindex, hremaining, hvalue,
          hne, if_false, List.map_cons, List.map_nil, requestAt]
    · rw [progress_of_le (by omega), offsets_of_le (by omega)]
      simp [writeLoop, hfaithful.compare off hle, hlt]

theorem faithful_size (h : len < 2 ^ 63) : Faithful UInt64.toNat id Int64.toUInt64 UInt64.ofNat len := by
  constructor
  · intro k hk
    exact toNat_size (by omega)
  · intro k hk
    apply UInt64.ofNat_lt_iff_lt <;> simp only [UInt64.size] <;> omega
  · intro k n _
    rw [Int64.toUInt64_ofNat', UInt64.ofNat_add]
  · intro k hk
    rw [id, UInt64.ofNat_sub hk]

theorem faithful_ssize (h : len < 2 ^ 63) : Faithful Int64.toNatClampNeg Int64.toUInt64 id Int64.ofNat len := by
  constructor
  · intro k hk
    apply Int64.toNatClampNeg_ofNat_of_lt
    omega
  · intro k hk
    rw [Int64.lt_iff_toInt_lt, Int64.toInt_ofNat_of_lt h, Int64.toInt_ofNat_of_lt (by omega)]
    omega
  · intro k n _
    rw [id, Int64.ofNat_add]
  · intro k hk
    rw [← Int64.ofNat_sub len k hk, Int64.toUInt64_ofNat']

structure Completes (buf : List UInt8) (ws : List Write) (n : ℕ) (asked : List Request) (handed : List UInt8)
    (ret : Option Int32) : Prop where
  within : n ≤ buf.length
  asks : ∀ r ∈ asked, r.offset < buf.length ∧ r.offset + r.count.toNat = buf.length
  inOrder : handed = buf.take n
  counted : n = min buf.length (acceptedBytes ws)
  zero : ret = some 0 ↔ n = buf.length
  failure : ret = some (-1) ↔ n < buf.length ∧ .failed ∈ ws
  running : ret = none ↔ n < buf.length ∧ .failed ∉ ws
  stops : (∀ k, .accepted k ∈ ws → 0 < k) → buf.length + ws.count .interrupted ≤ ws.length → ret ≠ none

theorem progress_completes (ws : List Write) (hfits : buf.length < 2 ^ 63) :
    Completes buf ws (progress buf.length 0 ws).1 ((offsets buf.length 0 ws).map (requestAt buf.length))
      (buf.take (progress buf.length 0 ws).1) (progress buf.length 0 ws).2 := by
  have hoff := progress_off ws (Nat.zero_le buf.length)
  have hret := progress_ret ws (Nat.zero_le buf.length)
  rw [Nat.zero_add] at hoff hret
  have hvalues : (0 : Int32) ≠ -1 := by decide
  rw [hoff]
  constructor
  · exact Nat.min_le_left _ _
  · intro r hr
    obtain ⟨k, hk, rfl⟩ := List.mem_map.mp hr
    have hlt := offsets_lt hk
    refine ⟨hlt, ?_⟩
    rw [requestAt, toNat_size (by omega)]
    exact Nat.add_sub_cancel' (Nat.le_of_lt hlt)
  · rfl
  · rfl
  · rw [hret]
    split_ifs <;> simp [hvalues.symm] <;> omega
  · rw [hret]
    split_ifs with hall hfailed
    · simp [hvalues, Nat.min_eq_left hall]
    · have hlt : min buf.length (acceptedBytes ws) < buf.length := by omega
      simp [hfailed, hlt]
    · simp [hfailed]
  · rw [hret]
    split_ifs with hall hfailed
    · simp [Nat.min_eq_left hall]
    · simp [hfailed]
    · have hlt : min buf.length (acceptedBytes ws) < buf.length := by omega
      simp [hfailed, hlt]
  · intro hpos hlong
    have hstops : (progress buf.length 0 ws).2.isSome := progress_stops hpos hlong
    exact Option.isSome_iff_ne_none.mp hstops

/-- The two loops ask for the same, hand the kernel a prefix of the buffer in order, and return the same. -/
theorem writeLoops_complete (b : Buffer) (ws : List Write) :
    let sent := sendAll b.bytes (.ofNat b.bytes.length) ws
    let echoed := echo b.bytes (.ofNat b.bytes.length) ws
    Completes b.bytes ws sent.off.toNat sent.requests sent.handed sent.ret ∧
      Completes b.bytes ws echoed.off.toNatClampNeg echoed.requests echoed.handed echoed.ret ∧
      sent.requests = echoed.requests ∧ sent.handed = echoed.handed ∧ sent.ret = echoed.ret ∧
      (sent.off.toNat : ℤ) = echoed.off.toInt := by
  have hcompletes := progress_completes ws b.fits
  have hsize := faithful_size b.fits
  have hssize := faithful_ssize b.fits
  have hsent := writeLoop_eq hsize b.fits (Nat.zero_le _) ws []
  have hechoed := writeLoop_eq hssize b.fits (Nat.zero_le _) ws []
  have hwithin := hcompletes.within
  have hfits := b.fits
  rw [List.take_zero, List.nil_append] at hsent hechoed
  change sendAll b.bytes _ ws = _ at hsent
  change echo b.bytes _ ws = _ at hechoed
  simp only [hsent, hechoed]
  rw [hsize.index _ hwithin, hssize.index _ hwithin, Int64.toInt_ofNat_of_lt (by omega)]
  exact ⟨hcompletes, hcompletes, trivial, trivial, trivial, rfl⟩

example : sendAll [97, 98, 10] 3 [.accepted 1, .interrupted, .accepted 9] =
    ⟨3, [⟨0, 3⟩, ⟨1, 2⟩, ⟨1, 2⟩], [97, 98, 10], some 0⟩ := by decide

def Possible (asked : ℕ) : List Write → Prop
  | [] => True
  | .accepted n :: ws => 0 < asked → 0 < n ∧ n ≤ asked ∧ Possible (asked - n) ws
  | .interrupted :: ws => Possible asked ws
  | .failed :: _ => True

theorem Possible.rest (h : Possible (len - off) (.accepted n :: ws)) (hlt : off < len) :
    0 < n ∧ min len (off + n) = off + n ∧ Possible (len - (off + n)) ws := by
  obtain ⟨hpos, hn, hrest⟩ := h (Nat.sub_pos_of_lt hlt)
  rw [Nat.sub_sub] at hrest
  refine ⟨hpos, ?_, hrest⟩
  omega

variable {s : State}

theorem taken_append_taken (buf : List UInt8) (off n m : ℕ) :
    taken buf off n ++ taken buf (off + n) m = taken buf off (n + m) := by
  rw [taken, taken, taken, List.take_add, List.drop_drop]

theorem execute_turns {σ : Type} (turn : σ → Write → Option σ) (sending : ℕ → List UInt8 → σ)
    (haccepted : ∀ off n bytes, 0 < n → off + n < buf.length →
      turn (sending off bytes) (.accepted n) = some (sending (off + n) (bytes ++ taken buf off n)))
    (hinterrupted : ∀ off bytes, turn (sending off bytes) .interrupted = some (sending off bytes))
    (bytes : List UInt8) (hle : off ≤ buf.length) (h : Possible (buf.length - off) ws)
    (hrun : (progress buf.length off ws).2 = none) :
    execute turn (sending off bytes) ws = some (sending (progress buf.length off ws).1
      (bytes ++ taken buf off ((progress buf.length off ws).1 - off))) := by
  induction ws generalizing off bytes with
  | nil => simp [execute, progress, taken]
  | cons w ws ih =>
    have hlt : off < buf.length := by
      by_contra hge
      rw [progress_of_le (by omega)] at hrun
      cases hrun
    unfold execute at ih ⊢
    rw [List.foldlM_cons]
    cases w with
    | accepted n =>
      obtain ⟨hpos, hn, hrest⟩ := h.rest hlt
      simp only [progress, hlt, if_true, hn] at hrun ⊢
      have hnext : off + n < buf.length := by
        by_contra hge
        rw [progress_of_le (by omega)] at hrun
        cases hrun
      have hoff : (progress buf.length (off + n) ws).1 = _ := progress_off ws (Nat.le_of_lt hnext)
      have hsplit : n + ((progress buf.length (off + n) ws).1 - (off + n)) =
          (progress buf.length (off + n) ws).1 - off := by omega
      rw [haccepted off n bytes hpos hnext, Option.bind_eq_bind, Option.bind_some,
        ih _ (by omega) hrest hrun, List.append_assoc, taken_append_taken, hsplit]
    | interrupted =>
      simp only [progress, hlt, if_true] at hrun ⊢
      rw [hinterrupted off bytes, Option.bind_eq_bind, Option.bind_some]
      exact ih bytes hle h hrun
    | failed => simp [progress, hlt] at hrun

theorem execute_clientWrite {line : List UInt8} (hclient : s.client = .sending line 0)
    (h : Possible line.length ws) (hrun : (progress line.length 0 ws).2 = none) :
    execute State.clientWrite s ws = some { s with
      client := .sending line (progress line.length 0 ws).1
      up := s.up ++ line.take (progress line.length 0 ws).1 } := by
  have hturns := execute_turns State.clientWrite
    (fun off bytes => { s with client := .sending line off, up := bytes }) ?_ ?_ s.up
    (Nat.zero_le _) h hrun
  · simpa [← hclient, taken] using hturns
  · intro off n bytes hpos hlt
    have hn : n ≤ line.length - off := by omega
    simp [State.clientWrite, hpos, hn, hlt]
  · intro off bytes
    rfl

theorem execute_serverWrite (hserver : s.server = .echoing buf 0) (h : Possible buf.length ws)
    (hrun : (progress buf.length 0 ws).2 = none) :
    execute State.serverWrite s ws = some { s with
      server := .echoing buf (progress buf.length 0 ws).1
      down := s.down ++ buf.take (progress buf.length 0 ws).1 } := by
  have hturns := execute_turns State.serverWrite
    (fun off bytes => { s with server := .echoing buf off, down := bytes }) ?_ ?_ s.down
    (Nat.zero_le _) h hrun
  · simpa [← hserver, taken] using hturns
  · intro off n bytes hpos hlt
    have hn : n ≤ buf.length - off := by omega
    simp [State.serverWrite, hpos, hn, hlt]
  · intro off bytes
    rfl

end EmbeddedLinuxTraining.Echo
