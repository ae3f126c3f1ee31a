import EmbeddedLinuxTraining.Library.Ascii
import EmbeddedLinuxTraining.Ipc.Message

namespace EmbeddedLinuxTraining.Ipc

open Library.Ascii

theorem decode_ascii {cs : List Char} (h : IsAscii cs) : decode (bytes cs) = cs := by
  induction cs with
  | nil => rfl
  | cons c cs ih =>
    obtain ⟨hc, hcs⟩ := ascii_cons.mp h
    have hlt : UInt8.ofNat c.toNat < 0x80 := by
      apply UInt8.lt_iff_toNat_lt.mpr
      rw [toNat_byte hc]
      exact hc
    change decode (UInt8.ofNat c.toNat :: bytes cs) = c :: cs
    unfold decode
    simp only [hlt, if_true]
    rw [toNat_byte hc, Char.ofNat_toNat, ih hcs]

theorem takeWhile_bytes {cs : List Char} (h : IsAscii cs) (hnul : NUL ∉ cs) (n : ℕ) :
    (bytes cs ++ List.replicate n 0).takeWhile (· ≠ 0) = bytes cs := by
  have hne : ∀ b ∈ bytes cs, decide (b ≠ 0) = true := by
    intro b hb
    obtain ⟨c, hc, rfl⟩ := List.mem_map.mp hb
    apply decide_eq_true
    intro h0
    have hz : c.toNat = 0 := by
      rw [← toNat_byte (h c hc), h0]
      rfl
    have hcz : c = NUL := by
      rw [← Char.ofNat_toNat c, hz]
      rfl
    rw [hcz] at hc
    exact hnul hc
  rw [List.takeWhile_append_of_pos hne]
  cases n <;> simp [List.replicate_succ]

def IpcMsg.Holds (m : IpcMsg) (text : String) : Prop :=
  text.toUTF8.toList.length < 64 ∧
    m.text = text.toUTF8.toList ++ List.replicate (64 - text.toUTF8.toList.length) 0

theorem unpackMsg_holds {m : IpcMsg} {text : String} (h : IsAscii text.toList)
    (hnul : NUL ∉ text.toList) (hm : m.Holds text) :
    unpackMsg m.bytes = some ⟨m.seq.toNat, m.timestamp, m.sigCount.toInt, text⟩ := by
  rw [unpackMsg_bytes, hm.2, toList_toUTF8 h, takeWhile_bytes h hnul, decode_ascii h,
    String.ofList_toList]

def tickText (seq : UInt32) (count : Int32) : String := s!"tick #{seq} (SIGUSR1 x{count})"

theorem toList_tickText (seq : UInt32) (count : Int32) : (tickText seq count).toList =
    "tick #".toList ++ seq.toNat.repr.toList ++ " (SIGUSR1 x".toList ++ count.toInt.repr.toList ++
      ")".toList := by
  change ("tick #" ++ seq.toNat.repr ++ " (SIGUSR1 x" ++ count.toInt.repr ++ ")").toList = _
  simp only [String.toList_append]

def printable (s : String) : Bool := s.toList.all fun c => 32 ≤ c.toNat && c.toNat < 128

theorem mem_printable {s : String} (h : printable s = true) {c : Char} (hc : c ∈ s.toList) :
    32 ≤ c.toNat ∧ c.toNat < 128 := by
  have hcheck := List.all_eq_true.mp h c hc
  simp only [Bool.and_eq_true, decide_eq_true_eq] at hcheck
  exact hcheck

theorem mem_tickText {seq : UInt32} {count : Int32} {c : Char} (hc : c ∈ (tickText seq count).toList) :
    32 ≤ c.toNat ∧ c.toNat < 128 := by
  simp only [toList_tickText, List.mem_append] at hc
  obtain (((hc | hc) | hc) | hc) | hc := hc
  · exact mem_printable rfl hc
  · have hdigit := mem_repr hc
    omega
  · exact mem_printable rfl hc
  · have hdigit := mem_int_repr hc
    omega
  · exact mem_printable rfl hc

theorem tickText_ascii (seq : UInt32) (count : Int32) : IsAscii (tickText seq count).toList := by
  intro c hc
  exact (mem_tickText hc).2

theorem tickText_nul (seq : UInt32) (count : Int32) : NUL ∉ (tickText seq count).toList := by
  intro hc
  have hrange := mem_tickText hc
  exact absurd hrange (by decide)

theorem length_tickText (seq : UInt32) (count : Int32) : (tickText seq count).toList.length ≤ 39 := by
  have hseq : seq.toNat.repr.length ≤ 10 := by
    apply (Nat.length_repr_le_iff (by omega)).mpr
    have hlt := seq.toNat_lt
    omega
  have hcount : count.toInt.repr.length ≤ 10 + 1 := by
    have hlo := count.le_toInt
    have hhi := count.toInt_lt
    apply length_repr_int <;> omega
  rw [toList_tickText]
  simp only [List.length_append, String.length_toList]
  have hlit : "tick #".length = 6 ∧ " (SIGUSR1 x".length = 11 ∧ ")".length = 1 := by decide
  omega

theorem length_toUTF8 {s : String} (h : IsAscii s.toList) : s.toUTF8.toList.length = s.length := by
  rw [toList_toUTF8 h, length_bytes, String.length_toList]

theorem print_holds (m : IpcMsg) (count : Int32) : (m.print count).Holds (tickText m.seq count) := by
  have hlen : (tickText m.seq count).toUTF8.toList.length ≤ 39 := by
    rw [length_toUTF8 (tickText_ascii _ _), ← String.length_toList]
    apply length_tickText
  constructor
  · omega
  · change snprintf 64 (tickText m.seq count) = _
    rw [snprintf, List.take_of_length_le (by omega)]

structure Delivered (seq : UInt32) (timestamp : UInt64) (sigCount count : Int32) : Prop where
  fits : ((buildMsg seq timestamp sigCount).print count).Holds (tickText seq count)
  size : ((buildMsg seq timestamp sigCount).print count).bytes.length = 80
  unpacked : unpackMsg ((buildMsg seq timestamp sigCount).print count).bytes =
    some ⟨seq.toNat, timestamp, sigCount.toInt, tickText seq count⟩

theorem wire_format :
    (∀ seq timestamp sigCount count, Delivered seq timestamp sigCount count) ∧
    ∀ (m : IpcMsg) (text : String), (∀ c ∈ text.toList, c.toNat < 128) → NUL ∉ text.toList →
      text.length ≤ 63 → m.text = text.toUTF8.toList ++ List.replicate (64 - text.length) 0 →
      unpackMsg m.bytes = some ⟨m.seq.toNat, m.timestamp, m.sigCount.toInt, text⟩ := by
  constructor
  · intro seq timestamp sigCount count
    have hholds := print_holds (buildMsg seq timestamp sigCount) count
    constructor
    · exact hholds
    · apply IpcMsg.bytes_size
    · exact unpackMsg_holds (tickText_ascii _ _) (tickText_nul _ _) hholds
  · intro m text hascii hnul hlen hm
    have hlength := length_toUTF8 hascii
    apply unpackMsg_holds hascii hnul
    constructor
    · omega
    · rw [hm, hlength]

def helloMsg : IpcMsg where
  seq := 4294967295
  timestamp := 0x7FF8000000000000
  sigCount := -2147483648
  text := [104, 105] ++ List.replicate 62 0
  text_size := by decide

theorem wire_format_hello : unpackMsg helloMsg.bytes =
    some ⟨4294967295, 0x7FF8000000000000, -2147483648, "hi"⟩ := by
  have hascii : ∀ c ∈ "hi".toList, c.toNat < 128 := by
    intro c hc
    exact (mem_printable rfl hc).2
  have hnul : NUL ∉ "hi".toList := by
    intro hc
    exact absurd (mem_printable rfl hc).1 (by decide)
  have htext : helloMsg.text = "hi".toUTF8.toList ++ List.replicate (64 - "hi".length) 0 := by
    rw [toList_toUTF8 hascii]
    rfl
  exact wire_format.2 helloMsg "hi" hascii hnul (by decide) htext

end EmbeddedLinuxTraining.Ipc
