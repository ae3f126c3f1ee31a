import Mathlib.Algebra.Group.Int.Defs
import Mathlib.Algebra.Group.Nat.Defs
import Mathlib.Data.Int.Notation
import EmbeddedLinuxTraining.Library.LittleEndian

/-!
The message of process/project: `ipc_msg_t` as backend.c lays it out, and `unpack_msg` of
py_gui.py. A timestamp is the bit pattern of its double.
-/

namespace EmbeddedLinuxTraining.Ipc

open Library.LittleEndian

def MSG_SIZE : ℕ := 80

structure IpcMsg where
  seq : UInt32
  timestamp : UInt64
  sigCount : Int32
  text : List UInt8
  text_size : text.length = 64

def IpcMsg.bytes (m : IpcMsg) : List UInt8 :=
  toBytes 4 m.seq.toNat ++ toBytes 8 m.timestamp.toNat ++ toBytes 4 m.sigCount.toUInt32.toNat ++ m.text

theorem IpcMsg.bytes_size (m : IpcMsg) : m.bytes.length = MSG_SIZE := by
  simp only [bytes, List.length_append, length_toBytes, m.text_size]
  rfl

def snprintf (size : ℕ) (s : String) : List UInt8 :=
  let written := s.toUTF8.toList.take (size - 1)
  written ++ List.replicate (size - written.length) 0

theorem snprintf_size (size : ℕ) (s : String) : (snprintf size s).length = size := by
  simp only [snprintf, List.length_append, List.length_replicate, List.length_take]
  omega

def buildMsg (seq : UInt32) (timestamp : UInt64) (sigCount : Int32) : IpcMsg where
  seq := seq
  timestamp := timestamp
  sigCount := sigCount
  text := List.replicate 64 0
  text_size := List.length_replicate

def IpcMsg.print (m : IpcMsg) (sigCount : Int32) : IpcMsg :=
  { m with
    text := snprintf 64 s!"tick #{m.seq} (SIGUSR1 x{sigCount})"
    text_size := snprintf_size .. }

structure Message where
  seq : ℕ
  ts : UInt64
  sigCount : ℤ
  text : String

def replacement : Char := Char.ofNat 0xFFFD

def inRange (b lo hi : UInt8) : Bool := lo ≤ b && b ≤ hi

def continues (b : UInt8) : Bool := inRange b 0x80 0xBF

def secondRange (b : UInt8) : UInt8 × UInt8 :=
  if b = 0xE0 then (0xA0, 0xBF)
  else if b = 0xED then (0x80, 0x9F)
  else if b = 0xF0 then (0x90, 0xBF)
  else if b = 0xF4 then (0x80, 0x8F)
  else (0x80, 0xBF)

def codePoint (lead : ℕ) (tail : List UInt8) : Char :=
  Char.ofNat (tail.foldl (fun n b => n * 64 + b.toNat % 64) lead)

/-- `bytes.decode("utf-8", errors="replace")`: a maximal part of a broken sequence gives one
replacement character. -/
def decode : List UInt8 → List Char
  | [] => []
  | b :: bs =>
    if b < 0x80 then Char.ofNat b.toNat :: decode bs
    else if inRange b 0xC2 0xDF then
      match bs with
      | c :: cs =>
        if continues c then codePoint (b.toNat % 32) [c] :: decode cs
        else replacement :: decode (c :: cs)
      | [] => [replacement]
    else if inRange b 0xE0 0xF4 then
      match bs with
      | c :: cs =>
        if inRange c (secondRange b).1 (secondRange b).2 then
          match cs with
          | d :: ds =>
            if continues d then
              if b < 0xF0 then codePoint (b.toNat % 16) [c, d] :: decode ds
              else
                match ds with
                | e :: es =>
                  if continues e then codePoint (b.toNat % 8) [c, d, e] :: decode es
                  else replacement :: decode (e :: es)
                | [] => [replacement]
            else replacement :: decode (d :: ds)
          | [] => [replacement]
        else replacement :: decode (c :: cs)
      | [] => [replacement]
    else replacement :: decode bs

def toSigned (n : ℕ) : ℤ := if n < 2 ^ 31 then n else n - 2 ^ 32

/-- `MSG_STRUCT.unpack` with the format `<Idi64s`; `none` is `struct.error`. -/
def unpack (raw : List UInt8) : Option (ℕ × UInt64 × ℤ × List UInt8) :=
  if raw.length = MSG_SIZE then
    some (ofBytes (raw.take 4), UInt64.ofNat (ofBytes ((raw.drop 4).take 8)),
      toSigned (ofBytes ((raw.drop 12).take 4)), raw.drop 16)
  else none

def unpackMsg (raw : List UInt8) : Option Message :=
  (unpack raw).map fun (seq, ts, sigCount, text) =>
    { seq, ts, sigCount, text := String.ofList (decode (text.takeWhile (· ≠ 0))) }

theorem unpackMsg_isSome {raw : List UInt8} (h : raw.length = MSG_SIZE) :
    (unpackMsg raw).isSome = true := by
  simp [unpackMsg, unpack, h]

theorem toSigned_toInt (n : Int32) : toSigned n.toUInt32.toNat = n.toInt := by
  change toSigned n.toBitVec.toNat = n.toBitVec.toInt
  rw [toSigned, BitVec.toInt_eq_toNat_cond]
  split <;> split <;> omega

theorem drop_toBytes {k m : ℕ} (h : k ≤ m) (n : ℕ) : (toBytes k n).drop m = [] := by
  apply List.drop_eq_nil_of_le
  rwa [length_toBytes]

theorem unpackMsg_bytes (m : IpcMsg) : unpackMsg m.bytes =
    some ⟨m.seq.toNat, m.timestamp, m.sigCount.toInt,
      String.ofList (decode (m.text.takeWhile (· ≠ 0)))⟩ := by
  have hseq : ofBytes (toBytes 4 m.seq.toNat) = m.seq.toNat := ofBytes_toBytes 4 _ m.seq.toNat_lt
  have hts : ofBytes (toBytes 8 m.timestamp.toNat) = m.timestamp.toNat :=
    ofBytes_toBytes 8 _ m.timestamp.toNat_lt
  have hsig : ofBytes (toBytes 4 m.sigCount.toUInt32.toNat) = m.sigCount.toUInt32.toNat :=
    ofBytes_toBytes 4 _ m.sigCount.toUInt32.toNat_lt
  rw [unpackMsg, unpack, if_pos m.bytes_size]
  have hdrop (n : ℕ) : (toBytes 4 n).drop 12 = [] ∧ (toBytes 4 n).drop 16 = [] ∧
      (toBytes 8 n).drop 12 = [] :=
    ⟨drop_toBytes (by decide) n, drop_toBytes (by decide) n, drop_toBytes (by decide) n⟩
  simp [IpcMsg.bytes, List.drop_append, hdrop, hseq, hts, hsig, toSigned_toInt]

end EmbeddedLinuxTraining.Ipc
