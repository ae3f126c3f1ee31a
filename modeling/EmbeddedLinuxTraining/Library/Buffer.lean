import Mathlib.Data.List.TakeWhile
import Mathlib.Algebra.Group.Nat.Defs

namespace EmbeddedLinuxTraining.Library

structure Buffer (size : ℕ) where
  bytes : List UInt8
  length_bytes : bytes.length = size

def sizeOfInt (n : Int32) : UInt64 := n.toInt64.toUInt64

namespace Buffer

variable {size : ℕ}

def store (buf : Buffer size) (data : List UInt8) (h : data.length ≤ size) : Buffer size where
  bytes := data ++ buf.bytes.drop data.length
  length_bytes := by
    rw [List.length_append, List.length_drop, buf.length_bytes]
    omega

def set (buf : Buffer size) (i : ℕ) (b : UInt8) : Buffer size where
  bytes := buf.bytes.set i b
  length_bytes := by
    rw [List.length_set]
    exact buf.length_bytes

def text (buf : Buffer size) : List UInt8 := buf.bytes.takeWhile (· ≠ 0)

def read (buf : Buffer size) (count : UInt64) : Option (List UInt8) :=
  if count.toNat ≤ size then some (buf.bytes.take count.toNat) else none

/-- `snprintf(buf, sizeof(buf), ...)`: the array takes of the text what fits, the result is the length of
the whole text, or negative where an `int` does not hold it. -/
def snprintf (buf : Buffer (size + 1)) (text : List UInt8) : Buffer (size + 1) × Int32 :=
  (buf.store (text.take size ++ [0]) (by
    rw [List.length_append, List.length_take]
    exact Nat.succ_le_succ (Nat.min_le_left ..)),
    if text.length < 2 ^ 31 then .ofNat text.length else -1)

theorem bytes_store (buf : Buffer size) (data : List UInt8) (h : data.length ≤ size) :
    (buf.store data h).bytes = data ++ buf.bytes.drop data.length := rfl

theorem text_store {buf : Buffer size} {data : List UInt8} (h : (data ++ [0]).length ≤ size)
    (hnul : 0 ∉ data) : (buf.store (data ++ [0]) h).text = data := by
  have hdata : ∀ b ∈ data, decide (b ≠ 0) = true := by
    intro b hb
    apply decide_eq_true
    rintro rfl
    exact hnul hb
  rw [text, bytes_store, List.append_assoc, List.takeWhile_append_of_pos hdata]
  simp

theorem sizeOfInt_ofNat {n : ℕ} (h : n < 2 ^ 31) : (sizeOfInt (.ofNat n)).toNat = n := by
  have hint : (Int32.ofNat n).toInt64.toInt = n := by
    rw [Int32.toInt_toInt64, Int32.toInt_ofNat_of_lt h]
  have hle : 0 ≤ (Int32.ofNat n).toInt64 := by
    rw [Int64.le_iff_toInt_le, hint]
    exact Int.natCast_nonneg n
  rw [sizeOfInt, Int64.toNat_toUInt64_of_le hle, Int64.toNatClampNeg, hint, Int.toNat_natCast]

structure Holds (r : Buffer (size + 1) × Int32) (text : List UInt8) : Prop where
  length : r.2.toInt = text.length
  string : r.1.text = text
  read : r.1.read (sizeOfInt r.2) = some text

theorem snprintf_holds {buf : Buffer (size + 1)} {text : List UInt8} (hsize : size < 2 ^ 31)
    (hlength : text.length ≤ size) (hnul : 0 ∉ text) : Holds (buf.snprintf text) text := by
  have hlt : text.length < 2 ^ 31 := Nat.lt_of_le_of_lt hlength hsize
  have htake : text.take size = text := List.take_of_length_le hlength
  have hint : (buf.snprintf text).2 = .ofNat text.length := if_pos hlt
  constructor
  · rw [hint, Int32.toInt_ofNat_of_lt hlt]
  · simp only [snprintf, htake]
    exact text_store _ hnul
  · rw [hint, read, sizeOfInt_ofNat hlt, if_pos (Nat.le_succ_of_le hlength)]
    simp [snprintf, store, htake]

end Buffer

end EmbeddedLinuxTraining.Library
