import Mathlib.Algebra.Group.Nat.Defs
import Mathlib.Data.Int.Notation
import Mathlib.Data.List.Basic

namespace EmbeddedLinuxTraining.Library.Ascii

def IsAscii (cs : List Char) : Prop := ∀ c ∈ cs, c.toNat < 128

def NUL : Char := Char.ofNat 0

def bytes (cs : List Char) : List UInt8 := cs.map fun c => UInt8.ofNat c.toNat

@[simp] theorem ascii_nil : IsAscii [] := by
  intro c hc
  cases hc

@[simp] theorem ascii_cons {c : Char} {cs : List Char} : IsAscii (c :: cs) ↔ c.toNat < 128 ∧ IsAscii cs :=
  List.forall_mem_cons

@[simp] theorem ascii_append {cs ds : List Char} : IsAscii (cs ++ ds) ↔ IsAscii cs ∧ IsAscii ds :=
  List.forall_mem_append

@[simp] theorem length_bytes (cs : List Char) : (bytes cs).length = cs.length := by
  simp [bytes]

@[simp] theorem bytes_append (cs ds : List Char) : bytes (cs ++ ds) = bytes cs ++ bytes ds := by
  simp [bytes]

theorem toNat_byte {c : Char} (h : c.toNat < 128) : (UInt8.ofNat c.toNat).toNat = c.toNat := by
  rw [UInt8.toNat_ofNat']
  omega

theorem utf8EncodeChar_ascii {c : Char} (h : c.toNat < 128) :
    String.utf8EncodeChar c = [UInt8.ofNat c.toNat] := by
  have hsize : c.utf8Size = 1 := by
    apply Char.utf8Size_eq_one_iff.mpr
    rw [UInt32.le_iff_toNat_le]
    exact Nat.le_of_lt_succ h
  rw [String.utf8EncodeChar_eq_singleton hsize]
  rfl

theorem flatMap_utf8EncodeChar {cs : List Char} (h : IsAscii cs) :
    cs.flatMap String.utf8EncodeChar = bytes cs := by
  induction cs with
  | nil => rfl
  | cons c cs ih =>
    obtain ⟨hc, hcs⟩ := ascii_cons.mp h
    rw [List.flatMap_cons, utf8EncodeChar_ascii hc, ih hcs]
    rfl

theorem toList_loop (bs : ByteArray) (i : ℕ) (r : List UInt8) :
    ByteArray.toList.loop bs i r = r.reverse ++ bs.data.toList.drop i := by
  fun_induction ByteArray.toList.loop bs i r with
  | case1 i r hi ih =>
    have hlen : i < bs.data.toList.length := by simpa using hi
    have hget : bs.get! i = bs.data.toList[i] := by
      simp [ByteArray.get!, hi]
    rw [ih, List.reverse_cons, hget, List.append_assoc, List.singleton_append,
      ← List.drop_eq_getElem_cons]
  | case2 i r hi =>
    rw [List.drop_eq_nil_of_le, List.append_nil]
    simpa using hi

theorem toList_toUTF8 {s : String} (h : IsAscii s.toList) : s.toUTF8.toList = bytes s.toList := by
  rw [ByteArray.toList, toList_loop, List.reverse_nil, List.nil_append, List.drop_zero,
    String.toUTF8_eq_toByteArray, ← String.utf8Encode_toList, List.utf8Encode,
    List.toList_data_toByteArray, flatMap_utf8EncodeChar h]

theorem mem_repr {n : ℕ} {c : Char} (hc : c ∈ n.repr.toList) : 48 ≤ c.toNat ∧ c.toNat ≤ 57 := by
  rw [Nat.toList_repr] at hc
  have hdigit := Nat.isDigit_of_mem_toDigits (by omega) (by omega) hc
  simp only [Char.isDigit, Bool.and_eq_true, decide_eq_true_eq] at hdigit
  exact hdigit

theorem mem_int_repr {n : ℤ} {c : Char} (hc : c ∈ n.repr.toList) : 45 ≤ c.toNat ∧ c.toNat ≤ 57 := by
  cases n with
  | ofNat m =>
    have hdigit := mem_repr (n := m) hc
    omega
  | negSucc m =>
    change c ∈ ("-" ++ m.succ.repr).toList at hc
    rw [String.toList_append, List.mem_append] at hc
    apply hc.elim
    · intro hminus
      obtain rfl : c = '-' := by simpa using hminus
      decide
    · intro hc
      have hdigit := mem_repr hc
      omega

theorem length_repr_int {n : ℤ} {k : ℕ} (hk : 0 < k) (hlo : -(10 ^ k : ℕ) < n) (hhi : n < (10 ^ k : ℕ)) :
    n.repr.length ≤ k + 1 := by
  cases n with
  | ofNat m =>
    have hm : m.repr.length ≤ k := by
      apply (Nat.length_repr_le_iff hk).mpr
      exact Int.ofNat_lt.mp hhi
    change m.repr.length ≤ k + 1
    omega
  | negSucc m =>
    have hm : m.succ.repr.length ≤ k := by
      apply (Nat.length_repr_le_iff hk).mpr
      omega
    change ("-" ++ m.succ.repr).length ≤ k + 1
    rw [String.length_append, show "-".length = 1 from rfl]
    omega

end EmbeddedLinuxTraining.Library.Ascii
