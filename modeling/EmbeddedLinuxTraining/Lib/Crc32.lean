import EmbeddedLinuxTraining.Library.Crc

/-!
`compute_crc32` of lib.c, the same in the four labs.
-/

namespace EmbeddedLinuxTraining.Lib

open Library Polynomial

def shiftBit (crc : UInt32) : UInt32 := if crc &&& 1 ≠ 0 then (crc >>> 1) ^^^ 0xEDB88320 else crc >>> 1

def crcLoop (crc : UInt32) (buf : List UInt8) : UInt32 :=
  buf.foldl (fun crc p => shiftBit^[8] (crc ^^^ p.toUInt32)) crc

def computeCrc32 (size : UInt32) (buf : Vector UInt8 size.toNat) : UInt32 := crcLoop 0 buf.toList ^^^ ~~~0

def FEEDBACK : BitVec 32 := 0xEDB88320#32

def messageBits (buf : List UInt8) : List Bool := Crc.messageBits (buf.map UInt8.toBitVec)

noncomputable def GENERATOR : (ZMod 2)[X] :=
  X ^ 32 + X ^ 26 + X ^ 23 + X ^ 22 + X ^ 16 + X ^ 12 + X ^ 11 + X ^ 10 + X ^ 8 + X ^ 7 + X ^ 5 + X ^ 4 +
    X ^ 2 + X + 1

def crc32 (buf : List UInt8) : UInt32 :=
  ⟨~~~Crc.register FEEDBACK (BitVec.allOnes 32) (buf.map UInt8.toBitVec)⟩

/-- The check value of the standard, for the text `123456789` -/
example : crc32 [49, 50, 51, 52, 53, 54, 55, 56, 57] = 0xCBF43926 := by decide +kernel

theorem generator_feedback : Crc.generator FEEDBACK = GENERATOR := by
  have hbits : Crc.bits FEEDBACK = [false, false, false, false, false, true, false, false, true, true, false,
      false, false, false, false, true, false, false, false, true, true, true, false, true, true, false, true,
      true, false, true, true, true] := by decide
  rw [Crc.generator, Crc.poly, hbits, GENERATOR]
  simp only [Crc.ofBits, List.length_cons, List.length_nil]
  simp
  ring

theorem low_bit (crc : UInt32) : crc &&& 1 ≠ 0 ↔ crc.toBitVec.getLsbD 0 = true := by
  have hand : (crc &&& 1).toBitVec = BitVec.setWidth 32 (BitVec.ofBool (crc.toBitVec.getLsbD 0)) := by
    rw [UInt32.toBitVec_and]
    exact BitVec.and_one_eq_setWidth_ofBool_getLsbD
  rw [Ne, ← UInt32.toBitVec_inj, hand]
  cases crc.toBitVec.getLsbD 0 <;> simp

theorem toBitVec_shiftBit (crc : UInt32) : (shiftBit crc).toBitVec = Crc.shift FEEDBACK crc.toBitVec := by
  unfold shiftBit Crc.shift
  simp only [low_bit]
  split_ifs <;> simp [FEEDBACK]

theorem toBitVec_iterate_shiftBit (n : ℕ) (crc : UInt32) :
    (shiftBit^[n] crc).toBitVec = (Crc.shift FEEDBACK)^[n] crc.toBitVec := by
  induction n generalizing crc with
  | zero => rfl
  | succ n ih => rw [Function.iterate_succ_apply, Function.iterate_succ_apply, ih, toBitVec_shiftBit]

theorem toBitVec_crcLoop (buf : List UInt8) (crc : UInt32) :
    (crcLoop crc buf).toBitVec = Crc.register FEEDBACK crc.toBitVec (buf.map UInt8.toBitVec) := by
  induction buf generalizing crc with
  | nil => rfl
  | cons p buf ih =>
    rw [crcLoop, List.foldl_cons, ← crcLoop, ih, toBitVec_iterate_shiftBit]
    rfl

theorem complement_computeCrc32 (size : UInt32) (buf : Vector UInt8 size.toNat) :
    (~~~computeCrc32 size buf).toBitVec = Crc.register FEEDBACK 0 (buf.toList.map UInt8.toBitVec) := by
  have hones : (~~~(0 : UInt32)).toBitVec = BitVec.allOnes 32 := by decide
  rw [computeCrc32, UInt32.toBitVec_not, UInt32.toBitVec_xor, toBitVec_crcLoop, hones, BitVec.xor_allOnes,
    BitVec.not_not]
  rfl

theorem length_messageBits_eq {a b : List UInt8} (h : a.length = b.length) :
    (messageBits a).length = (messageBits b).length := by
  simp [messageBits, Crc.messageBits, List.length_flatMap, Function.comp_def, h]

theorem messageBits_injective {a b : List UInt8} (h : messageBits a = messageBits b) : a = b := by
  apply List.map_injective_iff.mpr (fun p q => UInt8.toBitVec_inj.mp)
  exact Crc.messageBits_injective (by omega) h

/-- The complement of the checksum is the reflected remainder of the message. -/
theorem computeCrc32_remainder (size : UInt32) (buf : Vector UInt8 size.toNat) (j : Fin 32) :
    (~~~computeCrc32 size buf).toBitVec.getLsbD j = true ↔
      ((Crc.ofBits (messageBits buf.toList) * X ^ 32) %ₘ GENERATOR).coeff (31 - j) = 1 := by
  have hremainder := Crc.remainder_register (by omega) FEEDBACK 0 (buf.toList.map UInt8.toBitVec)
  have hj := j.isLt
  have hlt : 31 - (j : ℕ) < 32 := by omega
  have hi : 32 - 1 - (31 - (j : ℕ)) = j := by omega
  rw [Crc.poly_zero, zero_mul, zero_add, generator_feedback, ← complement_computeCrc32] at hremainder
  rw [messageBits, hremainder, Crc.coeff_poly, hi]
  simp [hlt]

theorem computeCrc32_burst {size : UInt32} {a b : Vector UInt8 size.toNat} (hne : a ≠ b)
    (hwindow : ∃ k, ∀ i, (messageBits a.toList)[i]? ≠ (messageBits b.toList)[i]? → k ≤ i ∧ i < k + 32) :
    computeCrc32 size a ≠ computeCrc32 size b := by
  obtain ⟨k, hwindow⟩ := hwindow
  have hlengths : (messageBits a.toList).length = (messageBits b.toList).length := by
    apply length_messageBits_eq
    rw [Vector.length_toList, Vector.length_toList]
  intro h
  have hregister : Crc.register FEEDBACK 0 (a.toList.map UInt8.toBitVec) =
      Crc.register FEEDBACK 0 (b.toList.map UInt8.toBitVec) := by
    rw [← complement_computeCrc32, ← complement_computeCrc32, h]
  have hdvd := Crc.generator_dvd_of_register_eq (by omega) hregister
  have hburst := Crc.not_generator_dvd_burst (g := FEEDBACK) (by omega) (by decide) hlengths
    (fun hbits => hne (Vector.toList_inj.mp (messageBits_injective hbits))) hwindow 32
  apply hburst
  unfold messageBits at hlengths ⊢
  rw [hlengths] at hdvd
  convert hdvd using 1
  ring

theorem computeCrc32_burst_bytes :
    computeCrc32 3 ⟨#[0x10, 0x00, 0x41], rfl⟩ ≠ computeCrc32 3 ⟨#[0x10, 0x80, 0x42], rfl⟩ := by
  apply computeCrc32_burst (by decide)
  refine ⟨8, ?_⟩
  intro i hi
  have hlong : ∀ k < 24, ¬ (8 ≤ k ∧ k < 8 + 32) →
      (messageBits [0x10, 0x00, 0x41])[k]? = (messageBits [0x10, 0x80, 0x42])[k]? := by decide
  by_cases hlt : i < 24
  · by_contra hout
    exact hi (hlong i hlt hout)
  · exfalso
    apply hi
    rw [List.getElem?_eq_none, List.getElem?_eq_none]
    · exact Nat.not_lt.mp hlt
    · exact Nat.not_lt.mp hlt

theorem shiftBit_zero (n : ℕ) : shiftBit^[n] 0 = 0 := Function.iterate_fixed (by decide) n

theorem crcLoop_replicate_zero (n : ℕ) (buf : List UInt8) :
    crcLoop 0 (List.replicate n 0 ++ buf) = crcLoop 0 buf := by
  induction n with
  | zero => rfl
  | succ n ih =>
    have hzero : shiftBit^[8] ((0 : UInt32) ^^^ (0 : UInt8).toUInt32) = 0 := shiftBit_zero 8
    rw [← ih, List.replicate_succ, List.cons_append, crcLoop, List.foldl_cons, hzero]
    rfl

/-- With the register preset to zero no checksum is the standard one, and leading zero bytes are not seen. -/
theorem computeCrc32_not_standard (size : UInt32) (buf : Vector UInt8 size.toNat) :
    computeCrc32 size buf ≠ crc32 buf.toList ∧
      ∀ (n : ℕ) (longer : UInt32) (padded : Vector UInt8 longer.toNat),
        padded.toList = List.replicate n 0 ++ buf.toList → computeCrc32 longer padded = computeCrc32 size buf := by
  constructor
  · intro h
    have hregister : Crc.register FEEDBACK 0 (buf.toList.map UInt8.toBitVec) =
        Crc.register FEEDBACK (BitVec.allOnes 32) (buf.toList.map UInt8.toBitVec) := by
      rw [← complement_computeCrc32, h, crc32, UInt32.toBitVec_not, BitVec.not_not]
    have hdvd := Crc.generator_dvd_of_register_eq (by omega) hregister
    have hones : Crc.poly (BitVec.allOnes 32) ≠ 0 := by
      intro hzero
      have hcoeff := Crc.coeff_poly (BitVec.allOnes 32) 0
      have hhigh : 0 < 32 ∧ (BitVec.allOnes 32).getLsbD (32 - 1 - 0) = true := by decide
      rw [hzero, coeff_zero, if_pos hhigh] at hcoeff
      exact zero_ne_one hcoeff
    apply Crc.not_generator_dvd (g := FEEDBACK) (by omega) (by decide) hones (Crc.degree_poly_lt _)
      (Crc.messageBits (buf.toList.map UInt8.toBitVec)).length
    rw [← dvd_neg]
    convert hdvd using 1
    rw [Crc.poly_zero]
    ring
  · intro n longer padded hpadded
    rw [computeCrc32, computeCrc32, hpadded, crcLoop_replicate_zero]

theorem not_standard :
    ¬ ∀ (size : UInt32) (buf : Vector UInt8 size.toNat), computeCrc32 size buf = crc32 buf.toList := by
  intro h
  have hzero : computeCrc32 1 ⟨#[0], rfl⟩ = crc32 [0] := h 1 ⟨#[0], rfl⟩
  revert hzero
  decide

end EmbeddedLinuxTraining.Lib
