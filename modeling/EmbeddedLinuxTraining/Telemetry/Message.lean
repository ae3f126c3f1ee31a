import EmbeddedLinuxTraining.Library.Ascii
import EmbeddedLinuxTraining.Telemetry.Program

namespace EmbeddedLinuxTraining.Telemetry

open Library.Ascii

/-- `{"type":"telemetry","id":` -/
def ID_PART : CString := ascii ['\x7b', '"', 't', 'y', 'p', 'e', '"', ':', '"', 't', 'e', 'l', 'e', 'm', 'e',
  't', 'r', 'y', '"', ',', '"', 'i', 'd', '"', ':']

/-- `,"ts":` -/
def TS_PART : CString := ascii [',', '"', 't', 's', '"', ':']

/-- `,"sw_version":"` -/
def VERSION_PART : CString := ascii [',', '"', 's', 'w', '_', 'v', 'e', 'r', 's', 'i', 'o', 'n', '"', ':', '"']

/-- `","period":` -/
def PERIOD_PART : CString := ascii ['"', ',', '"', 'p', 'e', 'r', 'i', 'o', 'd', '"', ':']

def END_PART : CString := ascii ['\x7d', '\n']

def decimal (n : ℤ) : CString := ascii n.repr.toList

def telemetryMessage (sample : Sample) : List UInt8 :=
  ID_PART ++ decimal sample.id.toNat ++ TS_PART ++ decimal sample.ts ++ VERSION_PART ++
    sample.swVersion ++ PERIOD_PART ++ decimal sample.period.toInt ++ END_PART

def NEWLINE : UInt8 := 10

structure Sample.Fits (sample : Sample) : Prop where
  swVersion : sample.swVersion.length ≤ 63
  nul : (0 : UInt8) ∉ sample.swVersion
  ts : -2 ^ 63 ≤ sample.ts ∧ sample.ts < 2 ^ 63

instance (sample : Sample) : Decidable sample.Fits :=
  decidable_of_iff (sample.swVersion.length ≤ 63 ∧ (0 : UInt8) ∉ sample.swVersion ∧
    -2 ^ 63 ≤ sample.ts ∧ sample.ts < 2 ^ 63) ⟨fun h => ⟨h.1, h.2.1, h.2.2⟩, fun h => ⟨h.1, h.2, h.3⟩⟩

theorem length_decimal {n : ℤ} {k : ℕ} (hk : 0 < k) (hlo : -(10 ^ k : ℕ) < n) (hhi : n < (10 ^ k : ℕ)) :
    (decimal n).length ≤ k + 1 := by
  rw [decimal, ascii, List.length_map, String.length_toList]
  exact length_repr_int hk hlo hhi

theorem telemetryMessage_fits {sample : Sample} (h : sample.Fits) :
    (telemetryMessage sample).length < 256 := by
  have hid : (decimal sample.id.toNat).length ≤ 20 + 1 := by
    have hlt := sample.id.toNat_lt
    apply length_decimal <;> omega
  have hts : (decimal sample.ts).length ≤ 19 + 1 := by
    obtain ⟨hlo, hhi⟩ := h.ts
    apply length_decimal <;> omega
  have hperiod : (decimal sample.period.toInt).length ≤ 10 + 1 := by
    have hlo := sample.period.le_toInt
    have hhi := sample.period.toInt_lt
    apply length_decimal <;> omega
  have hversion := h.swVersion
  have hparts : ID_PART.length = 25 ∧ TS_PART.length = 6 ∧ VERSION_PART.length = 15 ∧
      PERIOD_PART.length = 11 ∧ END_PART.length = 2 := by decide
  simp only [telemetryMessage, List.length_append]
  omega

theorem telemetryMessage_newline (sample : Sample) :
    ∃ text, telemetryMessage sample = text ++ [NEWLINE] := by
  refine ⟨ID_PART ++ decimal sample.id.toNat ++ TS_PART ++ decimal sample.ts ++ VERSION_PART ++
    sample.swVersion ++ PERIOD_PART ++ decimal sample.period.toInt ++ [125], ?_⟩
  have hend : END_PART = [125] ++ [NEWLINE] := by decide
  rw [telemetryMessage, hend, ← List.append_assoc]

end EmbeddedLinuxTraining.Telemetry
