import EmbeddedLinuxTraining.Library.Json
import EmbeddedLinuxTraining.Telemetry.Framing

/-!
client_example.py, down to `line.decode()`.
-/

namespace EmbeddedLinuxTraining.Telemetry.ClientExample

open Library Library.Json

structure Client where
  lines : List (List UInt8)
  buf : List UInt8
  deriving DecidableEq

def start : Client := ⟨[], []⟩

/-- Without `errors`: where `decode` is `none` it raises UnicodeDecodeError. -/
def decode (line : List UInt8) : Option String := String.fromUTF8? line.toByteArray

def splitOnce (buf : List UInt8) : List UInt8 × List UInt8 :=
  (buf.takeWhile (· ≠ NEWLINE), (buf.dropWhile (· ≠ NEWLINE)).drop 1)

theorem splitOnce_line {line : List UInt8} (h : NEWLINE ∉ line) (rest : List UInt8) :
    splitOnce (line ++ NEWLINE :: rest) = (line, rest) := by
  have hall : ∀ b ∈ line, (decide (b ≠ NEWLINE)) = true := by
    intro b hb
    apply decide_eq_true
    rintro rfl
    exact h hb
  unfold splitOnce
  rw [List.takeWhile_append_of_pos hall, List.dropWhile_append_of_pos hall]
  simp

theorem exists_line {buf : List UInt8} (h : NEWLINE ∈ buf) :
    ∃ line rest, NEWLINE ∉ line ∧ buf = line ++ NEWLINE :: rest := by
  obtain ⟨line, rest, hbuf, hline⟩ := List.eq_append_cons_of_mem h
  exact ⟨line, rest, hline, hbuf⟩

theorem length_splitOnce {buf : List UInt8} (h : NEWLINE ∈ buf) : (splitOnce buf).2.length < buf.length := by
  obtain ⟨line, rest, hline, rfl⟩ := exists_line h
  rw [splitOnce_line hline]
  simp
  omega

/-- `while b"\n" in buf`; `none` when the client ends with a traceback -/
def report (c : Client) : Option Client :=
  if NEWLINE ∈ c.buf then
    match decode (splitOnce c.buf).1 with
    | some _ => report ⟨c.lines ++ [(splitOnce c.buf).1], (splitOnce c.buf).2⟩
    | none => none
  else some c
termination_by c.buf.length
decreasing_by
  apply length_splitOnce
  assumption

/-- `while True`, for what the calls of `recv` return; after the last of them it waits in `recv`. -/
def receive (c : Client) : List (List UInt8) → Option Client
  | [] => some c
  | data :: rest => if data = [] then some c else (report ⟨c.lines, c.buf ++ data⟩).bind (receive · rest)

def Decodable (line : List UInt8) : Prop := (decode line).isSome

instance (line : List UInt8) : Decidable (Decodable line) :=
  inferInstanceAs (Decidable ((decode line).isSome = true))

theorem decodable_iff {line : List UInt8} : Decodable line ↔ ∃ cs, line = octets cs := by
  unfold Decodable decode String.fromUTF8?
  split_ifs with h
  · obtain ⟨cs, hcs⟩ := h
    have hline := congrArg (fun bytes => bytes.data.toList) hcs
    simp only [List.utf8Encode, List.toList_data_toByteArray] at hline
    simp only [Option.isSome_some, true_iff]
    exact ⟨cs, hline⟩
  · simp only [Option.isSome_none, Bool.false_eq_true, false_iff]
    rintro ⟨cs, rfl⟩
    exact h ⟨cs, rfl⟩

theorem report_eq (c : Client) :
    report c = if ∀ line ∈ (Lines.split NEWLINE c.buf).1, Decodable line then
      some ⟨c.lines ++ (Lines.split NEWLINE c.buf).1, (Lines.split NEWLINE c.buf).2⟩ else none := by
  fun_induction report c with
  | case1 c h text htext ih =>
    obtain ⟨line, rest, hline, hbuf⟩ := exists_line h
    have hsplit : splitOnce c.buf = (line, rest) := by rw [hbuf, splitOnce_line hline]
    rw [hsplit] at ih htext ⊢
    have hdecodable : Decodable line := by
      rw [Decodable, htext]
      rfl
    rw [ih, hbuf, Lines.split_line NEWLINE hline]
    simp [hdecodable]
  | case2 c h htext =>
    obtain ⟨line, rest, hline, hbuf⟩ := exists_line h
    rw [hbuf, splitOnce_line hline] at htext
    have hdecodable : ¬ Decodable line := by
      rw [Decodable, htext]
      nofun
    rw [hbuf, Lines.split_line NEWLINE hline]
    simp [hdecodable]
  | case3 c h =>
    rw [Lines.split_open NEWLINE h]
    simp

theorem receive_eq {chunks : List (List UInt8)} (hchunks : ∀ data ∈ chunks, data ≠ []) (c : Client)
    (hc : NEWLINE ∉ c.buf) :
    receive c chunks = if ∀ line ∈ (Lines.split NEWLINE (c.buf ++ chunks.flatten)).1, Decodable line then
      some ⟨c.lines ++ (Lines.split NEWLINE (c.buf ++ chunks.flatten)).1,
        (Lines.split NEWLINE (c.buf ++ chunks.flatten)).2⟩ else none := by
  induction chunks generalizing c with
  | nil =>
    rw [List.flatten_nil, List.append_nil, Lines.split_open NEWLINE hc]
    simp [receive]
  | cons data chunks ih =>
    have hdata : data ≠ [] := hchunks data List.mem_cons_self
    have hrest : ∀ data ∈ chunks, data ≠ [] := by
      intro data hmem
      exact hchunks data (List.mem_cons_of_mem _ hmem)
    rw [receive, if_neg hdata, report_eq, List.flatten_cons, ← List.append_assoc,
      Lines.split_append NEWLINE (c.buf ++ data)]
    by_cases hreported : ∀ line ∈ (Lines.split NEWLINE (c.buf ++ data)).1, Decodable line
    · rw [if_pos hreported, Option.bind_some, ih hrest _ (Lines.not_mem_split_rest NEWLINE _)]
      simp only [List.append_assoc]
      apply if_congr _ rfl rfl
      rw [List.forall_mem_append]
      exact (and_iff_right hreported).symm
    · rw [if_neg hreported, Option.bind_none, if_neg]
      intro hall
      exact hreported (List.forall_mem_append.mp hall).1

theorem receive_start {chunks : List (List UInt8)} (hchunks : ∀ data ∈ chunks, data ≠ []) :
    receive start chunks = if ∀ line ∈ (Lines.split NEWLINE chunks.flatten).1, Decodable line then
      some ⟨(Lines.split NEWLINE chunks.flatten).1, (Lines.split NEWLINE chunks.flatten).2⟩ else none :=
  receive_eq hchunks start List.not_mem_nil

structure Splits (lines : List (List UInt8)) (tail : List UInt8) (chunks : List (List UInt8)) : Prop where
  extracted : receive start chunks = some ⟨lines, tail⟩
  always : ∀ received, received <+: chunks → ∃ c, receive start received = some c ∧
    c.lines.flatMap (· ++ [NEWLINE]) ++ c.buf = received.flatten

theorem splits_iff {lines : List (List UInt8)} {tail : List UInt8} {chunks : List (List UInt8)}
    (hlines : ∀ line ∈ lines, NEWLINE ∉ line) (htail : NEWLINE ∉ tail)
    (hchunks : ∀ data ∈ chunks, data ≠ [] ∧ data.length ≤ 4096)
    (hstream : chunks.flatten = lines.flatMap (· ++ [NEWLINE]) ++ tail) :
    Splits lines tail chunks ↔ ∀ line ∈ lines, ∃ cs, line = octets cs := by
  have hnonempty : ∀ data ∈ chunks, data ≠ [] := fun data hdata => (hchunks data hdata).1
  have hsplit : Lines.split NEWLINE chunks.flatten = (lines, tail) := by
    rw [hstream, Lines.split_lines NEWLINE hlines htail]
  have hrun := receive_start hnonempty
  rw [hsplit] at hrun
  simp only [← decodable_iff]
  constructor
  · intro h
    by_contra hbad
    have hextracted := h.extracted
    rw [hrun, if_neg hbad] at hextracted
    cases hextracted
  · intro h
    constructor
    · rw [hrun, if_pos h]
    · intro received hreceived
      obtain ⟨later, rfl⟩ := hreceived
      have hearly : ∀ data ∈ received, data ≠ [] := by
        intro data hdata
        exact hnonempty data (List.mem_append_left _ hdata)
      have hdecodable : ∀ line ∈ (Lines.split NEWLINE received.flatten).1, Decodable line := by
        intro line hline
        rw [List.flatten_append, Lines.split_append] at hsplit
        apply h
        have hall := congrArg Prod.fst hsplit
        simp only at hall
        rw [← hall]
        exact List.mem_append_left _ hline
      rw [receive_start hearly, if_pos hdecodable]
      refine ⟨_, rfl, ?_⟩
      exact Lines.split_join NEWLINE received.flatten

theorem splits_iff_two : Splits [[97], [98]] [99] [[97, 10, 98], [10, 99]] ↔
    ∀ line ∈ [[97], [98]], ∃ cs, line = octets cs :=
  splits_iff (by decide) (by decide) (by decide) (by decide)

theorem not_splits : ¬ ∀ (lines : List (List UInt8)) (tail : List UInt8) (chunks : List (List UInt8)),
    (∀ line ∈ lines, NEWLINE ∉ line) → NEWLINE ∉ tail →
    (∀ data ∈ chunks, data ≠ [] ∧ data.length ≤ 4096) →
    chunks.flatten = lines.flatMap (· ++ [NEWLINE]) ++ tail → Splits lines tail chunks := by
  intro h
  have hsplits := h [[0xC3]] [] [[0xC3, 10]] (by decide) (by decide) (by decide) (by decide)
  have hrun := hsplits.extracted
  rw [receive_start (by decide)] at hrun
  revert hrun
  decide

theorem receive_recv {chunks : List (List UInt8)} (hchunks : ∀ data ∈ chunks, data ≠ []) {c : Client}
    (h : receive start chunks = some c) : chunks.foldl Connections.recv ([], []) = (c.lines, c.buf) := by
  rw [receive_start hchunks] at h
  obtain ⟨-, hc⟩ := Option.ite_none_right_eq_some.mp h
  have hfold : chunks.foldl Connections.recv ([], []) = Lines.split NEWLINE chunks.flatten :=
    Lines.foldl_receive NEWLINE chunks []
  cases hc
  exact hfold

end EmbeddedLinuxTraining.Telemetry.ClientExample
