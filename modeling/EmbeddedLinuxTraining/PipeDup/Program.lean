import EmbeddedLinuxTraining.Library.Ascii
import EmbeddedLinuxTraining.Library.Buffer
import EmbeddedLinuxTraining.Library.Scanf

/-!
The two processes of pipe_dup.c. The parent reads from the pipe as its standard input, and so the file
ends when the child has exited.
-/

namespace EmbeddedLinuxTraining.PipeDup

open Library Library.Scanf

def EOF : ℤ := -1

theorem word_fits {stdin rest : File} {word : List UInt8} (h : scanString 255 stdin = (some word, rest)) :
    (word ++ [0]).length ≤ 256 := by
  have hle := (stored_of_scanString (by decide) h).length_le
  rw [List.length_append, List.length_singleton]
  omega

def scanf (buf : Buffer 256) (stdin : File) : ℤ × Buffer 256 × File :=
  match _h : scanString 255 stdin with
  | (none, rest) => (EOF, buf, rest)
  | (some word, rest) => (1, buf.store (word ++ [0]) (word_fits _h), rest)

def RECEIVED : List UInt8 := Ascii.bytes "Parent received: ".toList

theorem scanf_eof {buf : Buffer 256} {stdin rest : File} (h : scanString 255 stdin = (none, rest)) :
    scanf buf stdin = (EOF, buf, rest) := by
  rw [scanf]
  split <;> simp_all

theorem scanf_word (buf : Buffer 256) {stdin rest : File} {word : List UInt8}
    (h : scanString 255 stdin = (some word, rest)) :
    scanf buf stdin = (1, buf.store (word ++ [0]) (word_fits h), rest) := by
  rw [scanf]
  split
  · simp_all
  · rename_i h'
    cases h'.symm.trans h
    rfl

theorem scanf_shorter {buf : Buffer 256} {stdin : File} (h : (scanf buf stdin).1 ≠ EOF) :
    (scanf buf stdin).2.2.content.length < stdin.content.length := by
  cases hscan : scanString 255 stdin with
  | mk stored rest =>
    cases stored with
    | none =>
      rw [scanf_eof hscan] at h
      exact absurd rfl h
    | some word =>
      rw [scanf_word buf hscan]
      exact (stored_of_scanString (by decide) hscan).length_lt

def parent (buf : Buffer 256) (stdin : File) : List (List UInt8) × File :=
  if _h : (scanf buf stdin).1 = EOF then ([], (scanf buf stdin).2.2)
  else
    let n := (scanf buf stdin).1
    let buf' := (scanf buf stdin).2.1.set n.toNat 0
    let more := parent buf' (scanf buf stdin).2.2
    ((RECEIVED ++ buf'.text) :: more.1, more.2)
termination_by stdin.content.length
decreasing_by exact scanf_shorter _h

def childOutput : List UInt8 := Ascii.bytes "Hello from child via stdout\n".toList

def Delivered (buf : Buffer 256) (stdin : File) : Prop :=
  (parent buf stdin).1 = ((words stdin.content).flatMap (pieces 255)).map (RECEIVED ++ ·) ∧
    (parent buf stdin).2.content = []

variable {buf : Buffer 256} {stdin rest : File} {word : List UInt8}

theorem parent_eof (h : scanString 255 stdin = (none, rest)) : parent buf stdin = ([], rest) := by
  rw [parent, scanf_eof h]
  rfl

/-- The terminator goes to index 1, the number of items, and cuts the piece to its first byte. -/
theorem parent_word (buf : Buffer 256) (h : scanString 255 stdin = (some word, rest)) (hnul : 0 ∉ word) :
    ∃ buf', parent buf stdin = ((RECEIVED ++ word.take 1) :: (parent buf' rest).1, (parent buf' rest).2) := by
  have htext : ((buf.store (word ++ [0]) (word_fits h)).set 1 0).text = word.take 1 := by
    cases word with
    | nil => exact absurd rfl (stored_of_scanString (by decide) h).ne_nil
    | cons b word =>
      have hb : b ≠ 0 := (List.ne_of_not_mem_cons hnul).symm
      cases word with
      | nil => simp [Buffer.text, Buffer.set, Buffer.store, hb]
      | cons b' word => simp [Buffer.text, Buffer.set, Buffer.store, hb]
  refine ⟨(buf.store (word ++ [0]) (word_fits h)).set 1 0, ?_⟩
  rw [parent, scanf_word buf h, dif_neg (show (1 : ℤ) ≠ EOF by decide)]
  simp only [Int.toNat_one, htext]

theorem parent_prints (buf : Buffer 256) (hnul : 0 ∉ stdin.content) :
    (parent buf stdin).1 = ((words stdin.content).flatMap (pieces 255)).map (RECEIVED ++ ·.take 1) ∧
      (parent buf stdin).2.content = [] := by
  induction hn : stdin.content.length using Nat.strong_induction_on generalizing buf stdin with
  | _ n ih =>
    subst hn
    cases hscan : scanString 255 stdin with
    | mk stored rest =>
      cases stored with
      | none =>
        obtain ⟨hwords, hrest⟩ := words_of_scanString_eof hscan
        rw [parent_eof hscan, hwords]
        exact ⟨rfl, hrest⟩
      | some word =>
        have hstored := stored_of_scanString (by decide) hscan
        have hsuffix : 0 ∉ word ++ rest.content := fun h => hnul (hstored.suffix.mem h)
        obtain ⟨hword, hrest⟩ := not_or.mp (mt List.mem_append.mpr hsuffix)
        obtain ⟨buf', hparent⟩ := parent_word buf hscan hword
        obtain ⟨hprints, hend⟩ := ih _ hstored.length_lt buf' hrest rfl
        rw [hparent, hstored.pieces, List.map_cons]
        exact ⟨congrArg _ hprints, hend⟩

theorem Delivered.length_le (h : Delivered buf stdin) (hnul : 0 ∉ stdin.content) :
    ∀ w ∈ (words stdin.content).flatMap (pieces 255), w.length ≤ 1 := by
  have hmap := (parent_prints buf hnul).1.symm.trans h.1
  intro w hw
  have hcut := List.append_cancel_left (List.map_inj_left.mp hmap w hw)
  rw [← hcut]
  exact List.length_take_le _ _

/-- The parent prints the words of those streams only in which every word is one byte long. -/
theorem pipe_words (hnul : 0 ∉ stdin.content) :
    Delivered buf stdin ↔ ∀ w ∈ words stdin.content, w.length = 1 := by
  constructor
  · intro h w hw
    have hne := ne_nil_of_mem_words hw
    have hmem : w.take 255 ∈ pieces 255 w := by
      rw [pieces_of_ne_nil hne (by decide)]
      exact List.mem_cons_self
    have hle := h.length_le hnul _ (List.mem_flatMap.mpr ⟨w, hw, hmem⟩)
    have hpos := List.length_pos_iff.mpr hne
    rw [List.length_take] at hle
    omega
  · intro h
    obtain ⟨hprints, hend⟩ := parent_prints buf hnul
    refine ⟨hprints.trans (List.map_congr_left fun piece hpiece => ?_), hend⟩
    obtain ⟨w, hw, hmem⟩ := List.mem_flatMap.mp hpiece
    have hone := h w hw
    rw [pieces_of_length_le (ne_nil_of_mem_words hw) (by omega)] at hmem
    rw [List.mem_singleton.mp hmem, List.take_of_length_le (by omega)]

def uninitialized : Buffer 256 := ⟨List.replicate 256 0, List.length_replicate⟩

theorem pipe_words_letters : Delivered uninitialized ⟨Ascii.bytes "H i\n".toList, []⟩ ∧
    ¬ Delivered uninitialized ⟨Ascii.bytes "Hi\n".toList, []⟩ := by
  constructor
  · exact (pipe_words (by decide)).mpr (by decide)
  · intro h
    exact absurd ((pipe_words (by decide)).mp h) (by decide)

theorem hello_cut : ¬ Delivered uninitialized ⟨childOutput, []⟩ := by
  intro h
  have hword : Ascii.bytes "Hello".toList ∈ words childOutput := by decide
  have hpiece : Ascii.bytes "Hello".toList ∈ pieces 255 (Ascii.bytes "Hello".toList) := by
    rw [pieces_of_length_le (by decide) (by decide)]
    exact List.mem_cons_self
  have hle := h.length_le (by decide) _ (List.mem_flatMap.mpr ⟨_, hword, hpiece⟩)
  exact absurd hle (by decide)

end EmbeddedLinuxTraining.PipeDup
