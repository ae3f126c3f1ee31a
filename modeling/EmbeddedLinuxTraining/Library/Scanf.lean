import EmbeddedLinuxTraining.Library.Strtol

/-!
`%s` of `scanf` with a field width, on a stream that is filled by reads of any sizes. What it returns
until the end of the stream are the words of the stream, cut into pieces of that width.
-/

namespace EmbeddedLinuxTraining.Library.Scanf

open Strtol

/-- What is buffered, and the reads to come before the end of the file. A read brings a byte at least. -/
structure File where
  buffer : List UInt8
  reads : List (UInt8 × List UInt8)

namespace File

def content (s : File) : List UInt8 := s.buffer ++ s.reads.flatMap fun r => r.1 :: r.2

def getc : File → Option (UInt8 × File)
  | ⟨b :: buffer, reads⟩ => some (b, ⟨buffer, reads⟩)
  | ⟨[], (b, buffer) :: reads⟩ => some (b, ⟨buffer, reads⟩)
  | ⟨[], []⟩ => none

def ungetc (s : File) (b : UInt8) : File := { s with buffer := b :: s.buffer }

@[simp] theorem content_ungetc (s : File) (b : UInt8) : (s.ungetc b).content = b :: s.content := rfl

theorem content_of_getc {s t : File} {b : UInt8} (h : s.getc = some (b, t)) :
    s.content = b :: t.content := by
  obtain ⟨_ | ⟨a, buffer⟩, _ | ⟨⟨a', buffer'⟩, reads⟩⟩ := s
  · cases h
  · cases h
    simp [content]
  · cases h
    rfl
  · cases h
    rfl

theorem getc_eq_none {s : File} (h : s.getc = none) : s.content = [] := by
  obtain ⟨_ | ⟨a, buffer⟩, _ | ⟨⟨a', buffer'⟩, reads⟩⟩ := s
  · rfl
  · cases h
  · cases h
  · cases h

end File

open File

def skipSpaces (s : File) : File :=
  match _h : s.getc with
  | none => s
  | some (b, t) => if isspace b then skipSpaces t else t.ungetc b
termination_by s.content.length
decreasing_by
  rw [content_of_getc _h]
  exact Nat.lt_succ_self _

def takeWord : ℕ → File → List UInt8 × File
  | 0, s => ([], s)
  | width + 1, s =>
    match s.getc with
    | none => ([], s)
    | some (b, t) =>
      if isspace b then ([], t.ungetc b) else (b :: (takeWord width t).1, (takeWord width t).2)

def scanString (width : ℕ) (s : File) : Option (List UInt8) × File :=
  let t := skipSpaces s
  match t.getc with
  | none => (none, t)
  | some _ => (some (takeWord width t).1, (takeWord width t).2)

def words (bytes : List UInt8) : List (List UInt8) := (bytes.splitOnP isspace).filter (· ≠ [])

def pieces (width : ℕ) (w : List UInt8) : List (List UInt8) :=
  if _h : w = [] ∨ width = 0 then [] else w.take width :: pieces width (w.drop width)
termination_by w.length
decreasing_by
  obtain ⟨hw, hwidth⟩ := not_or.mp _h
  have hpos := List.length_pos_iff.mpr hw
  rw [List.length_drop]
  omega

theorem skipSpaces_none {s : File} (h : s.getc = none) : skipSpaces s = s := by
  rw [skipSpaces]
  split <;> simp_all

theorem skipSpaces_some {s t : File} {b : UInt8} (h : s.getc = some (b, t)) :
    skipSpaces s = if isspace b then skipSpaces t else t.ungetc b := by
  rw [skipSpaces]
  split <;> simp_all

theorem content_skipSpaces (s : File) : (skipSpaces s).content = s.content.dropWhile isspace := by
  induction s using skipSpaces.induct with
  | case1 s h =>
    rw [skipSpaces_none h, getc_eq_none h]
    rfl
  | case2 s b t h hb ih =>
    rw [skipSpaces_some h, if_pos hb, ih, content_of_getc h, List.dropWhile_cons_of_pos hb]
  | case3 s b t h hb =>
    rw [skipSpaces_some h, if_neg hb, content_ungetc, content_of_getc h, List.dropWhile_cons_of_neg hb]

theorem takeWord_none {s : File} (width : ℕ) (h : s.getc = none) : takeWord (width + 1) s = ([], s) := by
  rw [takeWord, h]

theorem takeWord_some {s t : File} {b : UInt8} (width : ℕ) (h : s.getc = some (b, t)) :
    takeWord (width + 1) s =
      if isspace b then ([], t.ungetc b) else (b :: (takeWord width t).1, (takeWord width t).2) := by
  rw [takeWord, h]

theorem takeWord_fst (width : ℕ) (s : File) :
    (takeWord width s).1 = (s.content.takeWhile fun b => !isspace b).take width := by
  induction width generalizing s with
  | zero => rfl
  | succ width ih =>
    cases hget : s.getc with
    | none => rw [takeWord_none width hget, getc_eq_none hget, List.takeWhile_nil, List.take_nil]
    | some r =>
      obtain ⟨b, t⟩ := r
      rw [takeWord_some width hget, content_of_getc hget]
      by_cases hb : isspace b
      · simp [hb]
      · simp [hb, ih t]

theorem takeWord_content (width : ℕ) (s : File) :
    s.content = (takeWord width s).1 ++ (takeWord width s).2.content := by
  induction width generalizing s with
  | zero => rfl
  | succ width ih =>
    cases hget : s.getc with
    | none => rw [takeWord_none width hget, List.nil_append]
    | some r =>
      obtain ⟨b, t⟩ := r
      rw [takeWord_some width hget, content_of_getc hget]
      by_cases hb : isspace b
      · simp [hb]
      · simp only [hb, Bool.false_eq_true, if_false, List.cons_append]
        rw [← ih t]

variable {b : UInt8} {bytes w rest : List UInt8} {width : ℕ}

theorem words_cons_space (hb : isspace b = true) : words (b :: bytes) = words bytes := by
  have hsplit : ([] ++ b :: bytes).splitOnP isspace = [] :: bytes.splitOnP isspace := by
    apply List.splitOnP_append_cons_of_forall_mem _ b hb bytes
    exact fun x hx => absurd hx List.not_mem_nil
  rw [words, ← List.nil_append (b :: bytes), hsplit]
  simp [words]

theorem ne_nil_of_mem_words (hw : w ∈ words bytes) : w ≠ [] := by
  simpa using (List.mem_filter.mp hw).2

theorem words_dropWhile (bytes : List UInt8) : words (bytes.dropWhile isspace) = words bytes := by
  induction bytes with
  | nil => rfl
  | cons b bytes ih =>
    by_cases hb : isspace b = true
    · rw [List.dropWhile_cons_of_pos hb, ih, words_cons_space hb]
    · rw [List.dropWhile_cons_of_neg hb]

theorem words_append (hw : ∀ b ∈ w, isspace b = false) (hrest : ∀ b ∈ rest.head?, isspace b = true) :
    words (w ++ rest) = [w].filter (· ≠ []) ++ words rest := by
  cases rest with
  | nil => simp [words, List.splitOnP_eq_singleton hw]
  | cons b rest =>
    have hb := hrest b rfl
    rw [words, List.splitOnP_append_cons_of_forall_mem hw b hb, words_cons_space hb, words,
      ← List.filter_append]
    rfl

theorem pieces_nil (width : ℕ) : pieces width [] = [] := by
  rw [pieces, dif_pos (.inl rfl)]

theorem pieces_of_ne_nil (hw : w ≠ []) (hwidth : width ≠ 0) :
    pieces width w = w.take width :: pieces width (w.drop width) := by
  rw [pieces, dif_neg (not_or.mpr ⟨hw, hwidth⟩)]

theorem pieces_of_length_le (hw : w ≠ []) (hle : w.length ≤ width) : pieces width w = [w] := by
  have hpos := List.length_pos_iff.mpr hw
  rw [pieces_of_ne_nil hw (by omega), List.take_of_length_le hle, List.drop_eq_nil_of_le hle, pieces_nil]

theorem pieces_words_append (hw : ∀ b ∈ w, isspace b = false)
    (hrest : ∀ b ∈ rest.head?, isspace b = true) :
    (words (w ++ rest)).flatMap (pieces width) =
      pieces width w ++ (words rest).flatMap (pieces width) := by
  rw [words_append hw hrest, List.flatMap_append]
  congr 1
  by_cases hnil : w = []
  · simp [hnil, pieces_nil]
  · simp [hnil]

theorem words_of_scanString_eof {s t : File} (h : scanString width s = (none, t)) :
    words s.content = [] ∧ t.content = [] := by
  cases hget : (skipSpaces s).getc with
  | none =>
    simp only [scanString, hget, Prod.mk.injEq, true_and] at h
    subst h
    have hnil := getc_eq_none hget
    refine ⟨?_, hnil⟩
    rw [← words_dropWhile, ← content_skipSpaces, hnil]
    rfl
  | some r => simp [scanString, hget] at h

theorem exists_word (hne : bytes ≠ []) (hhead : ∀ b ∈ bytes.head?, isspace b = false) :
    ∃ w rest, bytes = w ++ rest ∧ (bytes.takeWhile fun b => !isspace b) = w ∧ w ≠ [] ∧
      (∀ b ∈ w, isspace b = false) ∧ ∀ b ∈ rest.head?, isspace b = true := by
  refine ⟨bytes.takeWhile fun b => !isspace b, bytes.dropWhile fun b => !isspace b,
    List.takeWhile_append_dropWhile.symm, rfl, ?_, ?_, ?_⟩
  · cases bytes with
    | nil => exact absurd rfl hne
    | cons b bytes => simp [hhead b rfl]
  · intro b hb
    simpa using List.mem_takeWhile_imp hb
  · intro b hb
    have hnot := List.head?_dropWhile_not (fun b => !isspace b) bytes
    rw [hb] at hnot
    simpa using hnot

structure Stored (width : ℕ) (s : File) (w : List UInt8) (t : File) : Prop where
  ne_nil : w ≠ []
  length_le : w.length ≤ width
  suffix : w ++ t.content <:+ s.content
  pieces : (words s.content).flatMap (pieces width) = w :: (words t.content).flatMap (pieces width)

theorem Stored.length_lt {s t : File} (h : Stored width s w t) : t.content.length < s.content.length := by
  have hle := h.suffix.length_le
  have hpos := List.length_pos_iff.mpr h.ne_nil
  rw [List.length_append] at hle
  omega

theorem stored_of_scanString {s t : File} (hwidth : width ≠ 0) (h : scanString width s = (some w, t)) :
    Stored width s w t := by
  have hskip := content_skipSpaces s
  have hfst := takeWord_fst width (skipSpaces s)
  have hcontent := takeWord_content width (skipSpaces s)
  cases hget : (skipSpaces s).getc with
  | none => simp [scanString, hget] at h
  | some r =>
    simp only [scanString, hget, Prod.mk.injEq, Option.some.injEq] at h
    obtain ⟨rfl, rfl⟩ := h
    have hne : (skipSpaces s).content ≠ [] := by
      rw [content_of_getc hget]
      exact List.cons_ne_nil _ _
    have hhead : ∀ b ∈ (skipSpaces s).content.head?, isspace b = false := by
      intro b hb
      have hnot := List.head?_dropWhile_not isspace s.content
      rw [← hskip, hb] at hnot
      exact hnot
    obtain ⟨word, rest, hsplit, htake, hword, hspaces, hrest⟩ := exists_word hne hhead
    rw [htake] at hfst
    have hleft : (takeWord width (skipSpaces s)).2.content = word.drop width ++ rest := by
      rw [hfst, hsplit, ← List.take_append_drop width word, List.append_assoc] at hcontent
      simpa using hcontent.symm
    constructor
    · rw [hfst]
      simp [hword, hwidth]
    · rw [hfst]
      exact List.length_take_le _ _
    · rw [← hcontent, hskip]
      exact List.dropWhile_suffix _
    · rw [← words_dropWhile, ← hskip, hleft, hsplit, pieces_words_append hspaces hrest,
        pieces_words_append (fun b hb => hspaces b (List.mem_of_mem_drop hb)) hrest,
        pieces_of_ne_nil hword hwidth, hfst]
      rfl

end EmbeddedLinuxTraining.Library.Scanf
