import Mathlib.Data.List.Basic

namespace EmbeddedLinuxTraining.Library.Lines

variable {α : Type} [DecidableEq α] (sep : α)

def split : List α → List (List α) × List α
  | [] => ([], [])
  | a :: as =>
    if a = sep then ([] :: (split as).1, (split as).2)
    else
      match split as with
      | ([], rest) => ([], a :: rest)
      | (line :: lines, rest) => ((a :: line) :: lines, rest)

theorem not_mem_split_rest (as : List α) : sep ∉ (split sep as).2 := by
  induction as with
  | nil => exact List.not_mem_nil
  | cons a as ih =>
    rw [split]
    split_ifs with he
    · exact ih
    · cases hsplit : split sep as with
      | mk lines rest =>
        rw [hsplit] at ih
        cases lines with
        | nil =>
          intro hmem
          obtain hmem | hmem := List.mem_cons.mp hmem
          · exact he hmem.symm
          · exact ih hmem
        | cons line lines => exact ih

theorem split_line {as : List α} (h : sep ∉ as) (bs : List α) :
    split sep (as ++ sep :: bs) = (as :: (split sep bs).1, (split sep bs).2) := by
  induction as with
  | nil =>
    rw [List.nil_append, split, if_pos rfl]
  | cons a as ih =>
    obtain ⟨hne, hrest⟩ := List.ne_and_not_mem_of_not_mem_cons h
    rw [List.cons_append, split, if_neg (Ne.symm hne), ih hrest]

theorem split_open {as : List α} (h : sep ∉ as) : split sep as = ([], as) := by
  induction as with
  | nil => rfl
  | cons a as ih =>
    obtain ⟨hne, hrest⟩ := List.ne_and_not_mem_of_not_mem_cons h
    rw [split, if_neg (Ne.symm hne), ih hrest]

theorem split_append (as bs : List α) :
    split sep (as ++ bs) =
      ((split sep as).1 ++ (split sep ((split sep as).2 ++ bs)).1,
        (split sep ((split sep as).2 ++ bs)).2) := by
  induction as with
  | nil => rfl
  | cons a as ih =>
    rw [List.cons_append, split, split, ih]
    by_cases he : a = sep
    · simp only [if_pos he, List.cons_append]
    · simp only [if_neg he]
      cases hsplit : split sep as with
      | mk lines rest =>
        cases lines with
        | nil =>
          simp only [List.nil_append, List.cons_append]
          rw [split.eq_2, if_neg he]
        | cons line lines => simp only [List.cons_append]

theorem split_lines {lines : List (List α)} (hlines : ∀ line ∈ lines, sep ∉ line) {rest : List α}
    (hrest : sep ∉ rest) : split sep (lines.flatMap (· ++ [sep]) ++ rest) = (lines, rest) := by
  induction lines with
  | nil => exact split_open sep hrest
  | cons line lines ih =>
    have hline : sep ∉ line := hlines line List.mem_cons_self
    rw [List.flatMap_cons, List.append_assoc, List.append_assoc, List.singleton_append, split_line sep hline]
    rw [ih (fun line hmem => hlines line (List.mem_cons_of_mem _ hmem))]

theorem split_join (as : List α) : (split sep as).1.flatMap (· ++ [sep]) ++ (split sep as).2 = as := by
  induction as with
  | nil => rfl
  | cons a as ih =>
    rw [split]
    split_ifs with he
    · rw [List.flatMap_cons, List.nil_append, List.append_assoc, ih, he, List.singleton_append]
    · cases hsplit : split sep as with
      | mk lines rest =>
        rw [hsplit] at ih
        cases lines with
        | nil => exact congrArg (a :: ·) ih
        | cons line lines => exact congrArg (a :: ·) ih

theorem split_terminated (as : List α) : (split sep (as ++ [sep])).2 = [] := by
  rw [split_append, split_line sep (not_mem_split_rest sep as), split]

theorem split_flatten (texts : List (List α)) (htexts : ∀ text ∈ texts, (split sep text).2 = [])
    (as : List α) :
    split sep (texts.flatten ++ as) =
      (texts.flatMap (fun text => (split sep text).1) ++ (split sep as).1, (split sep as).2) := by
  induction texts with
  | nil => rfl
  | cons text texts ih =>
    have htext : (split sep text).2 = [] := htexts text List.mem_cons_self
    have hrest : ∀ text ∈ texts, (split sep text).2 = [] := by
      intro text hmem
      exact htexts _ (List.mem_cons_of_mem _ hmem)
    rw [List.flatten_cons, List.append_assoc, split_append, htext, List.nil_append, ih hrest,
      List.flatMap_cons, List.append_assoc]

def receive (state : List (List α) × List α) (data : List α) : List (List α) × List α :=
  (state.1 ++ (split sep (state.2 ++ data)).1, (split sep (state.2 ++ data)).2)

theorem foldl_receive (pieces : List (List α)) (as : List α) :
    pieces.foldl (receive sep) (split sep as) = split sep (as ++ pieces.flatten) := by
  induction pieces generalizing as with
  | nil => rw [List.foldl_nil, List.flatten_nil, List.append_nil]
  | cons piece pieces ih =>
    rw [List.foldl_cons, List.flatten_cons, ← List.append_assoc, ← ih, receive, ← split_append]

end EmbeddedLinuxTraining.Library.Lines
