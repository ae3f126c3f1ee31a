import Mathlib.Data.List.ReduceOption

namespace EmbeddedLinuxTraining.Library.Framing

variable {α : Type}

def reassemble (n : ℕ) (buf : List α) : List (Option α) → List (List α)
  | [] => []
  | none :: xs => reassemble n [] xs
  | some x :: xs =>
    if buf.length + 1 = n then (buf ++ [x]) :: reassemble n [] xs else reassemble n (buf ++ [x]) xs

def Aligned (n : ℕ) : ℕ → List (Option α) → Prop
  | _, [] => True
  | k, none :: xs => k % n = 0 ∧ Aligned n k xs
  | k, some _ :: xs => Aligned n (k + 1) xs

variable {n : ℕ}

theorem reassemble_append {buf bs : List α} (xs : List (Option α)) (h : buf.length + bs.length < n) :
    reassemble n buf (bs.map some ++ xs) = reassemble n (buf ++ bs) xs := by
  induction bs generalizing buf with
  | nil => rw [List.append_nil]; rfl
  | cons b bs ih =>
    simp only [List.length_cons] at h
    rw [List.map_cons, List.cons_append, reassemble, if_neg (by omega), ih, List.append_assoc]
    · rfl
    · simp only [List.length_append, List.length_cons, List.length_nil]
      omega

theorem reassemble_frame {buf bs : List α} (xs : List (Option α)) (hlt : buf.length < n)
    (h : buf.length + bs.length = n) :
    reassemble n buf (bs.map some ++ xs) = (buf ++ bs) :: reassemble n [] xs := by
  rcases bs.eq_nil_or_concat with rfl | ⟨bs, b, rfl⟩
  · simp only [List.length_nil] at h
    omega
  · rw [List.concat_eq_append] at h ⊢
    simp only [List.length_append, List.length_singleton] at h
    rw [List.map_append, List.append_assoc, reassemble_append _ (by omega)]
    have hlen : (buf ++ bs).length + 1 = n := by
      rw [List.length_append]
      omega
    rw [List.map_singleton, List.singleton_append, reassemble, if_pos hlen, List.append_assoc]

theorem succ_mod {k m : ℕ} (hk : k % n = m) (hm : m < n) :
    (k + 1) % n = if m + 1 = n then 0 else m + 1 := by
  have hsplit : k + 1 = n * (k / n) + (m + 1) := by
    have := Nat.div_add_mod k n
    omega
  rw [hsplit, Nat.mul_add_mod]
  split
  · rename_i hfull
    rw [hfull, Nat.mod_self]
  · exact Nat.mod_eq_of_lt (by omega)

theorem length_reassemble_le (buf : List α) (xs : List (Option α)) (h : buf.length < n) :
    n * (reassemble n buf xs).length ≤ buf.length + xs.reduceOption.length := by
  induction xs generalizing buf with
  | nil => simp [reassemble]
  | cons x xs ih =>
    cases x with
    | none =>
      have := ih [] (by simp only [List.length_nil]; omega)
      simp only [reassemble, List.reduceOption_cons_of_none, List.length_nil] at this ⊢
      omega
    | some x =>
      rw [reassemble, List.reduceOption_cons_of_some, List.length_cons]
      split
      · have := ih [] (by simp only [List.length_nil]; omega)
        rw [List.length_cons, Nat.mul_succ]
        simp only [List.length_nil] at this
        omega
      · have := ih (buf ++ [x]) (by simp only [List.length_append, List.length_singleton]; omega)
        simp only [List.length_append, List.length_singleton] at this
        omega

theorem length_reassemble_lt (buf : List α) (xs : List (Option α)) {k : ℕ} (h : buf.length < n)
    (hk : k % n = buf.length) (hx : ¬ Aligned n k xs) :
    n * (reassemble n buf xs).length < buf.length + xs.reduceOption.length := by
  induction xs generalizing buf k with
  | nil => exact absurd trivial hx
  | cons x xs ih =>
    cases x with
    | none =>
      rw [reassemble, List.reduceOption_cons_of_none]
      by_cases hzero : k % n = 0
      · have hnil : buf = [] := List.eq_nil_of_length_eq_zero (hk.symm.trans hzero)
        rw [hnil] at hk ⊢
        exact ih [] (by simp only [List.length_nil]; omega) hk fun ha => hx ⟨hzero, ha⟩
      · have := length_reassemble_le [] xs (show ([] : List α).length < n by
          simp only [List.length_nil]; omega)
        simp only [List.length_nil] at this
        omega
    | some x =>
      have hmod := succ_mod hk h
      rw [reassemble, List.reduceOption_cons_of_some, List.length_cons]
      split
      · rename_i hfull
        rw [if_pos hfull] at hmod
        have := ih [] (by simp only [List.length_nil]; omega) hmod hx
        rw [List.length_cons, Nat.mul_succ]
        simp only [List.length_nil] at this
        omega
      · rename_i hopen
        rw [if_neg hopen] at hmod
        have hlen : (buf ++ [x]).length = buf.length + 1 := by
          rw [List.length_append, List.length_singleton]
        have := ih (buf ++ [x]) (by omega) (hmod.trans hlen.symm) hx
        omega

theorem reassemble_of_aligned (buf : List α) (xs : List (Option α)) {k : ℕ} {frames : List (List α)}
    (h : buf.length < n) (hk : k % n = buf.length) (hx : Aligned n k xs)
    (hf : ∀ f ∈ frames, f.length = n) (heq : buf ++ xs.reduceOption = frames.flatten) :
    reassemble n buf xs = frames := by
  induction xs generalizing buf k frames with
  | nil =>
    cases frames with
    | nil => rfl
    | cons f fs =>
      have hlen := congrArg List.length heq
      have hfn := hf f List.mem_cons_self
      simp only [List.reduceOption_nil, List.append_nil, List.flatten_cons, List.length_append] at hlen
      omega
  | cons x xs ih =>
    cases x with
    | none =>
      obtain ⟨hzero, ha⟩ := hx
      have hnil : buf = [] := List.eq_nil_of_length_eq_zero (hk.symm.trans hzero)
      subst hnil
      rw [List.reduceOption_cons_of_none] at heq
      exact ih [] h hk ha hf heq
    | some x =>
      have hmod := succ_mod hk h
      have hlen : (buf ++ [x]).length = buf.length + 1 := by
        rw [List.length_append, List.length_singleton]
      rw [List.reduceOption_cons_of_some, ← List.singleton_append, ← List.append_assoc] at heq
      rw [reassemble]
      split
      · rename_i hfull
        rw [if_pos hfull] at hmod
        cases frames with
        | nil =>
          have := congrArg List.length heq
          simp at this
        | cons f fs =>
          rw [List.flatten_cons] at heq
          have hfn := hf f List.mem_cons_self
          obtain ⟨rfl, hrest⟩ := List.append_inj heq (by omega)
          rw [ih [] (by simp only [List.length_nil]; omega) hmod hx
            (fun f hm => hf f (List.mem_cons_of_mem _ hm)) hrest]
      · rename_i hopen
        rw [if_neg hopen] at hmod
        exact ih (buf ++ [x]) (by omega) (hmod.trans hlen.symm) hx hf heq

theorem length_frames {frames : List (List α)} (hf : ∀ f ∈ frames, f.length = n) :
    frames.flatten.length = n * frames.length := by
  induction frames with
  | nil => simp
  | cons f fs ih =>
    rw [List.flatten_cons, List.length_append, hf f List.mem_cons_self,
      ih fun g hg => hf g (List.mem_cons_of_mem _ hg), List.length_cons, Nat.mul_succ, Nat.add_comm]

theorem aligned_of_length (hn : 0 < n) {xs : List (Option α)} {frames : List (List α)}
    (hf : ∀ f ∈ frames, f.length = n) (heq : xs.reduceOption = frames.flatten)
    (h : (reassemble n [] xs).length = frames.length) : Aligned n 0 xs := by
  by_contra hx
  have hlt := length_reassemble_lt [] xs hn (Nat.zero_mod n) hx
  rw [h, heq, length_frames hf, List.length_nil, Nat.zero_add] at hlt
  exact absurd hlt (Nat.lt_irrefl _)

end EmbeddedLinuxTraining.Library.Framing
