import Mathlib.Data.List.Basic

namespace EmbeddedLinuxTraining.Library.RecordWalk

structure Format (β ρ : Type) where
  header : List β → Option ρ
  size : ρ → ℕ
  size_pos : ∀ r, 0 < size r

inductive Outcome (σ : Type)
  | fault
  | stopped (s : σ)
  | finished (p : ℕ) (s : σ)

variable {β ρ σ τ : Type}

/-- The body sees the buffer from the record on, and says whether the loop goes on. -/
def walk (F : Format β ρ) (body : ρ → List β → σ → Option (σ × Bool)) (data : List β) (p : ℕ) (s : σ) :
    Outcome σ :=
  if p < data.length then
    match F.header (data.drop p) with
    | none => .fault
    | some r =>
      match body r (data.drop p) s with
      | none => .fault
      | some (s, false) => .stopped s
      | some (s, true) => walk F body data (p + F.size r) s
  else .finished p s
termination_by data.length - p
decreasing_by
  have hpos := F.size_pos r
  omega

def visit (act : τ → σ → σ × Bool) : List τ → σ → σ × Bool
  | [], s => (s, true)
  | e :: es, s => if (act e s).2 then visit act es (act e s).1 else ((act e s).1, false)

def outcome (length : ℕ) (r : σ × Bool) : Outcome σ :=
  if r.2 then .finished length r.1 else .stopped r.1

theorem visit_keeps {act : τ → σ → σ × Bool} {I : σ → Prop} {es : List τ}
    (h : ∀ e ∈ es, ∀ s, I s → I (act e s).1) {s : σ} (hs : I s) : I (visit act es s).1 := by
  induction es generalizing s with
  | nil => exact hs
  | cons e es ih =>
    have he := h e List.mem_cons_self s hs
    rw [visit]
    split_ifs
    · exact ih (fun e hmem => h e (List.mem_cons_of_mem _ hmem)) he
    · exact he

theorem walk_encoded {F : Format β ρ} {body : ρ → List β → σ → Option (σ × Bool)}
    {encode : τ → List β} {describe : τ → ρ} {act : τ → σ → σ × Bool} {es : List τ}
    (hheader : ∀ e ∈ es, ∀ rest, F.header (encode e ++ rest) = some (describe e))
    (hsize : ∀ e ∈ es, F.size (describe e) = (encode e).length)
    (hbody : ∀ e ∈ es, ∀ rest s, body (describe e) (encode e ++ rest) s = some (act e s))
    (before : List β) (s : σ) :
    walk F body (before ++ es.flatMap encode) before.length s =
      outcome (before ++ es.flatMap encode).length (visit act es s) := by
  induction es generalizing before s with
  | nil =>
    rw [walk, List.flatMap_nil, List.append_nil, if_neg (Nat.lt_irrefl _)]
    rfl
  | cons e es ih =>
    have hmem : e ∈ e :: es := List.mem_cons_self
    have hlt : before.length < (before ++ (e :: es).flatMap encode).length := by
      have hpos := F.size_pos (describe e)
      rw [hsize e hmem] at hpos
      rw [List.flatMap_cons, List.length_append, List.length_append]
      omega
    have hrest := ih (fun e hmem => hheader e (List.mem_cons_of_mem _ hmem))
      (fun e hmem => hsize e (List.mem_cons_of_mem _ hmem))
      (fun e hmem => hbody e (List.mem_cons_of_mem _ hmem)) (before ++ encode e)
    rw [walk, if_pos hlt, List.drop_left, List.flatMap_cons, hheader e hmem, visit]
    simp only [hbody e hmem, hsize e hmem]
    rw [List.append_assoc, List.length_append] at hrest
    cases hact : act e s with
    | mk t goesOn =>
      cases goesOn with
      | true => exact hrest t
      | false => rfl

end EmbeddedLinuxTraining.Library.RecordWalk
