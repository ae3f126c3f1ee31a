import EmbeddedLinuxTraining.Library.JsonObject

namespace EmbeddedLinuxTraining.Library.Json

open Ascii

variable {s r : List UInt8} {j : Json}

mutual

def nesting : Json → ℕ
  | .array js => nestingElements js + 1
  | .object ms => nestingMembers ms + 1
  | _ => 0

def nestingElements : List Json → ℕ
  | [] => 0
  | j :: js => max (nesting j) (nestingElements js)

def nestingMembers : List (List Char × Json) → ℕ
  | [] => 0
  | (_, j) :: ms => max (nesting j) (nestingMembers ms)

end

theorem Ws.spaces (h : Ws s r) : ∃ ws, s = ws ++ r ∧ ∀ b ∈ ws, IsSpace b := by
  induction h with
  | done s => exact ⟨[], rfl, by rintro b ⟨⟩⟩
  | skip hb _ ih =>
    obtain ⟨ws, rfl, hws⟩ := ih
    refine ⟨_ :: ws, rfl, ?_⟩
    intro b' hb'
    obtain rfl | hb' := List.mem_cons.mp hb'
    · exact hb
    · exact hws b' hb'

theorem Ws.of_spaces {ws : List UInt8} (h : ∀ b ∈ ws, IsSpace b) (r : List UInt8) : Ws (ws ++ r) r := by
  induction ws with
  | nil => exact .done r
  | cons b ws ih =>
    obtain ⟨hb, hws⟩ := List.forall_mem_cons.mp h
    exact .skip hb (ih hws)

theorem Ws.trans {t : List UInt8} (h : Ws s t) (h' : Ws t r) : Ws s r := by
  induction h with
  | done s => exact h'
  | skip hb _ ih => exact .skip hb (ih h')

theorem Ws.length_le (h : Ws s r) : r.length ≤ s.length := by
  obtain ⟨ws, rfl, -⟩ := h.spaces
  rw [List.length_append]
  omega

theorem Str.length_lt {cs : List Char} (h : Str s cs r) : r.length < s.length := by
  obtain ⟨raw, rfl, -⟩ := h.length_le
  rw [List.length_append, List.length_cons]
  omega

theorem Number.length_pos {text : List Char} {m e : ℤ} (h : Number text m e) : 0 < text.length := by
  obtain ⟨b, bs, hb, -⟩ := h.head
  have hlength := congrArg List.length hb
  rw [length_bytes, List.length_cons] at hlength
  omega

mutual

theorem Value.length_lt {s r : List UInt8} {j : Json} : Value s j r → r.length < s.length
  | .null => by simp
  | .true => by simp
  | .false => by simp
  | .number h => by
    have hpos := h.length_pos
    simp only [List.length_append, length_bytes]
    omega
  | .string h => by
    have hlt := h.length_lt
    simp only [List.length_cons]
    omega
  | .emptyArray h => by
    have hle := h.length_le
    simp only [List.length_cons] at hle ⊢
    omega
  | .array h => by
    have hlt := Elements.length_lt h
    simp only [List.length_cons]
    omega
  | .emptyObject h => by
    have hle := h.length_le
    simp only [List.length_cons] at hle ⊢
    omega
  | .object h => by
    have hlt := Members.length_lt h
    simp only [List.length_cons]
    omega

theorem Elements.length_lt {s r : List UInt8} {js : List Json} : Elements s js r → r.length + js.length < s.length
  | .last h₁ hv h₂ => by
    have hle₁ := h₁.length_le
    have hlt := Value.length_lt hv
    have hle₂ := h₂.length_le
    simp only [List.length_cons, List.length_nil] at hle₂ ⊢
    omega
  | .cons h₁ hv h₂ hjs => by
    have hle₁ := h₁.length_le
    have hlt := Value.length_lt hv
    have hle₂ := h₂.length_le
    have hrest := Elements.length_lt hjs
    simp only [List.length_cons] at hle₂ ⊢
    omega

theorem Members.length_lt {s r : List UInt8} {ms : List (List Char × Json)} :
    Members s ms r → r.length + ms.length < s.length
  | .last h₁ hk h₂ h₃ hv h₄ => by
    have hle₁ := h₁.length_le
    have hkey := hk.length_lt
    have hle₂ := h₂.length_le
    have hle₃ := h₃.length_le
    have hlt := Value.length_lt hv
    have hle₄ := h₄.length_le
    simp only [List.length_cons, List.length_nil] at hle₁ hle₂ hle₄ ⊢
    omega
  | .cons h₁ hk h₂ h₃ hv h₄ hms => by
    have hle₁ := h₁.length_le
    have hkey := hk.length_lt
    have hle₂ := h₂.length_le
    have hle₃ := h₃.length_le
    have hlt := Value.length_lt hv
    have hle₄ := h₄.length_le
    have hrest := Members.length_lt hms
    simp only [List.length_cons] at hle₁ hle₂ hle₄ ⊢
    omega

end

theorem Value.head (h : Value s j r) : ∃ b u, s = b :: u ∧ 32 < b.toNat ∧ b ≠ RBRACKET := by
  cases h with
  | number hn =>
    obtain ⟨b, bs, hb, hnumeric⟩ := hn.head
    rw [hb]
    refine ⟨b, _, rfl, ?_, ?_⟩
    · obtain hdigit | hsign := hnumeric
      · omega
      · have hall : (bytes ['-', '+', '.', 'e', 'E']).all fun b => decide (32 < b.toNat) := by decide
        exact of_decide_eq_true (List.all_eq_true.mp hall b hsign)
    · rintro rfl
      exact absurd hnumeric (by decide)
  | null | true | false | string | emptyArray | array | emptyObject | object =>
    exact ⟨_, _, rfl, by decide, by decide⟩

theorem octets_injective {cs ds : List Char} (h : octets cs = octets ds) : cs = ds := by
  have hencode : cs.utf8Encode = ds.utf8Encode := congrArg List.toByteArray h
  have hstring : String.ofList cs = String.ofList ds := by
    rw [← String.toByteArray_inj, String.toByteArray_ofList, String.toByteArray_ofList]
    exact hencode
  rw [← String.toList_ofList (l := cs), hstring, String.toList_ofList]

theorem zero_mem_utf8 {c : Char} (h : (0 : UInt8) ∈ String.utf8EncodeChar c) : c = NUL :=
  Char.toNat_inj.mp (utf8EncodeChar_low h (by decide)).1

theorem octets_takeWhile (cs : List Char) :
    (octets cs).takeWhile (· ≠ 0) = octets (cs.takeWhile (· ≠ NUL)) := by
  induction cs with
  | nil => rfl
  | cons c cs ih =>
    by_cases hc : c = NUL
    · subst hc
      rfl
    · have hbytes : ∀ b ∈ String.utf8EncodeChar c, decide (b ≠ 0) = true := by
        intro b hb
        apply decide_eq_true
        rintro rfl
        exact hc (zero_mem_utf8 hb)
      rw [octets_cons, List.takeWhile_append_of_pos hbytes, ih, List.takeWhile_cons_of_pos (by simpa using hc),
        octets_cons]

section Nul

variable {s r : List UInt8} {j : Json}

theorem Ws.nul (h : Ws s r) : 0 ∈ s → 0 ∈ r := by
  obtain ⟨ws, rfl, hws⟩ := h.spaces
  intro hmem
  obtain hmem | hmem := List.mem_append.mp hmem
  · exact absurd (hws 0 hmem) (by simp [IsSpace])
  · exact hmem

theorem Unit16.nul {e : List UInt8} {n : ℕ} (h : Unit16 e n) : 0 ∉ e := by
  have hdigit {b : UInt8} {i : ℕ} (hb : hexDigit b = some i) : 0 ≠ b := by
    have hno : hexDigit 0 = none := by decide
    rintro rfl
    rw [hno] at hb
    cases hb
  obtain ⟨ha, hb, hc, hd⟩ := h
  simp only [List.mem_cons, List.not_mem_nil, or_false, not_or]
  exact ⟨by decide, by decide, hdigit ha, hdigit hb, hdigit hc, hdigit hd⟩

theorem Escape.nul {e : List UInt8} {c : Char} (h : Escape e c) : 0 ∉ e := by
  cases h with
  | short hmem =>
    have hall : ∀ p ∈ shortEscapes, 0 ∉ BACKSLASH :: bytes [p.1] := by decide
    exact hall _ hmem
  | unit hunit => exact hunit.nul
  | pair hhigh _ hlow _ => exact List.not_mem_append hhigh.nul hlow.nul

theorem Str.nul {cs : List Char} (h : Str s cs r) (hmem : 0 ∈ s) : 0 ∈ r := by
  induction h with
  | close r => exact List.mem_of_ne_of_mem (by decide) hmem
  | char hc _ ih =>
    obtain hfront | hrest := List.mem_append.mp hmem
    · exact absurd (hc.byte hfront).1 (by decide)
    · exact ih hrest
  | escape he _ ih =>
    obtain hfront | hrest := List.mem_append.mp hmem
    · exact absurd hfront he.nul
    · exact ih hrest

theorem Number.nul {text : List Char} {m e : ℤ} (h : Number text m e) : 0 ∉ bytes text := by
  intro hmem
  exact absurd (h.numeric 0 hmem) (by decide)

mutual

theorem Value.nul {s r : List UInt8} {j : Json} : Value s j r → 0 ∈ s → 0 ∈ r
  | .null, hmem => (List.mem_append.mp hmem).resolve_left (by decide)
  | .true, hmem => (List.mem_append.mp hmem).resolve_left (by decide)
  | .false, hmem => (List.mem_append.mp hmem).resolve_left (by decide)
  | .number h, hmem => (List.mem_append.mp hmem).resolve_left h.nul
  | .string h, hmem => h.nul (List.mem_of_ne_of_mem (by decide) hmem)
  | .emptyArray h, hmem =>
    List.mem_of_ne_of_mem (by decide) (h.nul (List.mem_of_ne_of_mem (by decide) hmem))
  | .array h, hmem => Elements.nul h (List.mem_of_ne_of_mem (by decide) hmem)
  | .emptyObject h, hmem =>
    List.mem_of_ne_of_mem (by decide) (h.nul (List.mem_of_ne_of_mem (by decide) hmem))
  | .object h, hmem => Members.nul h (List.mem_of_ne_of_mem (by decide) hmem)

theorem Elements.nul {s r : List UInt8} {js : List Json} : Elements s js r → 0 ∈ s → 0 ∈ r
  | .last h₁ hv h₂, hmem => by
    have hclose := h₂.nul (Value.nul hv (h₁.nul hmem))
    exact List.mem_of_ne_of_mem (by decide) hclose
  | .cons h₁ hv h₂ hjs, hmem => by
    have hcomma := h₂.nul (Value.nul hv (h₁.nul hmem))
    exact Elements.nul hjs (List.mem_of_ne_of_mem (by decide) hcomma)

theorem Members.nul {s r : List UInt8} {ms : List (List Char × Json)} : Members s ms r → 0 ∈ s → 0 ∈ r
  | .last h₁ hk h₂ h₃ hv h₄, hmem => by
    have hcolon := h₂.nul (hk.nul (List.mem_of_ne_of_mem (by decide) (h₁.nul hmem)))
    have hclose := h₄.nul (Value.nul hv (h₃.nul (List.mem_of_ne_of_mem (by decide) hcolon)))
    exact List.mem_of_ne_of_mem (by decide) hclose
  | .cons h₁ hk h₂ h₃ hv h₄ hms, hmem => by
    have hcolon := h₂.nul (hk.nul (List.mem_of_ne_of_mem (by decide) (h₁.nul hmem)))
    have hcomma := h₄.nul (Value.nul hv (h₃.nul (List.mem_of_ne_of_mem (by decide) hcolon)))
    exact Members.nul hms (List.mem_of_ne_of_mem (by decide) hcomma)

end

theorem Text.nul (h : Text s j) : 0 ∉ s := by
  obtain ⟨s₁, s₂, hws, hv, hend⟩ := h
  intro hmem
  exact List.not_mem_nil (hend.nul (hv.nul (hws.nul hmem)))

end Nul

end EmbeddedLinuxTraining.Library.Json
