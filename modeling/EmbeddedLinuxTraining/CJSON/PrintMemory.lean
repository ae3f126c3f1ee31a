import EmbeddedLinuxTraining.CJSON.Print

namespace EmbeddedLinuxTraining.CJSON

open Library Library.Json Telemetry Procedure PrintBuffer

/-- What stays the same while an item is printed; `size` is the size of a buffer that is not to grow. -/
structure Frame where
  format : Bool
  noalloc : Bool
  size : ℕ
  reallocates : Bool
  grants : ℕ → Bool
  live : ℕ

def PrintBuffer.frame (p : PrintBuffer) (size : ℕ) : Frame :=
  ⟨p.format, p.noalloc, size, p.hooks.reallocates, p.hooks.grants, p.hooks.live⟩

def Frame.capacity (fr : Frame) : ℤ := if fr.noalloc then fr.size else INT_MAX

def Frame.Admits (fr : Frame) (block : List UInt8) : Prop :=
  block.length ≤ fr.capacity ∧ (fr.noalloc = true → block.length = fr.size)

/-- The block begins with `text` and `t`, the offset is between the two, and `needed` bytes from there on are in
the block, with one more. -/
structure At (fr : Frame) (depth : ℕ) (text t : List UInt8) (needed : ℕ) (p : PrintBuffer) : Prop where
  block : ∃ block, p.buffer = some block ∧ text ++ t <+: block ∧ text.length + needed < block.length ∧
    fr.Admits block
  offset : p.offset = text.length
  depth : p.depth = depth
  frame : p.frame fr.size = fr

structure Ready (fr : Frame) (depth : ℕ) (text : List UInt8) (p : PrintBuffer) : Prop where
  block : ∃ block, p.buffer = some block ∧ text <+: block ∧
    (text.length < block.length ∨ (fr.reallocates = true ∨ fr.noalloc = true) ∧ block = []) ∧ fr.Admits block
  offset : p.offset = text.length
  depth : p.depth = depth
  frame : p.frame fr.size = fr

def Lost (fr : Frame) (p : PrintBuffer) : Prop :=
  (∃ block, p.buffer = some block ∧ fr.Admits block ∧ p.hooks.live = fr.live) ∨
    (fr.noalloc = false ∧ p.buffer = none ∧ p.hooks.live = fr.live - 1)

structure Able (fr : Frame) : Prop where
  grants : fr.noalloc = false → ∀ n, fr.grants n = true
  size : (fr.size : ℤ) ≤ INT_MAX

def Fails (fr : Frame) (sure : Prop) (p : PrintBuffer) : Prop := Lost fr p ∧ ¬ (Able fr ∧ sure)

variable {fr : Frame} {depth needed i n : ℕ} {text t bytes front back : List UInt8} {p p' : PrintBuffer}
  {sure sure' : Prop}

theorem Able.capacity (h : Able fr) : fr.capacity ≤ INT_MAX := by
  rw [Frame.capacity]
  split
  · exact h.size
  · exact Int.le_refl _

theorem Fails.mono (h : Fails fr sure p) (hsure : Able fr → sure' → sure) : Fails fr sure' p :=
  ⟨h.1, fun hable => h.2 ⟨hable.1, hsure hable.1 hable.2⟩⟩

theorem Ready.format (h : Ready fr depth text p) : p.format = fr.format := congrArg Frame.format h.frame

theorem Ready.noalloc (h : Ready fr depth text p) : p.noalloc = fr.noalloc := congrArg Frame.noalloc h.frame

theorem Ready.live (h : Ready fr depth text p) : p.hooks.live = fr.live := congrArg Frame.live h.frame

theorem Ready.lost (h : Ready fr depth text p) : Lost fr p := by
  obtain ⟨block, hbuffer, -, -, hadmits⟩ := h.block
  exact .inl ⟨block, hbuffer, hadmits, h.live⟩

theorem At.cut (h : At fr depth text (t ++ bytes) needed p) : At fr depth text t needed p := by
  obtain ⟨block, hbuffer, hprefix, hlt⟩ := h.block
  rw [← List.append_assoc] at hprefix
  exact ⟨⟨block, hbuffer, (List.prefix_append _ _).trans hprefix, hlt⟩, h.offset, h.depth, h.frame⟩

theorem At.less (h : At fr depth text t needed p) (hle : n ≤ needed) : At fr depth text t n p := by
  obtain ⟨block, hbuffer, hprefix, hlt, hadmits⟩ := h.block
  exact ⟨⟨block, hbuffer, hprefix, by omega, hadmits⟩, h.offset, h.depth, h.frame⟩

theorem At.ready (h : At fr depth text t needed p) : Ready fr depth text p := by
  have hempty : At fr depth text ([] ++ t) needed p := h
  obtain ⟨block, hbuffer, hprefix, hlt, hadmits⟩ := hempty.cut.block
  rw [List.append_nil] at hprefix
  exact ⟨⟨block, hbuffer, hprefix, .inl (by omega), hadmits⟩, h.offset, h.depth, h.frame⟩

theorem At.advance (h : At fr depth text (front ++ back) needed p) (hn : n = front.length) (hle : n ≤ needed) :
    At fr depth (text ++ front) back (needed - n) (p.advance n) := by
  obtain ⟨block, hbuffer, hprefix, hlt, hadmits⟩ := h.block
  refine ⟨⟨block, hbuffer, ?_, ?_, hadmits⟩, ?_, h.depth, h.frame⟩
  · rwa [List.append_assoc]
  · rw [List.length_append]
    omega
  · rw [advance_offset, h.offset, List.length_append, hn]

theorem At.enter (h : At fr depth text t needed p) : At fr (depth + 1) text t needed p.enter :=
  ⟨h.block, h.offset, congrArg (· + 1) h.depth, h.frame⟩

theorem At.leave (h : At fr (depth + 1) text t needed p) : At fr depth text t needed p.leave :=
  ⟨h.block, h.offset, congrArg (· - 1) h.depth, h.frame⟩

theorem prefix_overwrite {block : List UInt8} (h : text <+: block) (hle : text.length + bytes.length ≤ block.length) :
    text ++ bytes <+: overwrite block text.length bytes ∧
      (overwrite block text.length bytes).length = block.length := by
  obtain ⟨rest, rfl⟩ := h
  rw [List.length_append] at hle
  constructor
  · rw [overwrite, List.take_left]
    exact List.prefix_append _ _
  · simp only [overwrite, List.take_left, List.length_append, List.length_drop]
    omega

theorem put_meets {F : PrintBuffer → Prop} (h : At fr depth text t needed p) (hi : i = t.length)
    (hle : i + bytes.length ≤ needed + 1) :
    Meets (put i bytes) p F fun _ p' => At fr depth text (t ++ bytes) needed p' := by
  obtain ⟨block, hbuffer, hprefix, hlt, hadmits⟩ := h.block
  have hfits : (text ++ t).length + bytes.length ≤ block.length := by
    rw [List.length_append]
    omega
  obtain ⟨hprefix', hlength⟩ := prefix_overwrite hprefix hfits
  have hroom : p.offset + i + bytes.length ≤ block.length := by
    rw [h.offset, hi]
    rwa [List.length_append] at hfits
  have hindex : p.offset + i = (text ++ t).length := by rw [h.offset, hi, List.length_append]
  simp only [Meets, put, hbuffer, hroom, if_true]
  rw [hindex]
  refine ⟨⟨_, rfl, ?_, ?_, ?_⟩, h.offset, h.depth, h.frame⟩
  · rwa [← List.append_assoc]
  · rwa [hlength]
  · rwa [Frame.Admits, hlength]

theorem length_block (hooks : PrintHooks) (size : ℕ) : (hooks.block size).length = size := by
  rw [PrintHooks.block, List.length_map, List.length_range]

theorem prefix_resize {block fresh : List UInt8} (h : text <+: block) (hle : block.length ≤ n)
    (hfresh : fresh.length = n) :
    text <+: (block ++ fresh.drop block.length).take n ∧
      ((block ++ fresh.drop block.length).take n).length = n := by
  have hlength : (block ++ fresh.drop block.length).length = n := by
    rw [List.length_append, List.length_drop]
    omega
  rw [List.take_of_length_le (Nat.le_of_eq hlength)]
  exact ⟨h.trans (List.prefix_append _ _), hlength⟩

theorem prefix_copy {block fresh : List UInt8} (h : text <+: block) (hlt : text.length < block.length)
    (hn : text.length + 1 ≤ n) (hfresh : fresh.length = n) :
    text <+: block.take (text.length + 1) ++ fresh.drop (text.length + 1) ∧
      (block.take (text.length + 1) ++ fresh.drop (text.length + 1)).length = n := by
  constructor
  · obtain ⟨rest, rfl⟩ := h
    rw [List.take_append, List.take_of_length_le (Nat.le_succ _), List.append_assoc]
    exact List.prefix_append _ _
  · rw [List.length_append, List.length_take, List.length_drop]
    omega

theorem resize_meets (h : Ready fr depth text p) (hnoalloc : fr.noalloc = false) (hn : text.length + needed < n)
    (hle : p.length ≤ n) (hmax : n ≤ INT_MAX) :
    Meets (resize n) p (Fails fr True) fun _ p' => At fr depth text [] needed p' := by
  obtain ⟨block, hbuffer, hprefix, hroom, -⟩ := h.block
  have hblock : block.length ≤ n := by rwa [PrintBuffer.length, hbuffer] at hle
  have hgrants : p.hooks.grants = fr.grants := congrArg Frame.grants h.frame
  have hreallocates : p.hooks.reallocates = fr.reallocates := congrArg Frame.reallocates h.frame
  have hfresh := length_block p.hooks n
  have hadmits {block : List UInt8} (hlength : block.length = n) : fr.Admits block := by
    rw [Frame.Admits, Frame.capacity, hnoalloc, hlength]
    exact ⟨hmax, fun hno => absurd hno Bool.false_ne_true⟩
  simp only [Meets, resize, hbuffer]
  by_cases hgrant : p.hooks.grant = true
  · rw [if_pos hgrant]
    by_cases hrealloc : p.hooks.reallocates = true
    · rw [if_pos hrealloc]
      obtain ⟨hprefix', hlength⟩ := prefix_resize hprefix hblock hfresh
      refine ⟨⟨_, rfl, ?_, ?_, hadmits hlength⟩, h.offset, h.depth, h.frame⟩
      · rwa [List.append_nil]
      · rwa [hlength]
    · have hlt : text.length < block.length := by
        apply hroom.resolve_right
        rintro ⟨hyes | hyes, -⟩
        · exact hrealloc (hreallocates.trans hyes)
        · rw [hnoalloc] at hyes
          cases hyes
      obtain ⟨hprefix', hlength⟩ := prefix_copy hprefix hlt (by omega) hfresh
      rw [if_neg hrealloc, if_pos (by rw [h.offset]; omega), h.offset]
      refine ⟨⟨_, rfl, ?_, ?_, hadmits hlength⟩, rfl, h.depth, h.frame⟩
      · rwa [List.append_nil]
      · rwa [hlength]
  · rw [if_neg hgrant]
    constructor
    · exact .inr ⟨hnoalloc, rfl, congrArg (· - 1) h.live⟩
    · rintro ⟨hable, -⟩
      rw [PrintHooks.grant, hgrants] at hgrant
      exact hgrant (hable.grants hnoalloc _)

theorem Ready.nil_of_length_le (h : Ready fr depth text p) (hle : p.length ≤ text.length) : p.length = 0 := by
  obtain ⟨block, hbuffer, -, hroom, -⟩ := h.block
  have hlength : p.length = block.length := by rw [PrintBuffer.length, hbuffer]; rfl
  rcases hroom with hlt | ⟨-, hnil⟩
  · omega
  · rw [hlength, hnil, List.length_nil]

theorem ensure_meets (h : Ready fr depth text p) (needed : ℕ) :
    Meets (ensure needed) p (Fails fr (text.length + needed + 1 ≤ fr.capacity)) fun _ p' =>
      At fr depth text [] needed p' := by
  have hmax : INT_MAX = 2147483647 := rfl
  have hnat : INT_MAX.toNat = 2147483647 := rfl
  obtain ⟨block, hbuffer, hprefix, -, hadmits⟩ := h.block
  have hlength : p.length = block.length := by rw [PrintBuffer.length, hbuffer]; rfl
  simp only [ensure, meets_bind, meets_get, meets_ite, meets_fail, meets_pure, h.offset]
  refine ⟨?_, fun _ => ⟨?_, fun _ => ⟨?_, fun hneeded => ⟨?_, fun hlarge => ⟨?_, fun halloc => ?_⟩⟩⟩⟩⟩
  · intro hnone
    rw [hbuffer] at hnone
    cases hnone
  · rintro ⟨hpos, hle⟩
    have := h.nil_of_length_le hle
    omega
  · intro hmany
    refine ⟨h.lost, ?_⟩
    rintro ⟨hable, hsure⟩
    have := hable.capacity
    omega
  · intro henough
    refine ⟨⟨block, hbuffer, ?_, by omega, hadmits⟩, h.offset, h.depth, h.frame⟩
    rwa [List.append_nil]
  · intro hyes
    refine ⟨h.lost, ?_⟩
    rintro ⟨-, hsure⟩
    rw [h.noalloc] at hyes
    rw [Frame.capacity, if_pos hyes, ← hadmits.2 hyes] at hsure
    omega
  · have hno : fr.noalloc = false := by rw [← h.noalloc]; exact eq_false_of_ne_true halloc
    have hcapacity : fr.capacity = INT_MAX := by rw [Frame.capacity, hno, if_neg Bool.false_ne_true]
    have hblock : block.length ≤ INT_MAX := hcapacity ▸ hadmits.1
    rw [hcapacity]
    refine ⟨fun _ => ⟨fun hfits => ?_, fun htoo => ?_⟩, fun hsmall => ?_⟩
    · have hlt : text.length + needed < INT_MAX.toNat := by omega
      apply (resize_meets h hno hlt (by omega) (by omega)).mono
      · exact fun _ hfail => hfail.mono fun _ _ => trivial
      · exact fun _ _ hat => hat
    · exact ⟨h.lost, by rintro ⟨-, hsure⟩; push_cast at htoo; omega⟩
    · have hlt : text.length + needed < (needed + (text.length + 1)) * 2 := by omega
      apply (resize_meets h hno hlt (by omega) (by omega)).mono
      · exact fun _ hfail => hfail.mono fun _ _ => trivial
      · exact fun _ _ hat => hat

end EmbeddedLinuxTraining.CJSON
