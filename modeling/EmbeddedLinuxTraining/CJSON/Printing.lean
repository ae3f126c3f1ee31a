import EmbeddedLinuxTraining.CJSON.PrintText

namespace EmbeddedLinuxTraining.CJSON

open Library Library.Json Telemetry Procedure PrintBuffer

variable {fr : Frame} {depth needed : ℕ} {text t : List UInt8} {p : PrintBuffer} {hooks : PrintHooks}
  {format : Bool} {item : CJson}

theorem Printed.roomy (h : Printed fr depth text t p) : Roomy fr text t := by
  obtain ⟨front, back, rfl, hat⟩ := h
  obtain ⟨block, -, -, hlt, hle, -⟩ := hat.block
  simp only [Roomy, List.length_append] at hlt ⊢
  omega

theorem Printed.block (h : Printed fr depth text t p) :
    ∃ block, p.buffer = some block ∧ text ++ (t ++ [0]) <+: block ∧ fr.Admits block := by
  obtain ⟨front, back, rfl, hat⟩ := h
  obtain ⟨block, hbuffer, hbegins, -, hadmits⟩ := hat.block
  exact ⟨block, hbuffer, by simpa only [List.append_assoc] using hbegins, hadmits⟩

theorem Printed.live (h : Printed fr depth text t p) : p.hooks.live = fr.live := by
  obtain ⟨front, back, -, hat⟩ := h
  exact hat.ready.live

def Printable (fr : Frame) (item : CJson) : Prop :=
  levels item ≤ CJSON_NESTING_LIMIT ∧ ((render fr.format 0 item).length : ℤ) + 2 ≤ fr.capacity

theorem printValue_root (h : Ready fr 0 [] p) (item : CJson) :
    Meets (printValue item) p (Fails fr (Printable fr item)) fun _ p' =>
      Printable fr item ∧ Printed fr 0 [] (render fr.format 0 item) p' := by
  apply (printValue_meets item h (Nat.zero_le _)).mono
  · intro _ hfail
    apply hfail.mono
    rintro - ⟨hlevels, hroom⟩
    exact ⟨by omega, hroom⟩
  · rintro _ p' ⟨hlevels, hprinted⟩
    exact ⟨⟨by omega, hprinted.roomy⟩, hprinted⟩

theorem At.take (h : At fr depth text t needed p) {block : List UInt8} (hbuffer : p.buffer = some block) :
    block.take (text.length + t.length) = text ++ t := by
  obtain ⟨block', hbuffer', ⟨rest, rfl⟩, -⟩ := h.block
  rw [hbuffer] at hbuffer'
  cases hbuffer'
  rw [← List.length_append, List.take_left]

theorem shrink_text {block fresh : List UInt8} (h : At fr depth text [0] needed p) (hbuffer : p.buffer = some block)
    (hfresh : fresh.length = text.length + 1) :
    (block ++ fresh.drop block.length).take (text.length + 1) = text ++ [0] ∧
      overwrite (block.take (text.length + 1) ++ fresh.drop block.length) text.length [0] = text ++ [0] := by
  have htake := h.take hbuffer
  rw [List.length_singleton] at htake
  have hle : text.length + 1 ≤ block.length := by
    have hlength := congrArg List.length htake
    rw [List.length_take, List.length_append, List.length_singleton] at hlength
    omega
  have hdrop : fresh.drop block.length = [] := List.drop_eq_nil_of_le (by omega)
  rw [hdrop, List.append_nil, List.append_nil, htake]
  refine ⟨rfl, ?_⟩
  rw [overwrite, List.take_left, List.length_singleton, ← List.length_singleton (a := (0 : UInt8)),
    ← List.length_append, List.drop_length, List.append_nil]

def PrintHooks.frame (hooks : PrintHooks) (format : Bool) : Frame :=
  ⟨format, false, 0, hooks.reallocates, hooks.grants, hooks.live + 1⟩

theorem ready_start {size : ℕ} (hsize : 0 < size ∨ hooks.reallocates = true) (hmax : size ≤ INT_MAX) :
    Ready (hooks.frame format) 0 [] (hooks.start size format) := by
  refine ⟨⟨hooks.block size, rfl, List.nil_prefix, ?_, ?_⟩, rfl, rfl, rfl⟩
  · rw [length_block]
    obtain hpos | hrealloc := hsize
    · exact .inl hpos
    · obtain rfl | hpos := Nat.eq_zero_or_pos size
      · exact .inr ⟨.inl hrealloc, rfl⟩
      · exact .inl hpos
  · rw [Frame.Admits, length_block]
    exact ⟨hmax, fun hno => absurd hno Bool.false_ne_true⟩

def Hindered (hooks : PrintHooks) (format : Bool) (item : CJson) : Prop :=
  (∃ n, hooks.grants n = false) ∨ CJSON_NESTING_LIMIT < levels item ∨
    INT_MAX < ((render format 0 item).length : ℤ) + 2

theorem Fails.hindered (h : Fails (hooks.frame format) (Printable (hooks.frame format) item) p) :
    Hindered hooks format item := by
  by_contra hno
  simp only [Hindered, not_or, not_exists, Bool.not_eq_false, not_lt] at hno
  obtain ⟨hgrants, hlevels, hlength⟩ := hno
  have hsize : ((0 : ℕ) : ℤ) ≤ INT_MAX := by decide
  have hable : Able (hooks.frame format) := ⟨fun _ => hgrants, hsize⟩
  exact h.2 ⟨hable, hlevels, hlength⟩

theorem Fails.live {sure : Prop} (h : Fails (hooks.frame format) sure p) :
    (if p.buffer.isSome then p.hooks.freed else p.hooks).live = hooks.live := by
  obtain ⟨⟨block, hbuffer, -, hlive⟩ | ⟨-, hbuffer, hlive⟩, -⟩ := h
  · rw [hbuffer, Option.isSome_some, if_pos rfl, PrintHooks.freed_live, hlive]
    rfl
  · rw [hbuffer, Option.isSome_none, if_neg Bool.false_ne_true, hlive]
    rfl

structure PrintResult.Tidy (hooks : PrintHooks) (format : Bool) (item : CJson) (r : PrintResult) : Prop where
  printed : ∀ block, r.printed = some block → block = render format 0 item ++ [0] ∧
    r.hooks.live = hooks.live + 1 ∧ levels item ≤ CJSON_NESTING_LIMIT ∧
    ((render format 0 item).length : ℤ) + 2 ≤ INT_MAX
  refused : r.printed = none → r.hooks.live = hooks.live ∧ Hindered hooks format item

/-- Printing does nothing undefined, and it fails only if a block was refused, or the item is too deep or its text
too long. -/
theorem print_tidy (hooks : PrintHooks) (format : Bool) (item : CJson) :
    ∃ r, print hooks format item = some r ∧ r.Tidy hooks format item := by
  have hnone {r : PrintResult} (hprinted : r.printed = none) (hlive : r.hooks.live = hooks.live)
      (hwhy : Hindered hooks format item) : r.Tidy hooks format item := by
    refine ⟨?_, fun _ => ⟨hlive, hwhy⟩⟩
    rw [hprinted]
    intro block hblock
    cases hblock
  by_cases hgrant : hooks.grant = true
  swap
  · refine ⟨⟨none, hooks.called⟩, if_neg hgrant, hnone rfl rfl ?_⟩
    exact .inl ⟨hooks.calls, eq_false_of_ne_true hgrant⟩
  have hready : Ready (hooks.frame format) 0 [] (hooks.start 256 format) :=
    ready_start (.inl (by decide)) (by decide)
  have hmeets : Meets (do printValue item; updateOffset) (hooks.start 256 format)
      (Fails (hooks.frame format) (Printable (hooks.frame format) item)) fun _ p' =>
        Printable (hooks.frame format) item ∧ At (hooks.frame format) 0 (render format 0 item) [0] 0 p' := by
    apply (printValue_root hready item).bind fun _ hfail => hfail
    rintro _ p ⟨hprintable, hprinted⟩
    apply (updateOffset_meets (F := fun _ => False) hprinted (render_nul _ _ item)).mono fun _ hfail => hfail.elim
    exact fun _ p' hat => ⟨hprintable, hat⟩
  rw [print, if_pos hgrant]
  change ∃ r, trim ((do printValue item; updateOffset : Print Unit) (hooks.start 256 format)) = some r ∧ _
  simp only [Meets] at hmeets
  split at hmeets
  · exact hmeets.elim
  · rename_i p hfail
    rw [hfail]
    exact ⟨_, rfl, hnone rfl hmeets.live hmeets.hindered⟩
  · rename_i p hok
    obtain ⟨⟨hlevels, hlength⟩, hat⟩ := hmeets
    obtain ⟨block, hbuffer, -⟩ := hat.block
    have hlive : p.hooks.live = hooks.live + 1 := hat.ready.live
    have hreallocates : p.hooks.reallocates = hooks.reallocates := congrArg Frame.reallocates hat.frame
    have hgrants : p.hooks.grants = hooks.grants := congrArg Frame.grants hat.frame
    obtain ⟨hshrink, hcopy⟩ := shrink_text hat hbuffer (length_block p.hooks _)
    rw [hok]
    simp only [trim, hbuffer, hat.offset]
    have hkept {r : PrintResult} (hprinted : r.printed = some (render format 0 item ++ [0]))
        (hr : r.hooks.live = p.hooks.live) : r.Tidy hooks format item := by
      refine ⟨?_, ?_⟩ <;> rw [hprinted]
      · intro block hblock
        cases hblock
        exact ⟨rfl, hr.trans hlive, hlevels, hlength⟩
      · intro hno
        cases hno
    by_cases hlast : p.hooks.grant = true
    · by_cases hrealloc : p.hooks.reallocates = true
      · simp only [hlast, hrealloc, if_true, hshrink]
        exact ⟨_, rfl, hkept rfl rfl⟩
      · simp only [hlast, hrealloc, if_true, hcopy]
        exact ⟨_, rfl, hkept rfl rfl⟩
    · simp only [hlast]
      refine ⟨_, rfl, hnone rfl ?_ (.inl ⟨p.hooks.calls, ?_⟩)⟩
      · change p.hooks.live - 1 = hooks.live
        rw [hlive, Nat.add_sub_cancel]
      · rw [← hgrants]
        exact eq_false_of_ne_true hlast

/-- `cJSON_PrintBuffered` needs `realloc`, or a first block that is not empty. -/
theorem printBuffered_tidy (hooks : PrintHooks) (item : CJson) (prebuffer : Int32) (format : Bool)
    (h : 0 < prebuffer ∨ hooks.reallocates = true) :
    ∃ r, cJSONPrintBuffered hooks item prebuffer format = some r ∧
      (∀ block, r.printed = some block → render format 0 item ++ [0] <+: block ∧
        r.hooks.live = hooks.live + 1 ∧ levels item ≤ CJSON_NESTING_LIMIT ∧
        ((render format 0 item).length : ℤ) + 2 ≤ INT_MAX) ∧
      (r.printed = none → r.hooks.live = hooks.live ∧ (prebuffer < 0 ∨ Hindered hooks format item)) := by
  rw [cJSONPrintBuffered]
  by_cases hneg : prebuffer < 0
  · rw [if_pos hneg]
    exact ⟨_, rfl, (fun block hblock => by cases hblock), fun _ => ⟨rfl, .inl hneg⟩⟩
  rw [if_neg hneg]
  by_cases hgrant : hooks.grant = true
  swap
  · rw [if_neg hgrant]
    exact ⟨_, rfl, (fun block hblock => by cases hblock),
      fun _ => ⟨rfl, .inr (.inl ⟨hooks.calls, eq_false_of_ne_true hgrant⟩)⟩⟩
  have hsize : 0 < prebuffer.toNatClampNeg ∨ hooks.reallocates = true := by
    apply h.imp_left
    intro hpos
    rw [Int32.lt_iff_toInt_lt] at hpos
    change 0 < prebuffer.toInt at hpos
    rw [Int32.toNatClampNeg]
    omega
  have hmax : (prebuffer.toNatClampNeg : ℤ) ≤ INT_MAX := by
    have hlt := prebuffer.toInt_lt
    have hconst : INT_MAX = 2147483647 := rfl
    rw [Int32.toNatClampNeg]
    omega
  have hready : Ready (hooks.frame format) 0 [] (hooks.start prebuffer.toNatClampNeg format) :=
    ready_start hsize hmax
  have hmeets := printValue_root hready item
  simp only [Meets] at hmeets
  rw [if_pos hgrant]
  split at hmeets
  · exact hmeets.elim
  · rename_i p hfail
    rw [hfail]
    exact ⟨_, rfl, (fun block hblock => by cases hblock), fun _ => ⟨hmeets.live, .inr hmeets.hindered⟩⟩
  · rename_i p hok
    rw [hok]
    obtain ⟨⟨hlevels, hlength⟩, hprinted⟩ := hmeets
    obtain ⟨block, hbuffer, hbegins, -⟩ := hprinted.block
    refine ⟨_, rfl, ?_, ?_⟩
    · intro block' hblock
      cases hbuffer.symm.trans hblock
      exact ⟨hbegins, hprinted.live, hlevels, hlength⟩
    · intro hno
      cases hbuffer.symm.trans hno

theorem ensure_empty (h : p.buffer = some []) (hoffset : p.offset = 0) (hnoalloc : p.noalloc = false)
    (hrealloc : p.hooks.reallocates = false) (hn : (needed : ℤ) + 1 ≤ INT_MAX) :
    ensure needed p =
      if p.hooks.grant = true then .undefined else .fail { p with hooks := p.hooks.called }.dropBuffer := by
  have hlength : p.length = 0 := by rw [PrintBuffer.length, h]; rfl
  obtain ⟨result, hresult⟩ : ∃ result : Fallible PrintBuffer Unit, result =
      if p.hooks.grant = true then .undefined else .fail { p with hooks := p.hooks.called }.dropBuffer := ⟨_, rfl⟩
  have hresize (n : ℕ) : resize n p = result := by
    simp [resize, h, hrealloc, hresult]
  rw [← hresult]
  have hlimit : ¬ INT_MAX < (needed : ℤ) := by omega
  have hfits : ((needed + (p.offset + 1) : ℕ) : ℤ) ≤ INT_MAX := by
    rw [hoffset]
    exact hn
  have hsmall : ¬ needed + (p.offset + 1) ≤ p.length := by
    rw [hlength]
    omega
  have hstart : ¬ (0 < p.length ∧ p.length ≤ p.offset) := by
    rw [hlength]
    omega
  have hnone : ¬ p.buffer = none := by
    rw [h]
    exact Option.some_ne_none _
  simp only [ensure, bind, Procedure.get, hnone, hstart, hlimit, hsmall, hnoalloc, Bool.false_eq_true, hfits,
    ↓reduceIte]
  split <;> exact hresize _

theorem printValue_ensure (item : CJson) (hdepth : p.depth = 0)
    (hlength : ((render format 0 item).length : ℤ) + 2 ≤ INT_MAX) :
    ∃ (n : ℕ) (f : Unit → Print Unit), (n : ℤ) + 1 ≤ INT_MAX ∧ printValue item p = (ensure n >>= f) p := by
  have hshallow : ¬ CJSON_NESTING_LIMIT ≤ p.depth := by
    rw [hdepth]
    decide
  cases item with
  | null => exact ⟨5, _, by decide, rfl⟩
  | false => exact ⟨6, _, by decide, rfl⟩
  | true => exact ⟨5, _, by decide, rfl⟩
  | number valueint valuedouble =>
    rw [printValue, (printNumber_eq valueint valuedouble).2]
    exact ⟨_, _, hlength, rfl⟩
  | string valuestring =>
    rw [render, length_quoted, length_escaped] at hlength
    exact ⟨_, _, hlength, rfl⟩
  | raw valuestring => exact ⟨_, _, hlength, rfl⟩
  | array child =>
    simp only [printValue, get_bind, hshallow, ↓reduceIte]
    exact ⟨1, _, by decide, rfl⟩
  | object child =>
    simp only [printValue, get_bind, hshallow, ↓reduceIte]
    refine ⟨_, _, ?_, rfl⟩
    cases p.format <;> decide

/-- `cJSON_PrintBuffered` copies from an empty block if it gets one, and has no `realloc`. -/
theorem printBuffered_undefined_iff (hooks : PrintHooks) (item : CJson) (prebuffer : Int32) (format : Bool)
    (hlength : ((render format 0 item).length : ℤ) + 2 ≤ INT_MAX) :
    cJSONPrintBuffered hooks item prebuffer format = none ↔
      prebuffer = 0 ∧ hooks.reallocates = false ∧ hooks.grants hooks.calls = true ∧
        hooks.grants (hooks.calls + 1) = true := by
  by_cases hsafe : 0 < prebuffer ∨ hooks.reallocates = true
  · obtain ⟨r, hr, -⟩ := printBuffered_tidy hooks item prebuffer format hsafe
    rw [hr]
    refine ⟨(fun hno => by cases hno), ?_⟩
    rintro ⟨rfl, hrealloc, -⟩
    obtain hpos | hrealloc' := hsafe
    · cases hpos
    · rw [hrealloc] at hrealloc'
      cases hrealloc'
  obtain ⟨hpos, hrealloc⟩ := not_or.mp hsafe
  have hrealloc : hooks.reallocates = false := eq_false_of_ne_true hrealloc
  rw [cJSONPrintBuffered]
  by_cases hneg : prebuffer < 0
  · rw [if_pos hneg]
    refine ⟨(fun hno => by cases hno), ?_⟩
    rintro ⟨rfl, -⟩
    cases hneg
  have hzero : prebuffer = 0 := by
    rw [Int32.lt_iff_toInt_lt] at hpos hneg
    change ¬ 0 < prebuffer.toInt at hpos
    change ¬ prebuffer.toInt < 0 at hneg
    apply Int32.toInt_inj.mp
    change prebuffer.toInt = 0
    omega
  subst hzero
  rw [if_neg hneg]
  by_cases hfirst : hooks.grants hooks.calls = true
  swap
  · have hrefused : ¬ hooks.grant = true := hfirst
    rw [if_neg hrefused]
    refine ⟨(fun hno => by cases hno), ?_⟩
    rintro ⟨-, -, hyes, -⟩
    exact absurd hyes hfirst
  obtain ⟨n, f, hn, hprint⟩ := printValue_ensure (p := hooks.start 0 format) item rfl hlength
  have hempty := ensure_empty (p := hooks.start 0 format) rfl rfl rfl hrealloc hn
  have hgrant : hooks.grant = true := hfirst
  rw [if_pos hgrant]
  change keep (printValue item (hooks.start 0 format)) = none ↔ _
  rw [hprint]
  by_cases hsecond : hooks.grants (hooks.calls + 1) = true
  · have hgrant' : (hooks.start 0 format).hooks.grant = true := hsecond
    rw [if_pos hgrant'] at hempty
    rw [bind_undefined hempty]
    exact ⟨fun _ => ⟨rfl, hrealloc, hfirst, hsecond⟩, fun _ => rfl⟩
  · have hrefused : ¬ (hooks.start 0 format).hooks.grant = true := hsecond
    rw [if_neg hrefused] at hempty
    rw [bind_fail hempty]
    refine ⟨(fun hno => by cases hno), ?_⟩
    rintro ⟨-, -, -, hyes⟩
    exact absurd hyes hsecond

theorem printBuffered_undefined_null :
    cJSONPrintBuffered ⟨⟨fun _ => true, 0, 0⟩, false, fun _ _ => 0⟩ .null 0 true = none ↔
      (0 : Int32) = 0 ∧ false = false ∧ true = true ∧ true = true :=
  printBuffered_undefined_iff ⟨⟨fun _ => true, 0, 0⟩, false, fun _ _ => 0⟩ .null 0 true (by decide)

/-- A buffer of the caller is neither left nor enlarged, and one byte more than the text with its end is enough. -/
theorem printPreallocated_exact (hooks : PrintHooks) (item : CJson) (buffer : List UInt8) (format : Bool)
    (hsize : (buffer.length : ℤ) ≤ INT_MAX) :
    ∃ ok after, cJSONPrintPreallocated hooks item buffer format = some (ok, after) ∧
      after.length = buffer.length ∧
      (ok = true ↔ levels item ≤ CJSON_NESTING_LIMIT ∧ (render format 0 item).length + 2 ≤ buffer.length) ∧
      (ok = true → render format 0 item ++ [0] <+: after) := by
  have hready : Ready ⟨format, true, buffer.length, hooks.reallocates, hooks.grants, hooks.live⟩ 0 []
      ⟨some buffer, 0, 0, true, format, hooks⟩ := by
    refine ⟨⟨buffer, rfl, List.nil_prefix, ?_, Int.le_refl _, fun _ => rfl⟩, rfl, rfl, rfl⟩
    obtain hnil | hpos := Nat.eq_zero_or_pos buffer.length
    · exact .inr ⟨.inr rfl, List.eq_nil_of_length_eq_zero hnil⟩
    · exact .inl hpos
  have hmeets := printValue_root hready item
  simp only [Meets] at hmeets
  rw [cJSONPrintPreallocated]
  split at hmeets
  · exact hmeets.elim
  · rename_i p hfail
    rw [hfail]
    obtain ⟨⟨block, hbuffer, hadmits, -⟩ | ⟨hno, -⟩, hnot⟩ := hmeets
    · refine ⟨false, p.buffer.getD buffer, rfl, ?_, ⟨(fun hno => by cases hno), ?_⟩, fun hno => by cases hno⟩
      · rw [hbuffer]
        exact hadmits.2 rfl
      · rintro ⟨hlevels, hlength⟩
        exact absurd ⟨⟨(fun hno => by cases hno), hsize⟩, hlevels, Int.ofNat_le.mpr hlength⟩ hnot
    · cases hno
  · rename_i p hok
    rw [hok]
    obtain ⟨⟨hlevels, hlength⟩, hprinted⟩ := hmeets
    obtain ⟨block, hbuffer, hbegins, hadmits⟩ := hprinted.block
    refine ⟨true, p.buffer.getD buffer, rfl, ?_, ⟨fun _ => ⟨hlevels, Int.ofNat_le.mp hlength⟩, fun _ => rfl⟩, ?_⟩
    · rw [hbuffer]
      exact hadmits.2 rfl
    · rw [hbuffer]
      exact fun _ => hbegins

theorem printPreallocated_null :
    ∃ ok after, cJSONPrintPreallocated ⟨⟨fun _ => true, 0, 0⟩, true, fun _ _ => 0⟩ .null (List.replicate 5 0) true =
        some (ok, after) ∧
      after.length = (List.replicate 5 (0 : UInt8)).length ∧
      (ok = true ↔ levels .null ≤ CJSON_NESTING_LIMIT ∧
        (render true 0 .null).length + 2 ≤ (List.replicate 5 (0 : UInt8)).length) ∧
      (ok = true → render true 0 .null ++ [0] <+: after) :=
  printPreallocated_exact _ .null _ true (by decide)

end EmbeddedLinuxTraining.CJSON
