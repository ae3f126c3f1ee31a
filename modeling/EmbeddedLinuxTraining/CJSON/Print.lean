import EmbeddedLinuxTraining.CJSON.Program
import EmbeddedLinuxTraining.Library.Printf
import EmbeddedLinuxTraining.Telemetry.Message

/-!
The printer of seance6/project/cJSON.c, in the locale "C". `undefined` is a read or a write outside of a block.
-/

namespace EmbeddedLinuxTraining.CJSON

open Library Library.Ascii Library.Binary64 Library.Json Library.Printf Telemetry Procedure

/-- `stale call i` is what the block of a call of `allocate` or `reallocate` holds at index `i` at first. -/
structure PrintHooks extends Hooks where
  reallocates : Bool
  stale : ℕ → ℕ → UInt8

/-- `length` of the source is the size of the block. -/
structure PrintBuffer where
  buffer : Option (List UInt8)
  offset : ℕ
  depth : ℕ
  noalloc : Bool
  format : Bool
  hooks : PrintHooks

abbrev Print := Procedure PrintBuffer

def PrintHooks.block (hooks : PrintHooks) (size : ℕ) : List UInt8 := (List.range size).map (hooks.stale hooks.calls)

def PrintHooks.grant (hooks : PrintHooks) : Bool := hooks.grants hooks.calls

@[simps]
def PrintHooks.called (hooks : PrintHooks) : PrintHooks := { hooks with calls := hooks.calls + 1 }

@[simps]
def PrintHooks.allocated (hooks : PrintHooks) : PrintHooks :=
  { hooks with calls := hooks.calls + 1, live := hooks.live + 1 }

@[simps]
def PrintHooks.freed (hooks : PrintHooks) : PrintHooks := { hooks with live := hooks.live - 1 }

namespace PrintBuffer

def length (p : PrintBuffer) : ℕ := (p.buffer.getD []).length

@[simps]
def advance (n : ℕ) (p : PrintBuffer) : PrintBuffer := { p with offset := p.offset + n }

@[simps]
def enter (p : PrintBuffer) : PrintBuffer := { p with depth := p.depth + 1 }

@[simps]
def leave (p : PrintBuffer) : PrintBuffer := { p with depth := p.depth - 1 }

@[simps]
def dropBuffer (p : PrintBuffer) : PrintBuffer := { p with buffer := none, hooks := p.hooks.freed }

end PrintBuffer

open PrintBuffer

/-- `reallocate`, or a new block with the first `offset + 1` bytes of the old one -/
def resize (newsize : ℕ) : Print Unit := fun p =>
  match p.buffer with
  | none => .undefined
  | some block =>
    if p.hooks.grant then
      let fresh := p.hooks.block newsize
      if p.hooks.reallocates then
        .ok () { p with buffer := some ((block ++ fresh.drop block.length).take newsize), hooks := p.hooks.called }
      else if p.offset + 1 ≤ block.length ∧ p.offset + 1 ≤ newsize then
        .ok () { p with
          buffer := some (block.take (p.offset + 1) ++ fresh.drop (p.offset + 1))
          hooks := p.hooks.called }
      else .undefined
    else .fail { p with hooks := p.hooks.called }.dropBuffer

def ensure (needed : ℕ) : Print Unit := do
  let p ← get
  if p.buffer = none then fail
  if 0 < p.length ∧ p.length ≤ p.offset then fail
  if INT_MAX < needed then fail
  let needed := needed + (p.offset + 1)
  if needed ≤ p.length then return
  if p.noalloc then fail
  if INT_MAX / 2 < needed then
    if needed ≤ INT_MAX then resize INT_MAX.toNat else fail
  else resize (needed * 2)

def overwrite (block : List UInt8) (k : ℕ) (bytes : List UInt8) : List UInt8 :=
  block.take k ++ bytes ++ block.drop (k + bytes.length)

def put (i : ℕ) (bytes : List UInt8) : Print Unit := fun p =>
  match p.buffer with
  | none => .undefined
  | some block =>
    if p.offset + i + bytes.length ≤ block.length then
      .ok () { p with buffer := some (overwrite block (p.offset + i) bytes) }
    else .undefined

def updateOffset : Print Unit := fun p =>
  match p.buffer with
  | none => .ok () p
  | some block =>
    if 0 ∈ block.drop p.offset then .ok () (p.advance (cString (block.drop p.offset)).length) else .undefined

def DBL_EPSILON : Extended := .finite 1 (-52)

def compareDouble (a b : Extended) : Bool :=
  let maxVal := if a.abs.compare b.abs = some .gt then a.abs else b.abs
  let difference := (a.sub b).abs.compare (maxVal.mul DBL_EPSILON)
  difference = some .lt ∨ difference = some .eq

/-- `sscanf` reads a number, and `compare_double` takes it for `d`. -/
def recovers (text : List UInt8) (d : Extended) : Bool :=
  match Strtod.strtod text with
  | none => false
  | some (test, _) => compareDouble test.value d

def sprintf (text : List UInt8) : Print (List UInt8) := if text.length < 26 then pure text else undefined

def printNumber (valueint : Int32) (valuedouble : Double) : Print Unit := do
  let d := valuedouble.value
  let number ←
    if d.isNan ∨ d.isInf then sprintf (ascii ['n', 'u', 'l', 'l'])
    else if d.equals valueint.toInt then sprintf (decimal valueint.toInt)
    else do
      let number ← sprintf (bytes (formatG 15 d))
      if recovers number d then pure number else sprintf (bytes (formatG 17 d))
  if 25 < number.length then fail
  ensure (number.length + 1)
  put 0 (number ++ [0])
  modify (advance number.length)

def escapeLetter (b : UInt8) : Option UInt8 :=
  if b = BACKSLASH then some BACKSLASH
  else if b = QUOTE then some QUOTE
  else if b = 8 then some 98
  else if b = 12 then some 102
  else if b = 10 then some 110
  else if b = 13 then some 114
  else if b = 9 then some 116
  else none

def escapeCharacters : CString → ℕ
  | [] => 0
  | b :: rest => (if (escapeLetter b).isSome then 1 else if b < 32 then 5 else 0) + escapeCharacters rest

def lowerHex (n : ℕ) : UInt8 := UInt8.ofNat (if n < 10 then 48 + n else 87 + n)

def unicodeEscape (b : UInt8) : List UInt8 :=
  [117, lowerHex 0, lowerHex 0, lowerHex (b.toNat / 16), lowerHex (b.toNat % 16)]

def putEscaped : ℕ → CString → Print Unit
  | _, [] => pure ()
  | i, b :: rest =>
    if 31 < b ∧ b ≠ QUOTE ∧ b ≠ BACKSLASH then do
      put i [b]
      putEscaped (i + 1) rest
    else do
      put i [BACKSLASH]
      match escapeLetter b with
      | some letter =>
        put (i + 1) [letter]
        putEscaped (i + 2) rest
      | none =>
        put (i + 1) (unicodeEscape b ++ [0])
        putEscaped (i + 6) rest

def printStringPtr (input : CString) : Print Unit := do
  let escapeCharacters := escapeCharacters input
  let outputLength := input.length + escapeCharacters
  ensure (outputLength + 3)
  put 0 [QUOTE]
  if escapeCharacters = 0 then put 1 input else putEscaped 1 input
  put (outputLength + 1) [QUOTE]
  put (outputLength + 2) [0]

def TAB : UInt8 := 9

mutual

def printValue : CJson → Print Unit
  | .null => do
    ensure 5
    put 0 (ascii ['n', 'u', 'l', 'l'] ++ [0])
  | .false => do
    ensure 6
    put 0 (ascii ['f', 'a', 'l', 's', 'e'] ++ [0])
  | .true => do
    ensure 5
    put 0 (ascii ['t', 'r', 'u', 'e'] ++ [0])
  | .number valueint valuedouble => printNumber valueint valuedouble
  | .string valuestring => printStringPtr (cString valuestring)
  | .raw valuestring => do
    ensure ((cString valuestring).length + 1)
    put 0 (cString valuestring ++ [0])
  | .array child => do
    if CJSON_NESTING_LIMIT ≤ (← get).depth then fail
    ensure 1
    put 0 [LBRACKET]
    modify (advance 1)
    modify enter
    printElements child
    ensure 2
    put 0 [RBRACKET, 0]
    modify leave
  | .object child => do
    let p ← get
    if CJSON_NESTING_LIMIT ≤ p.depth then fail
    let length := if p.format then 2 else 1
    ensure (length + 1)
    put 0 [LBRACE]
    modify enter
    if p.format then put 1 [NEWLINE]
    modify (advance length)
    printMembers child
    let p ← get
    ensure (if p.format then p.depth + 1 else 2)
    let tabs := if p.format then p.depth - 1 else 0
    put 0 (List.replicate tabs TAB)
    put tabs [RBRACE, 0]
    modify leave

def printElements : List CJson → Print Unit
  | [] => pure ()
  | item :: rest => do
    printValue item
    updateOffset
    if !rest.isEmpty then
      let p ← get
      let length := if p.format then 2 else 1
      ensure (length + 1)
      put 0 [COMMA]
      if p.format then put 1 [32]
      put length [0]
      modify (advance length)
    printElements rest

def printMembers : List (CString × CJson) → Print Unit
  | [] => pure ()
  | (name, item) :: rest => do
    let p ← get
    if p.format then
      ensure p.depth
      put 0 (List.replicate p.depth TAB)
      modify (advance p.depth)
    printStringPtr (cString name)
    updateOffset
    let length := if p.format then 2 else 1
    ensure length
    put 0 [COLON]
    if p.format then put 1 [TAB]
    modify (advance length)
    printValue item
    updateOffset
    let comma := if rest.isEmpty then [] else [COMMA]
    let line := if p.format then [NEWLINE] else []
    ensure (line.length + comma.length + 1)
    put 0 comma
    put comma.length line
    put (comma.length + line.length) [0]
    modify (advance (line.length + comma.length))
    printMembers rest

end

structure PrintResult where
  printed : Option (List UInt8)
  hooks : PrintHooks

def PrintHooks.start (hooks : PrintHooks) (size : ℕ) (format : Bool) : PrintBuffer :=
  ⟨some (hooks.block size), 0, 0, false, format, hooks.allocated⟩

/-- The end of `print`, a block of the right size; `none` is undefined. -/
def trim : Fallible PrintBuffer Unit → Option PrintResult
  | .undefined => none
  | .fail p => some ⟨none, if p.buffer.isSome then p.hooks.freed else p.hooks⟩
  | .ok () p =>
    match p.buffer with
    | none => none
    | some block =>
      if p.hooks.grant then
        let fresh := p.hooks.block (p.offset + 1)
        if p.hooks.reallocates then
          some ⟨some ((block ++ fresh.drop block.length).take (p.offset + 1)), p.hooks.called⟩
        else
          let copy := block.take (p.offset + 1) ++ fresh.drop block.length
          some ⟨some (overwrite copy p.offset [0]), p.hooks.called⟩
      else some ⟨none, p.hooks.called.freed⟩

def print (hooks : PrintHooks) (format : Bool) (item : CJson) : Option PrintResult :=
  if hooks.grant then
    let printed : Print Unit := do
      printValue item
      updateOffset
    trim (printed (hooks.start 256 format))
  else some ⟨none, hooks.called⟩

def cJSONPrint (hooks : PrintHooks) (item : CJson) : Option PrintResult := print hooks true item

def cJSONPrintUnformatted (hooks : PrintHooks) (item : CJson) : Option PrintResult := print hooks false item

def keep : Fallible PrintBuffer Unit → Option PrintResult
  | .undefined => none
  | .fail p => some ⟨none, if p.buffer.isSome then p.hooks.freed else p.hooks⟩
  | .ok () p => some ⟨p.buffer, p.hooks⟩

def cJSONPrintBuffered (hooks : PrintHooks) (item : CJson) (prebuffer : Int32) (fmt : Bool) :
    Option PrintResult :=
  if prebuffer < 0 then some ⟨none, hooks⟩
  else if hooks.grant then keep (printValue item (hooks.start prebuffer.toNatClampNeg fmt))
  else some ⟨none, hooks.called⟩

def cJSONPrintPreallocated (hooks : PrintHooks) (item : CJson) (buffer : List UInt8) (format : Bool) :
    Option (Bool × List UInt8) :=
  match printValue item ⟨some buffer, 0, 0, true, format, hooks⟩ with
  | .undefined => none
  | .fail p => some (false, p.buffer.getD buffer)
  | .ok () p => some (true, p.buffer.getD buffer)

end EmbeddedLinuxTraining.CJSON
