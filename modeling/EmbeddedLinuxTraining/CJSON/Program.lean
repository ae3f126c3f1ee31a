import Mathlib.Data.List.TakeWhile
import Mathlib.Tactic.Simps.Basic
import EmbeddedLinuxTraining.Library.Fallible
import EmbeddedLinuxTraining.Library.Strtod
import EmbeddedLinuxTraining.Telemetry.Config

/-!
The parser of seance6/project/cJSON.c. `undefined` is a read outside of the text, a write outside of a
block, or a loop that goes on for longer than the text.
-/

namespace EmbeddedLinuxTraining.CJSON

open Library Library.Binary64 Library.Json Library.Strtod Telemetry

/-- `grants` says which calls of `allocate` return a block, `live` counts the blocks not given back. -/
structure Hooks where
  grants : ℕ → Bool
  calls : ℕ
  live : ℕ

structure ParseBuffer where
  content : List UInt8
  offset : ℕ
  depth : ℕ
  hooks : Hooks

abbrev Parse := Procedure ParseBuffer

def CJSON_NESTING_LIMIT : ℕ := 1000

def INT_MAX : ℤ := 2147483647

def INT_MIN : ℤ := -2147483648

namespace ParseBuffer

def length (buffer : ParseBuffer) : ℕ := buffer.content.length

def canRead (buffer : ParseBuffer) (size : ℕ) : Bool := buffer.offset + size ≤ buffer.length

def canAccessAtIndex (buffer : ParseBuffer) (index : ℕ) : Bool := buffer.offset + index < buffer.length

def bufferAtOffset (buffer : ParseBuffer) : List UInt8 := buffer.content.drop buffer.offset

@[simps]
def advance (n : ℕ) (buffer : ParseBuffer) : ParseBuffer := { buffer with offset := buffer.offset + n }

@[simps]
def stepBack (buffer : ParseBuffer) : ParseBuffer := { buffer with offset := buffer.offset - 1 }

@[simps]
def enter (buffer : ParseBuffer) : ParseBuffer := { buffer with depth := buffer.depth + 1 }

@[simps]
def leave (buffer : ParseBuffer) : ParseBuffer := { buffer with depth := buffer.depth - 1 }

@[simps]
def allocated (buffer : ParseBuffer) : ParseBuffer :=
  { buffer with hooks := { buffer.hooks with calls := buffer.hooks.calls + 1, live := buffer.hooks.live + 1 } }

@[simps]
def refused (buffer : ParseBuffer) : ParseBuffer :=
  { buffer with hooks := { buffer.hooks with calls := buffer.hooks.calls + 1 } }

@[simps]
def deallocate (n : ℕ) (buffer : ParseBuffer) : ParseBuffer :=
  { buffer with hooks := { buffer.hooks with live := buffer.hooks.live - n } }

def skipWhitespace (buffer : ParseBuffer) : ParseBuffer :=
  if !buffer.canAccessAtIndex 0 then buffer
  else
    let offset := buffer.offset + (buffer.bufferAtOffset.takeWhile (· ≤ 32)).length
    { buffer with offset := if offset = buffer.length then offset - 1 else offset }

def skipUtf8Bom (buffer : ParseBuffer) : ParseBuffer :=
  if buffer.canAccessAtIndex 4 ∧ buffer.bufferAtOffset.take 3 = [0xEF, 0xBB, 0xBF] then buffer.advance 3
  else buffer

end ParseBuffer

open Procedure ParseBuffer

def byteAt (i : ℕ) : Parse UInt8 := fun buffer =>
  match buffer.content[buffer.offset + i]? with
  | none => .undefined
  | some b => .ok b buffer

def allocate : Parse Unit := fun buffer =>
  if buffer.hooks.grants buffer.hooks.calls then .ok () buffer.allocated else .fail buffer.refused

def nextIs (b : UInt8) : Parse Bool := do
  if (← get).canAccessAtIndex 0 then
    let c ← byteAt 0
    pure (c = b)
  else pure false

mutual

def blocks : CJson → ℕ
  | .string _ | .raw _ => 1
  | .array child => arrayBlocks child
  | .object child => objectBlocks child
  | _ => 0

def arrayBlocks : List CJson → ℕ
  | [] => 0
  | item :: rest => 1 + blocks item + arrayBlocks rest

def objectBlocks : List (CString × CJson) → ℕ
  | [] => 0
  | (_, item) :: rest => 2 + blocks item + objectBlocks rest

end

def isNumberByte (b : UInt8) : Bool :=
  (48 ≤ b ∧ b ≤ 57) ∨ b = 43 ∨ b = 45 ∨ b = LOWER_E ∨ b = UPPER_E ∨ b = POINT

def valueint (number : Double) : Int32 :=
  if number.value.atLeast INT_MAX then Int32.ofInt INT_MAX
  else if number.value.atMost INT_MIN then Int32.ofInt INT_MIN
  else Int32.ofInt number.value.trunc

def parseNumber : Parse CJson := do
  let text := (← get).bufferAtOffset.takeWhile isNumberByte
  allocate
  match strtod text with
  | none =>
    modify (deallocate 1)
    fail
  | some (value, rest) =>
    modify (advance (text.length - rest.length))
    modify (deallocate 1)
    pure (.number (valueint value) value)

def parseHex4From (content : List UInt8) : ℕ → ℕ → ℕ → Option ℕ
  | 0, _, h => some h
  | i + 1, input, h => do
    let b ← content[input]?
    match hexDigit b with
    | none => some 0
    | some digit => parseHex4From content i (input + 1) (if 0 < i then (h + digit) <<< 4 else h + digit)

def parseHex4 (content : List UInt8) (input : ℕ) : Option ℕ := parseHex4From content 4 input 0

def utf8Tail : ℕ → ℕ → List UInt8 → ℕ × List UInt8
  | 0, codepoint, tail => (codepoint, tail)
  | position + 1, codepoint, tail =>
    utf8Tail position (codepoint >>> 6) (UInt8.ofNat ((codepoint ||| 0x80) &&& 0xBF) :: tail)

def encodeUtf8 (codepoint utf8Length firstByteMark : ℕ) : List UInt8 :=
  let (codepoint, tail) := utf8Tail (utf8Length - 1) codepoint []
  if 1 < utf8Length then UInt8.ofNat ((codepoint ||| firstByteMark) &&& 0xFF) :: tail
  else UInt8.ofNat (codepoint &&& 0x7F) :: tail

def utf8Of (codepoint : ℕ) : Option (List UInt8) :=
  if codepoint < 0x80 then some (encodeUtf8 codepoint 1 0)
  else if codepoint < 0x800 then some (encodeUtf8 codepoint 2 0xC0)
  else if codepoint < 0x10000 then some (encodeUtf8 codepoint 3 0xE0)
  else if codepoint ≤ 0x10FFFF then some (encodeUtf8 codepoint 4 0xF0)
  else none

/-- The bytes of a literal and its length, or `some none` where it fails. -/
def utf16LiteralToUtf8 (content : List UInt8) (inputPointer inputEnd : ℕ) : Option (Option (List UInt8 × ℕ)) := do
  if inputEnd - inputPointer < 6 then return none
  let firstCode ← parseHex4 content (inputPointer + 2)
  if 0xDC00 ≤ firstCode ∧ firstCode ≤ 0xDFFF then return none
  if 0xD800 ≤ firstCode ∧ firstCode ≤ 0xDBFF then
    let secondSequence := inputPointer + 6
    if inputEnd - secondSequence < 6 then return none
    if (← content[secondSequence]?) ≠ BACKSLASH then return none
    if (← content[secondSequence + 1]?) ≠ 117 then return none
    let secondCode ← parseHex4 content (secondSequence + 2)
    if secondCode < 0xDC00 ∨ 0xDFFF < secondCode then return none
    return (utf8Of (0x10000 + ((firstCode &&& 0x3FF) <<< 10 ||| (secondCode &&& 0x3FF)))).map (·, 12)
  return (utf8Of firstCode).map (·, 6)

/-- From the byte after the first quotation mark: how far the second one is, and the backslashes on the
way that are skipped -/
def literalEnd : List UInt8 → Option (ℕ × ℕ)
  | [] => none
  | [b] => if b = QUOTE then some (0, 0) else none
  | b :: c :: rest =>
    if b = QUOTE then some (0, 0)
    else if b = BACKSLASH then (literalEnd rest).map fun r => (r.1 + 2, r.2 + 1)
    else (literalEnd (c :: rest)).map fun r => (r.1 + 1, r.2)

def escapeSequence (content : List UInt8) (inputPointer inputEnd : ℕ) : Option (Option (List UInt8 × ℕ)) := do
  if inputEnd - inputPointer < 1 then return none
  let b ← content[inputPointer + 1]?
  if b = 98 then return some ([8], 2)
  else if b = 102 then return some ([12], 2)
  else if b = 110 then return some ([10], 2)
  else if b = 114 then return some ([13], 2)
  else if b = 116 then return some ([9], 2)
  else if b = QUOTE ∨ b = BACKSLASH ∨ b = 47 then return some ([b], 2)
  else if b = 117 then utf16LiteralToUtf8 content inputPointer inputEnd
  else return none

/-- The loop through the literal, on the input pointer; `output` has room for `size` bytes. -/
def convert (content : List UInt8) (inputEnd size : ℕ) : ℕ → List UInt8 → Procedure ℕ (List UInt8)
  | 0, _ => undefined
  | n + 1, output => fun inputPointer =>
    if inputPointer < inputEnd then
      match content[inputPointer]? with
      | none => .undefined
      | some b =>
        if b ≠ BACKSLASH then
          if output.length < size then convert content inputEnd size n (output ++ [b]) (inputPointer + 1)
          else .undefined
        else
          match escapeSequence content inputPointer inputEnd with
          | none => .undefined
          | some none => .fail inputPointer
          | some (some (bytes, sequenceLength)) =>
            if output.length + bytes.length ≤ size then
              convert content inputEnd size n (output ++ bytes) (inputPointer + sequenceLength)
            else .undefined
    -- zero terminate the output
    else if output.length < size then .ok output inputPointer else .undefined

def parseString : Parse (List UInt8) := do
  let buffer ← get
  if (← byteAt 0) ≠ QUOTE then
    modify (advance 1)
    fail
  match literalEnd (buffer.content.drop (buffer.offset + 1)) with
  | none =>
    modify (advance 1)
    fail
  | some (distance, skippedBytes) =>
    let inputEnd := buffer.offset + 1 + distance
    let allocationLength := inputEnd - buffer.offset - skippedBytes
    allocate.onFail (advance 1)
    match convert buffer.content inputEnd (allocationLength + 1) (buffer.length + 1) [] (buffer.offset + 1) with
    | .undefined => undefined
    | .fail inputPointer =>
      modify (deallocate 1)
      modify fun b => { b with offset := inputPointer }
      fail
    | .ok output _ =>
      modify fun b => { b with offset := inputEnd + 1 }
      pure output

section

variable (parseValue : Parse CJson)

def parseElements : ℕ → List CJson → Parse (List CJson)
  | 0, _ => undefined
  | n + 1, head => do
    allocate.onFail (deallocate (arrayBlocks head))
    modify (advance 1)
    modify skipWhitespace
    let item ← parseValue.onFail (deallocate (arrayBlocks head + 1))
    modify skipWhitespace
    if ← nextIs COMMA then parseElements n (head ++ [item])
    else pure (head ++ [item])

def parseArray : Parse CJson := do
  if CJSON_NESTING_LIMIT ≤ (← get).depth then fail
  modify enter
  if (← byteAt 0) ≠ LBRACKET then fail
  modify (advance 1)
  modify skipWhitespace
  if ← nextIs RBRACKET then
    modify leave
    modify (advance 1)
    return .array []
  if !(← get).canAccessAtIndex 0 then
    modify stepBack
    fail
  modify stepBack
  let head ← parseElements parseValue (← get).length []
  if !(← nextIs RBRACKET) then
    modify (deallocate (arrayBlocks head))
    fail
  modify leave
  modify (advance 1)
  return .array head

def parseMembers : ℕ → List (CString × CJson) → Parse (List (CString × CJson))
  | 0, _ => undefined
  | n + 1, head => do
    allocate.onFail (deallocate (objectBlocks head))
    if !(← get).canAccessAtIndex 1 then
      modify (deallocate (objectBlocks head + 1))
      fail
    modify (advance 1)
    modify skipWhitespace
    let name ← parseString.onFail (deallocate (objectBlocks head + 1))
    modify skipWhitespace
    if !(← nextIs COLON) then
      modify (deallocate (objectBlocks head + 2))
      fail
    modify (advance 1)
    modify skipWhitespace
    let item ← parseValue.onFail (deallocate (objectBlocks head + 2))
    modify skipWhitespace
    if ← nextIs COMMA then parseMembers n (head ++ [(cString name, item)])
    else pure (head ++ [(cString name, item)])

def parseObject : Parse CJson := do
  if CJSON_NESTING_LIMIT ≤ (← get).depth then fail
  modify enter
  if !(← nextIs LBRACE) then fail
  modify (advance 1)
  modify skipWhitespace
  if ← nextIs RBRACE then
    modify leave
    modify (advance 1)
    return .object []
  if !(← get).canAccessAtIndex 0 then
    modify stepBack
    fail
  modify stepBack
  let head ← parseMembers parseValue (← get).length []
  if !(← nextIs RBRACE) then
    modify (deallocate (objectBlocks head))
    fail
  modify leave
  modify (advance 1)
  return .object head

end

/-- `n` levels of arrays and objects are left. -/
def parseValue : ℕ → Parse CJson
  | 0 => undefined
  | n + 1 => do
    let buffer ← get
    if buffer.canRead 4 ∧ buffer.bufferAtOffset.take 4 = ascii ['n', 'u', 'l', 'l'] then
      modify (advance 4)
      return .null
    if buffer.canRead 5 ∧ buffer.bufferAtOffset.take 5 = ascii ['f', 'a', 'l', 's', 'e'] then
      modify (advance 5)
      return .false
    if buffer.canRead 4 ∧ buffer.bufferAtOffset.take 4 = ascii ['t', 'r', 'u', 'e'] then
      modify (advance 4)
      return .true
    if !buffer.canAccessAtIndex 0 then fail
    let b ← byteAt 0
    if b = QUOTE then
      let valuestring ← parseString
      return .string valuestring
    if b = 45 ∨ (48 ≤ b ∧ b ≤ 57) then parseNumber
    else if b = LBRACKET then parseArray (parseValue n)
    else if b = LBRACE then parseObject (parseValue n)
    else fail

structure ParseResult where
  root : Except ℕ CJson
  hooks : Hooks

def errorPosition (buffer : ParseBuffer) : ℕ :=
  if buffer.offset < buffer.length then buffer.offset else buffer.length - 1

def parseRoot (requireNullTerminated : Bool) : Parse CJson := do
  allocate
  modify skipUtf8Bom
  modify skipWhitespace
  let item ← (parseValue (CJSON_NESTING_LIMIT + 1)).onFail (deallocate 1)
  if requireNullTerminated then
    modify skipWhitespace
    if !(← nextIs 0) then
      modify (deallocate (1 + blocks item))
      fail
  return item

def cJSONParseWithLengthOpts (grants : ℕ → Bool) (value : List UInt8) (requireNullTerminated : Bool) :
    Option ParseResult :=
  if value.length = 0 then some ⟨.error 0, ⟨grants, 0, 0⟩⟩
  else
    match parseRoot requireNullTerminated ⟨value, 0, 0, ⟨grants, 0, 0⟩⟩ with
    | .undefined => none
    | .fail buffer => some ⟨.error (errorPosition buffer), buffer.hooks⟩
    | .ok item buffer => some ⟨.ok item, buffer.hooks⟩

def cJSONParseWithOpts (grants : ℕ → Bool) (value : CString) (requireNullTerminated : Bool) :
    Option ParseResult :=
  cJSONParseWithLengthOpts grants (value ++ [0]) requireNullTerminated

def cJSONParse (grants : ℕ → Bool) (value : CString) : Option ParseResult :=
  cJSONParseWithOpts grants value false

end EmbeddedLinuxTraining.CJSON
