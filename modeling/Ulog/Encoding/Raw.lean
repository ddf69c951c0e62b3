import Ulog.Record.View

/-!
# The Raw encoder

A frame is `tskv`, one tab-separated `key=value` pair per field, the pair `text=message` and a
line feed. The encoder runs over the Record twice: `RequiredSize` adds up the frame's size in a
`std::size_t` and gives up on overflow, then the same walk writes the bytes through a cursor into a
caller's span. `std::to_chars` writes numbers into whatever is left of that span.
-/

namespace Ulog

open ByteMemory

def rawPrefix : Bytes := [0x74, 0x73, 0x6b, 0x76]

def textPrefix : Bytes := [0x09, 0x74, 0x65, 0x78, 0x74, 0x3d]

def nullValue : Bytes := [0x6e, 0x75, 0x6c, 0x6c]

def fieldSeparator : UInt8 := 0x09

def keyValueSeparator : UInt8 := 0x3d

def recordTerminator : UInt8 := 0x0a

/-- `EscapeCode`: the letter behind the backslash, or `0` for a byte that stands for itself. -/
def escapeCode (value : UInt8) (isKey : Bool) : UInt8 :=
  if value = 0x00 then 0x30
  else if value = 0x09 then 0x74
  else if value = 0x0a then 0x6e
  else if value = 0x0d then 0x72
  else if value = 0x5c then 0x5c
  else if value = 0x3d then (if isKey then 0x3d else 0)
  else 0

def normalizeKeyByte (value : UInt8) : UInt8 :=
  if 0x41 ≤ value ∧ value ≤ 0x5a then value - 0x41 + 0x61 else value

/-! ## The sizing pass -/

def addSize (total increment : ℕ) : Option ℕ :=
  if wordModulus - 1 - total < increment then none else some (total + increment)

def addEscapedSize (isKey : Bool) (total : ℕ) : Bytes → Option ℕ
  | [] => some total
  | byte :: rest => do
    let total ← addSize total (if escapeCode byte isKey = 0 then 1 else 2)
    addEscapedSize isKey total rest

/-- `FormattedNumberSize`: the number is printed into a buffer of 64 bytes. -/
def formattedNumberSize (text : Bytes) : Option ℕ := (toChars text 64).map List.length

section Passes

variable (conv : Charconv)

def addFieldValueSize (total : ℕ) (field : FieldView) : Option ℕ :=
  match field.kind with
  | some .string => do addEscapedSize false total (← field.asString)
  | some .int64 => do addSize total (← formattedNumberSize (int64Text (← field.asInt64)))
  | some .uint64 => do addSize total (← formattedNumberSize (uint64Text (← field.asUInt64)))
  | some .double => do addSize total (← formattedNumberSize (conv.double (← field.asDouble)))
  | some .bool => if field.asBool.isSome then addSize total 1 else none
  | some .null => if field.isNull then addSize total nullValue.length else none
  | none => none

/-- The field loop of `RequiredSize`, with the number of rounds left. -/
def addFieldsSize : ℕ → ℕ → FieldCursor → Option ℕ
  | 0, total, _ => some total
  | rounds + 1, total, fields => do
    let field ← fields.next.1
    let total ← addSize total 1
    let total ← addEscapedSize true total field.key
    let total ← addSize total 1
    let total ← addFieldValueSize conv total field
    addFieldsSize rounds total fields.next.2

def requiredSize (record : RecordView) : Option ℕ := do
  let total ← addFieldsSize conv record.fieldCount rawPrefix.length record.fields
  let total ← addSize total textPrefix.length
  let total ← addEscapedSize false total record.message
  addSize total 1

/-! ## The writing pass -/

/-- The output span with the write cursor. -/
structure RawOutput where
  output : Mem
  size : ℕ
  cursor : ℕ := 0

namespace RawOutput

def writeLiteral (o : RawOutput) (value : Bytes) : RawOutput :=
  { o with output := write o.output o.cursor value, cursor := o.cursor + value.length }

/-- `output[cursor++] = value`. -/
def writeByte (o : RawOutput) (value : UInt8) : RawOutput := o.writeLiteral [value]

def writeEscaped (isKey : Bool) (o : RawOutput) : Bytes → RawOutput
  | [] => o
  | byte :: rest =>
    if escapeCode byte isKey ≠ 0 then
      ((o.writeByte 0x5c).writeByte (escapeCode byte isKey)).writeEscaped isKey rest
    else (o.writeByte (if isKey then normalizeKeyByte byte else byte)).writeEscaped isKey rest

/-- `WriteNumber`: `std::to_chars` into the rest of the span. When the text does not fit, the
returned pointer is the end of the span. -/
def writeNumber (o : RawOutput) (text : Bytes) : RawOutput :=
  match toChars text (o.size - o.cursor) with
  | some text => o.writeLiteral text
  | none => { o with cursor := o.size }

/-- `WriteFieldValue`, `none` for its answer `false`. -/
def writeFieldValue (o : RawOutput) (field : FieldView) : Option RawOutput :=
  match field.kind with
  | some .string => field.asString.map (o.writeEscaped false)
  | some .int64 => field.asInt64.map fun value ↦ o.writeNumber (int64Text value)
  | some .uint64 => field.asUInt64.map fun value ↦ o.writeNumber (uint64Text value)
  | some .double => field.asDouble.map fun value ↦ o.writeNumber (conv.double value)
  | some .bool => field.asBool.map fun value ↦ o.writeByte (if value then 0x31 else 0x30)
  | some .null => if field.isNull then some (o.writeLiteral nullValue) else none
  | none => none

/-- The field loop of `EncodeRawRecord`. The span is returned also where the source gives up. -/
def writeFields : ℕ → RawOutput → FieldCursor → RawOutput × Bool
  | 0, o, _ => (o, true)
  | rounds + 1, o, fields =>
    match fields.next.1 with
    | none => (o, false)
    | some field =>
      let o := ((o.writeByte fieldSeparator).writeEscaped true field.key).writeByte
        keyValueSeparator
      match o.writeFieldValue conv field with
      | none => (o, false)
      | some o => writeFields rounds o fields.next.2

end RawOutput

structure RawEncodeResult where
  encodedBytes : ℕ := 0
  complete : Bool := false
  deriving DecidableEq, Repr

/-- `EncodeRawRecord` into a span of `size` bytes. -/
def encodeRawRecord (record : RecordView) (output : Mem) (size : ℕ) : Mem × RawEncodeResult :=
  match requiredSize conv record with
  | none => (output, {})
  | some required =>
    if size < required then (output, {})
    else
      match RawOutput.writeFields conv record.fieldCount
        ((RawOutput.mk output size 0).writeLiteral rawPrefix) record.fields with
      | (o, false) => (o.output, {})
      | (o, true) =>
        let o := ((o.writeLiteral textPrefix).writeEscaped false record.message).writeByte
          recordTerminator
        (o.output, { encodedBytes := o.cursor, complete := true })

/-- The bytes handed on by a call of `EncodeRawRecord`. -/
def encodedFrame (record : RecordView) (output : Mem) (size : ℕ) : Bytes :=
  read (encodeRawRecord conv record output size).1 0
    (encodeRawRecord conv record output size).2.encodedBytes

end Passes

def maximumRawEncodedBytes (recordBytes : ℕ) : ℕ :=
  let fixedBytes := rawPrefix.length + textPrefix.length + 1
  if (wordModulus - 1 - fixedBytes) / 2 < recordBytes then 0
  else fixedBytes + recordBytes * 2

end Ulog
