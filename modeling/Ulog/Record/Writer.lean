import Ulog.Record.Layout
import Mathlib.Data.Nat.Digits.Defs

/-!
# Building a Record in its slot

A `RecordSlot` is one fixed byte array. The writer lets the message grow upwards from the end of
the source text and puts each field below the previous one, downwards from the serialized limit;
fields are linked by patching the `next_offset` of the last one. Publication cuts the message to
well-formed UTF-8, appends the `ulog.truncated` field when bytes were lost, and fixes the header.

The source's writer points at its slot. Here the two travel together as a `RecordBuild`, and the
pointer is the flag `attached`: a default-constructed or abandoned writer has none.
-/

namespace Ulog

open ByteMemory

/-! ## Well-formed UTF-8 prefixes -/

def isContinuationByte (value : UInt8) : Bool := value &&& 0xC0 == 0x80

/-- The length the first byte announces, if it may start a sequence at all. -/
def utf8SequenceSize (first : UInt8) : Option ℕ :=
  if first ≤ 0x7F then some 1
  else if 0xC2 ≤ first ∧ first ≤ 0xDF then some 2
  else if 0xE0 ≤ first ∧ first ≤ 0xEF then some 3
  else if 0xF0 ≤ first ∧ first ≤ 0xF4 then some 4
  else none

/-- Second bytes that make a sequence overlong, a surrogate, or larger than U+10FFFF. -/
def isForbiddenSecondByte (first second : UInt8) : Bool :=
  (first == 0xE0 && second < 0xA0) || (first == 0xED && 0xA0 ≤ second) ||
    (first == 0xF0 && second < 0x90) || (first == 0xF4 && 0x90 ≤ second)

/-- One round of the scan: the size of the well-formed sequence at the head, or `none` where the
loop of the source breaks. -/
def utf8HeadSize : Bytes → Option ℕ
  | [] => none
  | first :: rest =>
    match utf8SequenceSize first with
    | none => none
    | some size =>
      if rest.length + 1 < size then none
      else if !(rest.take (size - 1)).all isContinuationByte then none
      else if isForbiddenSecondByte first (rest.headD 0) && 3 ≤ size then none
      else some size

def validUtf8PrefixScan : ℕ → Bytes → ℕ
  | 0, _ => 0
  | fuel + 1, value =>
    match utf8HeadSize value with
    | none => 0
    | some size => size + validUtf8PrefixScan fuel (value.drop size)

/-- Every round consumes at least one byte, so `value.length` rounds are enough. -/
def validUtf8PrefixLength (value : Bytes) : ℕ := validUtf8PrefixScan value.length value

theorem utf8HeadSize_le {value : Bytes} {size : ℕ} (h : utf8HeadSize value = some size) :
    size ≤ value.length := by
  cases value with
  | nil => cases h
  | cons first rest =>
    rw [utf8HeadSize] at h
    cases hsize : utf8SequenceSize first with
    | none => simp [hsize] at h
    | some n =>
      simp only [hsize] at h
      by_cases hlen : rest.length + 1 < n
      · rw [if_pos hlen] at h
        cases h
      · rw [if_neg hlen] at h
        split at h
        · cases h
        · split at h
          · cases h
          · cases h
            rw [List.length_cons]
            omega

theorem validUtf8PrefixScan_le (fuel : ℕ) (value : Bytes) :
    validUtf8PrefixScan fuel value ≤ value.length := by
  induction fuel generalizing value with
  | zero => exact Nat.zero_le _
  | succ fuel ih =>
    rw [validUtf8PrefixScan]
    split
    · exact Nat.zero_le _
    · next size hsize =>
      have hle := utf8HeadSize_le hsize
      have hrest := ih (value.drop size)
      rw [List.length_drop] at hrest
      omega

theorem validUtf8PrefixLength_le (value : Bytes) : validUtf8PrefixLength value ≤ value.length :=
  validUtf8PrefixScan_le _ _

/-! ## Slots and writers -/

inductive SlotState where
  | reset
  | building
  | published
  deriving DecidableEq, Repr

structure RecordSlot where
  storage : Mem := fun _ ↦ 0
  state : SlotState := .reset

/-- The result of one `Append`. -/
structure WriteResult where
  requestedBytes : ℕ := 0
  storedBytes : ℕ := 0
  truncated : Bool := false
  deriving DecidableEq, Repr

structure RecordWriter where
  attached : Bool := false
  frontEnd : ℕ := 0
  fieldTail : ℕ := 0
  messageOffset : ℕ := 0
  messageSize : ℕ := 0
  requestedMessageBytes : ℕ := 0
  sourcePayloadBytes : ℕ := 0
  fieldPayloadBytes : ℕ := 0
  fieldCount : ℕ := 0
  firstFieldOffset : ℕ := 0
  lastFieldOffset : ℕ := 0
  deriving DecidableEq, Repr

/-- A published Record: its sizes, with the slot it lives in as storage. -/
structure StoredRecord where
  serializedBytes : ℕ := 0
  accountingChargeBytes : ℕ := 0
  truncated : Bool := false
  deriving DecidableEq, Repr

/-- A slot with the writer that points at it. -/
structure RecordBuild where
  slot : RecordSlot
  writer : RecordWriter

/-- `SaturatingAdd` on `std::uint64_t`. -/
def saturatingAdd (value increment : ℕ) : ℕ :=
  if wordModulus - 1 - value < increment then wordModulus - 1 else value + increment

def RecordSlot.reset (slot : RecordSlot) : RecordSlot := { slot with state := .reset }

/-- `RecordSlot::Begin`: writes the header and the source text, or returns no writer. -/
def RecordSlot.begin (slot : RecordSlot) (serializedLimit : ℕ) (level : Level)
    (source : SourceLocation) (timestamp : Int64) : Option RecordBuild :=
  if slot.state ≠ .reset ∨ serializedLimit < serializedRecordMetadataBytes ∨
      maximumRecordBytes < serializedLimit ∨ Level.none.toByte ≤ level.toByte ∨
      uint32Max < source.fileName.length ∨ uint32Max < source.functionName.length ∨
      uint32Max < source.line ∨ uint32Max < source.column ∨
      serializedLimit - serializedRecordMetadataBytes < source.fileName.length ∨
      serializedLimit - serializedRecordMetadataBytes - source.fileName.length
        < source.functionName.length then
    none
  else
    let sourcePathOffset := serializedRecordMetadataBytes
    let sourceFunctionOffset := sourcePathOffset + source.fileName.length
    let messageOffset := sourceFunctionOffset + source.functionName.length
    let header : SerializedRecordHeader :=
      { eventTimestamp := timestamp
        sourcePathOffset := sourcePathOffset
        sourcePathSize := source.fileName.length
        sourceFunctionOffset := sourceFunctionOffset
        sourceFunctionSize := source.functionName.length
        messageOffset := messageOffset
        sourceLine := source.line
        sourceColumn := source.column
        level := level.toByte }
    let storage := write (write (header.write slot.storage 0) sourcePathOffset source.fileName)
      sourceFunctionOffset source.functionName
    some
      { slot := { storage := storage, state := .building }
        writer :=
          { attached := true
            frontEnd := messageOffset
            fieldTail := serializedLimit
            messageOffset := messageOffset
            sourcePayloadBytes := source.fileName.length + source.functionName.length } }

namespace RecordBuild

/-- `RecordWriter::AppendBytes`: stores what fits below the field area. -/
def appendBytes (b : RecordBuild) (value : Bytes) : RecordBuild × WriteResult :=
  let w := b.writer
  let requested := saturatingAdd w.requestedMessageBytes value.length
  if !w.attached then
    ({ b with writer := { w with requestedMessageBytes := requested } },
      { requestedBytes := value.length, truncated := !value.isEmpty })
  else
    let stored := min value.length (w.fieldTail - w.frontEnd)
    ({ slot := { b.slot with storage := write b.slot.storage w.frontEnd (value.take stored) }
       writer :=
        { w with
          requestedMessageBytes := requested
          frontEnd := w.frontEnd + stored
          messageSize := w.messageSize + stored } },
      { requestedBytes := value.length, storedBytes := stored,
        truncated := decide (stored ≠ value.length) })

/-- `RecordWriter::AddFieldBytes`: puts one field below the field area and links it. -/
def addFieldBytes (b : RecordBuild) (key : Bytes) (kind : FieldKind) (value : Bytes)
    (scalarBits : ℕ) (boolValue : Bool) : RecordBuild × Bool :=
  let w := b.writer
  let fieldSize := serializedFieldMetadataBytes + key.length + value.length
  if !w.attached ∨ w.fieldCount = uint32Max ∨ uint32Max < key.length ∨ uint32Max < value.length ∨
      wordModulus - 1 - serializedFieldMetadataBytes < key.length ∨
      wordModulus - 1 - serializedFieldMetadataBytes - key.length < value.length then
    (b, false)
  else if w.fieldTail - w.frontEnd < fieldSize then
    (b, false)
  else
    let fieldOffset := w.fieldTail - fieldSize
    let keyOffset := fieldOffset + serializedFieldMetadataBytes
    let valueOffset := keyOffset + key.length
    let texts := write (write b.slot.storage keyOffset key) valueOffset value
    let field : SerializedField :=
      { nextOffset := 0
        keyOffset := keyOffset
        keySize := key.length
        valueLow := if value.isEmpty then scalarBits % 2 ^ 32 else valueOffset
        valueHigh := if value.isEmpty then scalarBits / 2 ^ 32 % 2 ^ 32 else value.length
        kind := kind.toByte
        flags := if boolValue then 1 else 0 }
    let stored := field.write texts fieldOffset
    -- the first field starts the chain, a later one is linked from its predecessor
    let storage :=
      if w.lastFieldOffset = 0 then stored
      else
        let previous := SerializedField.read stored w.lastFieldOffset
        { previous with nextOffset := fieldOffset }.write stored w.lastFieldOffset
    ({ slot := { b.slot with storage := storage }
       writer :=
        { w with
          fieldTail := fieldOffset
          firstFieldOffset := if w.lastFieldOffset = 0 then fieldOffset else w.firstFieldOffset
          lastFieldOffset := fieldOffset
          fieldCount := w.fieldCount + 1
          fieldPayloadBytes := w.fieldPayloadBytes + (key.length + value.length) } },
      true)

/-- The `AddField` overloads; every scalar shares the words of an empty value. -/
def addField (b : RecordBuild) (key : Bytes) : FieldValue → RecordBuild × Bool
  | .string value => b.addFieldBytes key .string value 0 false
  | .int64 value => b.addFieldBytes key .int64 [] value.toUInt64.toNat false
  | .uint64 value => b.addFieldBytes key .uint64 [] value.toNat false
  | .double bits => b.addFieldBytes key .double [] bits.toNat false
  | .bool value => b.addFieldBytes key .bool [] 0 value
  | .null => b.addFieldBytes key .null [] 0 false

/-- `RecordWriter::Abandon`, also run by the destructor. -/
def abandon (b : RecordBuild) : RecordBuild :=
  if b.writer.attached then
    { slot := b.slot.reset, writer := { b.writer with attached := false } }
  else b

/-- The message bytes stored so far. -/
def storedMessage (b : RecordBuild) : Bytes :=
  read b.slot.storage b.writer.messageOffset b.writer.messageSize

/-- Cut the message to the well-formed prefix of its first `size` bytes. -/
def cutMessage (b : RecordBuild) (size : ℕ) : RecordBuild :=
  let kept := validUtf8PrefixLength (read b.slot.storage b.writer.messageOffset size)
  { b with
    writer := { b.writer with messageSize := kept, frontEnd := b.writer.messageOffset + kept } }

/-- `RecordWriter::AddTruncatedField`: reclaims message bytes when the field does not fit. -/
def addTruncatedField (b : RecordBuild) : RecordBuild × Bool :=
  let w := b.writer
  let required := serializedFieldMetadataBytes + truncatedFieldKey.length
  let available := w.fieldTail - w.frontEnd
  if available < required then
    let reclaimed := required - available
    if w.messageSize < reclaimed then (b, false)
    else (b.cutMessage (w.messageSize - reclaimed)).addField truncatedFieldKey (.bool true)
  else b.addField truncatedFieldKey (.bool true)

/-- The header update and the size checks at the end of `RecordWriter::Publish`. -/
def sealRecord (b : RecordBuild) (truncated : Bool) : RecordBuild × Option StoredRecord :=
  let w := b.writer
  let header : SerializedRecordHeader :=
    { SerializedRecordHeader.read b.slot.storage 0 with
      messageSize := w.messageSize
      firstFieldOffset := w.firstFieldOffset
      fieldCount := w.fieldCount
      flags := if truncated then 1 else 0 }
  let b' : RecordBuild :=
    { b with slot := { b.slot with storage := header.write b.slot.storage 0 } }
  let ownedPayloadBytes := w.sourcePayloadBytes + w.messageSize + w.fieldPayloadBytes
  let metadataBytes :=
    serializedRecordMetadataBytes + w.fieldCount * serializedFieldMetadataBytes
  let serializedBytes := ownedPayloadBytes + metadataBytes
  let charge := accountingCharge serializedBytes
  let serializedLimit :=
    w.fieldTail + serializedFieldMetadataBytes * w.fieldCount + w.fieldPayloadBytes
  if serializedLimit < serializedBytes ∨ charge = 0 ∨ serializedLimit < charge then
    (b'.abandon, none)
  else
    ({ slot := { b'.slot with state := .published }
       writer := { b'.writer with attached := false } },
      some { serializedBytes := serializedBytes, accountingChargeBytes := charge,
             truncated := truncated })

/-- `RecordWriter::Publish`. -/
def publish (b : RecordBuild) : RecordBuild × Option StoredRecord :=
  if !b.writer.attached ∨ b.slot.state ≠ .building then (b, none)
  else
    let cut := b.cutMessage b.writer.messageSize
    if cut.writer.requestedMessageBytes ≠ cut.writer.messageSize then
      match cut.addTruncatedField with
      | (marked, true) => marked.sealRecord true
      | (marked, false) => (marked.abandon, none)
    else cut.sealRecord false

end RecordBuild

/-! ## Builder calls

`std::to_chars` prints integers in decimal. For doubles its output is a parameter: the shortest
text, once in general format (`Append`) and once in the default format (the Raw encoder).
-/

structure Charconv where
  doubleGeneral : UInt64 → Bytes
  double : UInt64 → Bytes

/-- The conversion of runs that format no floating-point number. -/
def Charconv.blank : Charconv := ⟨fun _ ↦ [], fun _ ↦ []⟩

/-- Decimal digits of `n`, most significant first. -/
def decimalText (n : ℕ) : Bytes :=
  if n = 0 then [0x30] else (Nat.digits 10 n).reverse.map fun d ↦ UInt8.ofNat (0x30 + d)

def uint64Text (value : UInt64) : Bytes := decimalText value.toNat

def int64Text (value : Int64) : Bytes :=
  if value.toInt < 0 then 0x2d :: decimalText value.toInt.natAbs else decimalText value.toInt.natAbs

/-- `std::to_chars` into a buffer of `capacity` bytes. -/
def toChars (text : Bytes) (capacity : ℕ) : Option Bytes :=
  if text.length ≤ capacity then some text else none

/-- The argument of an `Append` overload. -/
inductive AppendValue where
  | text (value : Bytes)
  | int64 (value : Int64)
  | uint64 (value : UInt64)
  | double (bits : UInt64)
  | bool (value : Bool)
  deriving DecidableEq, Repr

/-- The bytes an `Append` overload hands to `AppendBytes`. The integer buffers hold
`digits10 + 3` characters, the double buffer 64. -/
def AppendValue.bytes (conv : Charconv) : AppendValue → Option Bytes
  | .text value => some value
  | .int64 value => toChars (int64Text value) 21
  | .uint64 value => toChars (uint64Text value) 22
  | .double bits => toChars (conv.doubleGeneral bits) 64
  | .bool true => some [0x74, 0x72, 0x75, 0x65]
  | .bool false => some [0x66, 0x61, 0x6c, 0x73, 0x65]

/-- One call of a builder on its `RecordAppender`. -/
inductive RecordCall where
  | append (value : AppendValue)
  | addField (key : Bytes) (value : FieldValue)
  deriving DecidableEq, Repr

namespace RecordBuild

variable (conv : Charconv)

def append (b : RecordBuild) (value : AppendValue) : RecordBuild × WriteResult :=
  match value.bytes conv with
  | some bytes => b.appendBytes bytes
  | none => (b, { truncated := true })

/-- Run one builder call. -/
def call (b : RecordBuild) : RecordCall → RecordBuild
  | .append value => (b.append conv value).1
  | .addField key value => (b.addField key value).1

/-- Run a finite sequence of builder calls. -/
def calls (b : RecordBuild) (cs : List RecordCall) : RecordBuild := cs.foldl (call conv) b

/-- The bytes that a sequence of calls asks to append to the message. -/
def appendedBytes : List RecordCall → Bytes
  | [] => []
  | .append value :: cs => (value.bytes conv).getD [] ++ appendedBytes cs
  | .addField _ _ :: cs => appendedBytes cs

/-- The fields of the `AddField` calls that return `true`, in call order. -/
def addedFields (b : RecordBuild) : List RecordCall → List (Bytes × FieldValue)
  | [] => []
  | .append value :: cs => addedFields (b.append conv value).1 cs
  | .addField key value :: cs =>
    if (b.addField key value).2 then (key, value) :: addedFields (b.addField key value).1 cs
    else addedFields (b.addField key value).1 cs

end RecordBuild

end Ulog
