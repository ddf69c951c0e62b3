import Ulog.Prototype.Storage
import Ulog.Record.Writer

/-!
# The prototype Record slot

The benchmark prototype's slot, writer and views, over any of the three storages. The layout is an
earlier form of the production one: a header of 48 bytes, the same metadata block for a field, no
field that marks truncation. A writer is handed a footprint, the sizes that admission has charged
for, and publication fails if the Record turns out to be charged more.

Members of the footprint are `uint64_t` and those of the header `uint32_t`; both are natural
numbers here, and storing a word reduces it to its width.
-/

namespace Ulog.Prototype

open ByteMemory

def serializedRecordMetadataBytes : ℕ := 48

/-! ## Readers -/

/-- Read access to a storage whose type is forgotten: the two function pointers of the source. -/
structure StorageReader where
  readByte : ℕ → UInt8
  copyOut : ℕ → ℕ → Bytes

/-- `StorageReader::From`. The source's reader follows its storage; a reader here is taken from the
storage as it is when it is used. -/
def StorageReader.ofStorage {σ : Type} [Segmented σ] (storage : σ) : StorageReader where
  readByte := ByteMemory.readByte storage
  copyOut := ByteMemory.copyOut storage

/-- `ReadObject`: the bytes are copied over a value-initialized object. -/
def readObject (storage : StorageReader) (offset : ℕ) (widths : List ℕ) : List ℕ :=
  readWords (write (fun _ ↦ 0) 0 (storage.copyOut offset widths.sum)) 0 widths

/-- `WriteObject`. -/
def writeObject {σ : Type} [Segmented σ] (storage : σ) (offset : ℕ) (words : List (ℕ × ℕ)) : σ :=
  copyIn storage offset (packWords words)

structure SerializedRecordHeader where
  eventTimestamp : Int64 := 0
  sourcePathOffset : ℕ := 0
  sourcePathSize : ℕ := 0
  sourceFunctionOffset : ℕ := 0
  sourceFunctionSize : ℕ := 0
  messageOffset : ℕ := 0
  messageSize : ℕ := 0
  sourceLine : UInt32 := 0
  firstFieldOffset : ℕ := 0
  fieldCount : ℕ := 0
  flags : ℕ := 0

namespace SerializedRecordHeader

def widths : List ℕ := [8, 4, 4, 4, 4, 4, 4, 4, 4, 4, 4]

def words (h : SerializedRecordHeader) : List (ℕ × ℕ) :=
  [(8, h.eventTimestamp.toUInt64.toNat), (4, h.sourcePathOffset), (4, h.sourcePathSize),
    (4, h.sourceFunctionOffset), (4, h.sourceFunctionSize), (4, h.messageOffset),
    (4, h.messageSize), (4, h.sourceLine.toNat), (4, h.firstFieldOffset), (4, h.fieldCount),
    (4, h.flags)]

def ofWords (ws : List ℕ) : SerializedRecordHeader where
  eventTimestamp := (UInt64.ofNat (ws.getD 0 0)).toInt64
  sourcePathOffset := ws.getD 1 0
  sourcePathSize := ws.getD 2 0
  sourceFunctionOffset := ws.getD 3 0
  sourceFunctionSize := ws.getD 4 0
  messageOffset := ws.getD 5 0
  messageSize := ws.getD 6 0
  sourceLine := UInt32.ofNat (ws.getD 7 0)
  firstFieldOffset := ws.getD 8 0
  fieldCount := ws.getD 9 0
  flags := ws.getD 10 0

/-- `ReadObject<SerializedRecordHeader>`. -/
def read (storage : StorageReader) (offset : ℕ) : SerializedRecordHeader :=
  ofWords (readObject storage offset widths)

end SerializedRecordHeader

/-- `ReadObject<SerializedField>`. The block has the members of the production one. -/
def readField (storage : StorageReader) (offset : ℕ) : SerializedField :=
  SerializedField.ofWords (readObject storage offset SerializedField.widths)

/-! ## Well-formed UTF-8 prefixes, read byte by byte -/

/-- One round of the scan: the size of the well-formed sequence at `offset`, of which `size` bytes
may be looked at, or `none` where the loop of the source breaks. -/
def utf8HeadSizeAt (storage : StorageReader) (offset size : ℕ) : Option ℕ :=
  match utf8SequenceSize (storage.readByte offset) with
  | none => none
  | some sequenceSize =>
    if size < sequenceSize then none
    else if !(List.range (sequenceSize - 1)).all fun i ↦
        isContinuationByte (storage.readByte (offset + 1 + i)) then none
    else if 3 ≤ sequenceSize &&
        isForbiddenSecondByte (storage.readByte offset) (storage.readByte (offset + 1)) then none
    else some sequenceSize

def validUtf8PrefixScanAt (storage : StorageReader) : ℕ → ℕ → ℕ → ℕ
  | 0, _, _ => 0
  | fuel + 1, offset, size =>
    if size = 0 then 0
    else
      match utf8HeadSizeAt storage offset size with
      | none => 0
      | some n => n + validUtf8PrefixScanAt storage fuel (offset + n) (size - n)

/-- `ValidUtf8PrefixLength` over a reader. -/
def validUtf8PrefixLengthAt (storage : StorageReader) (offset size : ℕ) : ℕ :=
  validUtf8PrefixScanAt storage size offset size

/-! ## Views -/

structure TextView where
  storage : StorageReader
  offset : ℕ
  size : ℕ

namespace TextView

/-- The bytes from `begin()` to `end()`. -/
def bytes (v : TextView) : Bytes :=
  (List.range v.size).map fun i ↦ v.storage.readByte (v.offset + i)

/-- `CopyTo` a destination of `capacity` bytes. -/
def copyTo (v : TextView) (capacity : ℕ) : Bytes :=
  let copied := min v.size capacity
  if copied ≠ 0 then v.storage.copyOut v.offset copied else []

/-- `Equals`. -/
def equals (v : TextView) (value : Bytes) : Bool :=
  if value.length ≠ v.size then false
  else (List.range v.size).all fun i ↦ v.storage.readByte (v.offset + i) == value.getD i 0

end TextView

structure FieldView where
  storage : StorageReader
  field : SerializedField

namespace FieldView

def key (v : FieldView) : TextView := ⟨v.storage, v.field.keyOffset, v.field.keySize⟩

def kind (v : FieldView) : Option FieldKind := FieldKind.ofByte v.field.kind

def asString (v : FieldView) : Option TextView :=
  if v.kind ≠ some .string then none
  else some ⟨v.storage, v.field.valueLow, v.field.valueHigh⟩

/-- `ReadScalar`: the bit pattern of a field of the expected kind. -/
def readScalar (v : FieldView) (expectedKind : FieldKind) : Option UInt64 :=
  if v.kind ≠ some expectedKind then none
  else some (UInt64.ofNat (v.field.valueLow ||| v.field.valueHigh <<< 32))

def asInt64 (v : FieldView) : Option Int64 := (v.readScalar .int64).map (·.toInt64)

def asUInt64 (v : FieldView) : Option UInt64 := v.readScalar .uint64

/-- The double as its bit pattern. -/
def asDouble (v : FieldView) : Option UInt64 := v.readScalar .double

def asBool (v : FieldView) : Option Bool :=
  if v.kind ≠ some .bool then none else some (v.field.flags != 0)

def isNull (v : FieldView) : Bool := v.kind = some .null

end FieldView

structure RecordFootprint where
  requestedMessageBytes : ℕ := 0
  storedMessageBytes : ℕ := 0
  ownedPayloadBytes : ℕ := 0
  metadataBytes : ℕ := 0
  fragmentationBytes : ℕ := 0
  accountingChargeBytes : ℕ := 0
  minimumAccountingChargeBytes : ℕ := 0
  truncated : Bool := false
  deriving DecidableEq, Repr

def RecordFootprint.serializedBytes (f : RecordFootprint) : ℕ :=
  f.ownedPayloadBytes + f.metadataBytes

/-- A view of a published Record; the null view of the source is an absent one here. -/
structure RecordView where
  storage : StorageReader
  footprint : RecordFootprint

namespace RecordView

def header (v : RecordView) : SerializedRecordHeader := SerializedRecordHeader.read v.storage 0

def message (v : RecordView) : TextView :=
  ⟨v.storage, v.header.messageOffset, v.header.messageSize⟩

def sourcePath (v : RecordView) : TextView :=
  ⟨v.storage, v.header.sourcePathOffset, v.header.sourcePathSize⟩

def sourceFunction (v : RecordView) : TextView :=
  ⟨v.storage, v.header.sourceFunctionOffset, v.header.sourceFunctionSize⟩

def sourceLine (v : RecordView) : UInt32 := v.header.sourceLine

def eventTimestamp (v : RecordView) : Int64 := v.header.eventTimestamp

def fieldCount (v : RecordView) : ℕ := v.header.fieldCount

/-- The loop of `FieldAt`: follow `next_offset` from `offset`. -/
def fieldOffset (storage : StorageReader) (offset : ℕ) : ℕ → ℕ
  | 0 => offset
  | n + 1 => fieldOffset storage (readField storage offset).nextOffset n

def fieldAt (v : RecordView) (index : ℕ) : Option FieldView :=
  if v.header.fieldCount ≤ index then none
  else some ⟨v.storage,
    readField v.storage (fieldOffset v.storage v.header.firstFieldOffset index)⟩

end RecordView

/-! ## Slots and writers -/

structure RecordSeed where
  sourcePath : Bytes
  sourceFunction : Bytes
  sourceLine : UInt32 := 0
  eventTimestamp : Int64 := 0
  deriving DecidableEq, Repr

structure RecordSlot (p : Policy) where
  storage : p.Storage
  state : SlotState := .reset

structure Writer where
  attached : Bool := false
  frontEnd : ℕ := 0
  fieldTail : ℕ := 0
  messageOffset : ℕ := 0
  messageSize : ℕ := 0
  requestedMessageBytes : ℕ := 0
  sourcePayloadBytes : ℕ := 0
  fieldPayloadBytes : ℕ := 0
  fieldCount : ℕ := 0
  firstFieldOffset : ℕ := 0
  lastFieldOffset : ℕ := 0
  accountingChargeLimitBytes : ℕ := 0
  deriving DecidableEq, Repr

/-- A slot with the writer that points at it. -/
structure Build (p : Policy) where
  slot : RecordSlot p
  writer : Writer

variable {p : Policy}

def isValidFootprint (p : Policy) (f : RecordFootprint) : Bool :=
  if maximumSerializedBytes < f.ownedPayloadBytes ∨ maximumSerializedBytes < f.metadataBytes ∨
      maximumSerializedBytes - f.metadataBytes < f.ownedPayloadBytes then false
  else
    let serializedBytes := f.ownedPayloadBytes + f.metadataBytes
    if maximumSerializedBytes < f.accountingChargeBytes ∨
        serializedBytes < serializedRecordMetadataBytes ∨
        f.accountingChargeBytes < serializedBytes ∨
        f.minimumAccountingChargeBytes ≠ p.minimumAccountingChargeBytes then false
    else
      f.accountingChargeBytes == p.accountingCharge serializedBytes &&
        f.fragmentationBytes == f.accountingChargeBytes - serializedBytes

/-- `RecordSlot::Begin`: writes the source text and the header, or returns no writer. -/
def RecordSlot.begin (slot : RecordSlot p) (seed : RecordSeed) (f : RecordFootprint) :
    Option (Build p) :=
  if slot.state ≠ .reset ∨ !isValidFootprint p f ∨ uint32Max < seed.sourcePath.length ∨
      uint32Max < seed.sourceFunction.length ∨
      wordModulus - 1 - seed.sourceFunction.length < seed.sourcePath.length then none
  else
    let serializedLimit := f.serializedBytes
    let sourceSize := seed.sourcePath.length + seed.sourceFunction.length
    if serializedLimit - serializedRecordMetadataBytes < sourceSize then none
    else
      let pathOffset := serializedRecordMetadataBytes
      let functionOffset := pathOffset + seed.sourcePath.length
      let messageOffset := functionOffset + seed.sourceFunction.length
      let texts := copyIn (copyIn slot.storage pathOffset seed.sourcePath) functionOffset
        seed.sourceFunction
      let header : SerializedRecordHeader :=
        { eventTimestamp := seed.eventTimestamp
          sourcePathOffset := pathOffset
          sourcePathSize := seed.sourcePath.length
          sourceFunctionOffset := functionOffset
          sourceFunctionSize := seed.sourceFunction.length
          messageOffset := messageOffset
          sourceLine := seed.sourceLine }
      some
        { slot := { storage := writeObject texts 0 header.words, state := .building }
          writer :=
            { attached := true
              frontEnd := messageOffset
              fieldTail := serializedLimit
              messageOffset := messageOffset
              sourcePayloadBytes := sourceSize
              accountingChargeLimitBytes := f.accountingChargeBytes } }

namespace Build

/-- `Writer::AppendBytes`. -/
def appendBytes (b : Build p) (value : Bytes) : Build p × WriteResult :=
  let w := b.writer
  let requested := saturatingAdd w.requestedMessageBytes value.length
  if !w.attached then
    ({ b with writer := { w with requestedMessageBytes := requested } },
      { requestedBytes := value.length, truncated := !value.isEmpty })
  else
    let stored := min value.length (w.fieldTail - w.frontEnd)
    ({ slot := { b.slot with storage := copyIn b.slot.storage w.frontEnd (value.take stored) }
       writer :=
        { w with
          requestedMessageBytes := requested
          frontEnd := w.frontEnd + stored
          messageSize := w.messageSize + stored } },
      { requestedBytes := value.length, storedBytes := stored,
        truncated := decide (stored ≠ value.length) })

/-- `Writer::AddFieldBytes`. -/
def addFieldBytes (b : Build p) (key : Bytes) (kind : FieldKind) (value : Bytes)
    (scalarBits : ℕ) (boolValue : Bool) : Build p × Bool :=
  let w := b.writer
  let fieldSize := serializedFieldMetadataBytes + key.length + value.length
  if !w.attached ∨ w.fieldCount = uint32Max ∨ uint32Max < key.length ∨ uint32Max < value.length ∨
      wordModulus - 1 - serializedFieldMetadataBytes < key.length ∨
      wordModulus - 1 - serializedFieldMetadataBytes - key.length < value.length then
    (b, false)
  else if w.fieldTail - w.frontEnd < fieldSize then
    (b, false)
  else
    let fieldOffset := w.fieldTail - fieldSize
    let keyOffset := fieldOffset + serializedFieldMetadataBytes
    let valueOffset := keyOffset + key.length
    let texts := copyIn (copyIn b.slot.storage keyOffset key) valueOffset value
    let field : SerializedField :=
      { nextOffset := 0
        keyOffset := keyOffset
        keySize := key.length
        valueLow := if value.isEmpty then scalarBits % 2 ^ 32 else valueOffset
        valueHigh := if value.isEmpty then scalarBits / 2 ^ 32 % 2 ^ 32 else value.length
        kind := kind.toByte
        flags := if boolValue then 1 else 0 }
    let stored := writeObject texts fieldOffset field.words
    -- the first field starts the chain, a later one is linked from its predecessor
    let storage :=
      if w.lastFieldOffset = 0 then stored
      else
        let previous := readField (.ofStorage stored) w.lastFieldOffset
        writeObject stored w.lastFieldOffset
          (SerializedField.words { previous with nextOffset := fieldOffset })
    ({ slot := { b.slot with storage := storage }
       writer :=
        { w with
          fieldTail := fieldOffset
          firstFieldOffset := if w.lastFieldOffset = 0 then fieldOffset else w.firstFieldOffset
          lastFieldOffset := fieldOffset
          fieldCount := w.fieldCount + 1
          fieldPayloadBytes := w.fieldPayloadBytes + (key.length + value.length) } },
      true)

/-- The `AddField` overloads. -/
def addField (b : Build p) (key : Bytes) : FieldValue → Build p × Bool
  | .string value => b.addFieldBytes key .string value 0 false
  | .int64 value => b.addFieldBytes key .int64 [] value.toUInt64.toNat false
  | .uint64 value => b.addFieldBytes key .uint64 [] value.toNat false
  | .double bits => b.addFieldBytes key .double [] bits.toNat false
  | .bool value => b.addFieldBytes key .bool [] 0 value
  | .null => b.addFieldBytes key .null [] 0 false

/-- `Writer::Publish`. -/
def publish (b : Build p) : Build p × Option RecordView :=
  if !b.writer.attached ∨ b.slot.state ≠ .building then (b, none)
  else
    let w := b.writer
    let reader := StorageReader.ofStorage b.slot.storage
    let messageSize := validUtf8PrefixLengthAt reader w.messageOffset w.messageSize
    let truncated := decide (w.requestedMessageBytes ≠ messageSize)
    let header : SerializedRecordHeader :=
      { SerializedRecordHeader.read reader 0 with
        messageSize := messageSize
        firstFieldOffset := w.firstFieldOffset
        fieldCount := w.fieldCount
        flags := if truncated then 1 else 0 }
    let storage := writeObject b.slot.storage 0 header.words
    let ownedPayloadBytes := w.sourcePayloadBytes + messageSize + w.fieldPayloadBytes
    let metadataBytes := serializedRecordMetadataBytes + w.fieldCount * serializedFieldMetadataBytes
    let serializedBytes := ownedPayloadBytes + metadataBytes
    let charge := p.accountingCharge serializedBytes
    let writer : Writer := { w with attached := false, messageSize := messageSize }
    if w.accountingChargeLimitBytes < charge then
      ({ slot := { storage := storage, state := .reset }, writer := writer }, none)
    else
      ({ slot := { storage := storage, state := .published }, writer := writer },
        some
          { storage := .ofStorage storage
            footprint :=
              { requestedMessageBytes := w.requestedMessageBytes
                storedMessageBytes := messageSize
                ownedPayloadBytes := ownedPayloadBytes
                metadataBytes := metadataBytes
                fragmentationBytes := charge - serializedBytes
                accountingChargeBytes := charge
                minimumAccountingChargeBytes := p.minimumAccountingChargeBytes
                truncated := truncated } })

end Build

/-! ## Writer calls -/

/-- One call on a writer; formatted output arrives byte by byte through `FormatOutput`. -/
inductive WriterCall where
  | append (value : AppendValue)
  | formatOutput (text : Bytes)
  | addField (key : Bytes) (value : FieldValue)
  deriving DecidableEq, Repr

/-- What a call returns. -/
inductive CallResult where
  | append (result : WriteResult)
  | formatOutput
  | addField (stored : Bool)
  deriving DecidableEq, Repr

namespace Build

variable (conv : Charconv)

def append (b : Build p) (value : AppendValue) : Build p × WriteResult :=
  match value.bytes conv with
  | some bytes => b.appendBytes bytes
  | none => (b, { truncated := true })

/-- `AppendFormatByte` for every byte of a formatted text. -/
def formatOutput (b : Build p) (text : Bytes) : Build p :=
  text.foldl (fun b byte ↦ (b.appendBytes [byte]).1) b

def call (b : Build p) : WriterCall → Build p × CallResult
  | .append value => ((b.append conv value).1, .append (b.append conv value).2)
  | .formatOutput text => (b.formatOutput text, .formatOutput)
  | .addField key value => ((b.addField key value).1, .addField (b.addField key value).2)

/-- A sequence of calls with what each of them returns. -/
def run (b : Build p) : List WriterCall → Build p × List CallResult
  | [] => (b, [])
  | c :: cs =>
    let next := b.call conv c
    let rest := next.1.run cs
    (rest.1, next.2 :: rest.2)

end Build

end Ulog.Prototype
