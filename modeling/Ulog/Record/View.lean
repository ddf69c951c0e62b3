import Ulog.Record.Writer

/-!
# Reading a published Record

`RecordView`, `FieldCursor` and `FieldView` read the byte array of a published slot. Nothing is
cached: each accessor decodes the header or a metadata block again, and the fields are found by
following `next_offset` from the header's first field.

A view is only ever built over the storage of a published slot, so the null-storage answers of
the source's accessors do not arise.
-/

namespace Ulog

open ByteMemory

/-- `record::Text`. -/
def text (storage : Mem) (offset size : ℕ) : Bytes := read storage offset size

structure FieldView where
  storage : Mem
  offset : ℕ

namespace FieldView

def field (v : FieldView) : SerializedField := SerializedField.read v.storage v.offset

def key (v : FieldView) : Bytes := text v.storage v.field.keyOffset v.field.keySize

def kind (v : FieldView) : Option FieldKind := FieldKind.ofByte v.field.kind

/-- The two value words as one 64-bit pattern. -/
def bits (v : FieldView) : UInt64 :=
  UInt64.ofNat (v.field.valueLow ||| v.field.valueHigh <<< 32)

def asString (v : FieldView) : Option Bytes :=
  if v.kind = some .string then some (text v.storage v.field.valueLow v.field.valueHigh) else none

def asInt64 (v : FieldView) : Option Int64 :=
  if v.kind = some .int64 then some v.bits.toInt64 else none

def asUInt64 (v : FieldView) : Option UInt64 :=
  if v.kind = some .uint64 then some v.bits else none

def asDouble (v : FieldView) : Option UInt64 :=
  if v.kind = some .double then some v.bits else none

def asBool (v : FieldView) : Option Bool :=
  if v.kind = some .bool then some (v.field.flags != 0) else none

def isNull (v : FieldView) : Bool := v.kind = some .null

/-- The value behind a field, read through the accessor of its kind. -/
def value (v : FieldView) : Option FieldValue :=
  match v.kind with
  | some .string => v.asString.map .string
  | some .int64 => v.asInt64.map .int64
  | some .uint64 => v.asUInt64.map .uint64
  | some .double => v.asDouble.map .double
  | some .bool => v.asBool.map .bool
  | some .null => if v.isNull then some .null else none
  | none => none

end FieldView

structure FieldCursor where
  storage : Mem
  offset : ℕ
  remaining : ℕ

namespace FieldCursor

/-- `FieldCursor::Next`: the view at the cursor and the advanced cursor. -/
def next (c : FieldCursor) : Option FieldView × FieldCursor :=
  if c.remaining = 0 ∨ c.offset = 0 then (none, { c with remaining := 0 })
  else
    (some ⟨c.storage, c.offset⟩,
      { c with
        offset := (SerializedField.read c.storage c.offset).nextOffset
        remaining := c.remaining - 1 })

/-- The cursor after `n` calls of `Next`. -/
def skip (c : FieldCursor) : ℕ → FieldCursor
  | 0 => c
  | n + 1 => c.next.2.skip n

end FieldCursor

structure RecordView where
  storage : Mem
  serializedBytes : ℕ
  accountingChargeBytes : ℕ

namespace RecordView

def header (v : RecordView) : SerializedRecordHeader := SerializedRecordHeader.read v.storage 0

def level (v : RecordView) : Option Level := Level.ofByte v.header.level

def eventTimestamp (v : RecordView) : Int64 := v.header.eventTimestamp

def sourcePath (v : RecordView) : Bytes :=
  text v.storage v.header.sourcePathOffset v.header.sourcePathSize

def sourceFunction (v : RecordView) : Bytes :=
  text v.storage v.header.sourceFunctionOffset v.header.sourceFunctionSize

def sourceLine (v : RecordView) : ℕ := v.header.sourceLine

def sourceColumn (v : RecordView) : ℕ := v.header.sourceColumn

def message (v : RecordView) : Bytes := text v.storage v.header.messageOffset v.header.messageSize

def truncated (v : RecordView) : Bool := v.header.flags &&& 1 != 0

def fieldCount (v : RecordView) : ℕ := v.header.fieldCount

def fields (v : RecordView) : FieldCursor :=
  { storage := v.storage, offset := v.header.firstFieldOffset, remaining := v.header.fieldCount }

/-- `RecordView::FieldAt`. -/
def fieldAt (v : RecordView) (index : ℕ) : Option FieldView :=
  if v.fieldCount ≤ index then none else (v.fields.skip index).next.1

end RecordView

end Ulog
