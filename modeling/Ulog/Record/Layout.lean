import Ulog.Foundation.ByteMemory

/-!
# The serialized Record layout

The constants and the two structures a Record slot stores in its byte array: one header at
address `0` and one metadata block per field. Both are trivially copyable structures that the
source moves in and out of the array with `memcpy`, so each is given by its words in declaration
order; `SerializedRecordHeader.read_write` and `SerializedField.read_write` say that the two
copies undo each other as long as every word fits its width.

`uint32_t` members are natural numbers here, and a `static_cast` to them is the reduction that
storing four bytes performs.
-/

namespace Ulog

open ByteMemory

/-- A run of bytes: a `std::string_view` or a `std::span<const std::byte>`. -/
abbrev Bytes := List UInt8

/-- One past the largest `std::size_t` or `std::uint64_t`. -/
def wordModulus : ℕ := 2 ^ 64

/-- `std::numeric_limits<std::uint32_t>::max()`. -/
def uint32Max : ℕ := 2 ^ 32 - 1

def accountingQuantumBytes : ℕ := 64

def maximumRecordBytes : ℕ := 16384

def maximumProducerSlots : ℕ := 32

def maximumIngressCells : ℕ := 64

def serializedRecordMetadataBytes : ℕ := 56

def serializedFieldMetadataBytes : ℕ := 24

/-- The key `ulog.truncated`. -/
def truncatedFieldKey : Bytes :=
  [0x75, 0x6c, 0x6f, 0x67, 0x2e, 0x74, 0x72, 0x75, 0x6e, 0x63, 0x61, 0x74, 0x65, 0x64]

/-- The physical charge of a Record: at least one quantum, rounded up to whole quanta, and `0`
when the rounding would overflow. -/
def accountingCharge (serializedBytes : ℕ) : ℕ :=
  let atLeastOneQuantum := max serializedBytes accountingQuantumBytes
  if wordModulus - 1 - (accountingQuantumBytes - 1) < atLeastOneQuantum then 0
  else (atLeastOneQuantum + (accountingQuantumBytes - 1)) / accountingQuantumBytes
    * accountingQuantumBytes

/-! ## Levels, sources and field values -/

inductive Level where
  | trace
  | debug
  | info
  | warning
  | error
  | critical
  | none
  deriving DecidableEq, Repr

namespace Level

/-- The underlying `std::uint8_t`. -/
def toByte : Level → UInt8
  | trace => 0
  | debug => 1
  | info => 2
  | warning => 3
  | error => 4
  | critical => 5
  | none => 6

/-- The enumerator stored as `b`, if there is one. -/
def ofByte (b : UInt8) : Option Level :=
  if b = 0 then some trace
  else if b = 1 then some debug
  else if b = 2 then some info
  else if b = 3 then some warning
  else if b = 4 then some error
  else if b = 5 then some critical
  else if b = 6 then some none
  else Option.none

@[simp] theorem ofByte_toByte (l : Level) : ofByte l.toByte = some l := by cases l <;> rfl

end Level

structure SourceLocation where
  fileName : Bytes
  functionName : Bytes
  line : ℕ
  column : ℕ
  deriving DecidableEq, Repr

inductive FieldKind where
  | string
  | int64
  | uint64
  | double
  | bool
  | null
  deriving DecidableEq, Repr

namespace FieldKind

def toByte : FieldKind → UInt8
  | string => 0
  | int64 => 1
  | uint64 => 2
  | double => 3
  | bool => 4
  | null => 5

/-- The enumerator stored as `b`, if there is one. -/
def ofByte (b : UInt8) : Option FieldKind :=
  if b = 0 then some string
  else if b = 1 then some int64
  else if b = 2 then some uint64
  else if b = 3 then some double
  else if b = 4 then some bool
  else if b = 5 then some null
  else none

@[simp] theorem ofByte_toByte (k : FieldKind) : ofByte k.toByte = some k := by cases k <;> rfl

end FieldKind

/-- The value of a field, as a caller passes it to `AddField`. A double is its bit pattern. -/
inductive FieldValue where
  | string (value : Bytes)
  | int64 (value : Int64)
  | uint64 (value : UInt64)
  | double (bits : UInt64)
  | bool (value : Bool)
  | null
  deriving DecidableEq, Repr

def FieldValue.kind : FieldValue → FieldKind
  | .string _ => .string
  | .int64 _ => .int64
  | .uint64 _ => .uint64
  | .double _ => .double
  | .bool _ => .bool
  | .null => .null

/-! ## The Record header -/

structure SerializedRecordHeader where
  eventTimestamp : Int64 := 0
  sourcePathOffset : ℕ := 0
  sourcePathSize : ℕ := 0
  sourceFunctionOffset : ℕ := 0
  sourceFunctionSize : ℕ := 0
  messageOffset : ℕ := 0
  messageSize : ℕ := 0
  sourceLine : ℕ := 0
  sourceColumn : ℕ := 0
  firstFieldOffset : ℕ := 0
  fieldCount : ℕ := 0
  flags : ℕ := 0
  level : UInt8 := 0
  reserved : ℕ := 0

namespace SerializedRecordHeader

def widths : List ℕ := [8, 4, 4, 4, 4, 4, 4, 4, 4, 4, 4, 4, 1, 3]

def words (h : SerializedRecordHeader) : List (ℕ × ℕ) :=
  [(8, h.eventTimestamp.toUInt64.toNat), (4, h.sourcePathOffset), (4, h.sourcePathSize),
    (4, h.sourceFunctionOffset), (4, h.sourceFunctionSize), (4, h.messageOffset),
    (4, h.messageSize), (4, h.sourceLine), (4, h.sourceColumn), (4, h.firstFieldOffset),
    (4, h.fieldCount), (4, h.flags), (1, h.level.toNat), (3, h.reserved)]

def ofWords (ws : List ℕ) : SerializedRecordHeader where
  eventTimestamp := (UInt64.ofNat (ws.getD 0 0)).toInt64
  sourcePathOffset := ws.getD 1 0
  sourcePathSize := ws.getD 2 0
  sourceFunctionOffset := ws.getD 3 0
  sourceFunctionSize := ws.getD 4 0
  messageOffset := ws.getD 5 0
  messageSize := ws.getD 6 0
  sourceLine := ws.getD 7 0
  sourceColumn := ws.getD 8 0
  firstFieldOffset := ws.getD 9 0
  fieldCount := ws.getD 10 0
  flags := ws.getD 11 0
  level := UInt8.ofNat (ws.getD 12 0)
  reserved := ws.getD 13 0

/-- Every member fits the width it is stored in. -/
structure Fits (h : SerializedRecordHeader) : Prop where
  sourcePathOffset : h.sourcePathOffset < 2 ^ 32
  sourcePathSize : h.sourcePathSize < 2 ^ 32
  sourceFunctionOffset : h.sourceFunctionOffset < 2 ^ 32
  sourceFunctionSize : h.sourceFunctionSize < 2 ^ 32
  messageOffset : h.messageOffset < 2 ^ 32
  messageSize : h.messageSize < 2 ^ 32
  sourceLine : h.sourceLine < 2 ^ 32
  sourceColumn : h.sourceColumn < 2 ^ 32
  firstFieldOffset : h.firstFieldOffset < 2 ^ 32
  fieldCount : h.fieldCount < 2 ^ 32
  flags : h.flags < 2 ^ 32
  reserved : h.reserved < 2 ^ 24

/-- `WriteObject<SerializedRecordHeader>`. -/
def write (h : SerializedRecordHeader) (m : Mem) (off : ℕ) : Mem :=
  ByteMemory.write m off (packWords h.words)

/-- `ReadObject<SerializedRecordHeader>`. -/
def read (m : Mem) (off : ℕ) : SerializedRecordHeader := ofWords (readWords m off widths)

@[simp] theorem length_pack (h : SerializedRecordHeader) :
    (packWords h.words).length = serializedRecordMetadataBytes := by
  simp [words, serializedRecordMetadataBytes]

theorem read_write {h : SerializedRecordHeader} (hf : h.Fits) (m : Mem) (off : ℕ) :
    read (h.write m off) off = h := by
  have hwords := readWords_write_packWords m off h.words
  have htime : h.eventTimestamp.toUInt64.toNat % 256 ^ 8 = h.eventTimestamp.toUInt64.toNat :=
    Nat.mod_eq_of_lt h.eventTimestamp.toUInt64.toNat_lt
  have hlevel : h.level.toNat % 256 ^ 1 = h.level.toNat := Nat.mod_eq_of_lt h.level.toNat_lt
  have h4 : ∀ {n : ℕ}, n < 2 ^ 32 → n % 256 ^ 4 = n := fun hn ↦ Nat.mod_eq_of_lt hn
  have h3 : h.reserved % 256 ^ 3 = h.reserved := Nat.mod_eq_of_lt hf.reserved
  rw [read, write, show widths = h.words.map Prod.fst from rfl, hwords]
  simp only [words, List.map_cons, List.map_nil, htime, hlevel, h3, h4 hf.sourcePathOffset,
    h4 hf.sourcePathSize, h4 hf.sourceFunctionOffset, h4 hf.sourceFunctionSize,
    h4 hf.messageOffset, h4 hf.messageSize, h4 hf.sourceLine, h4 hf.sourceColumn,
    h4 hf.firstFieldOffset, h4 hf.fieldCount, h4 hf.flags]
  simp [ofWords]

theorem read_of_disjoint {m : Mem} {off off' : ℕ} {bs : Bytes}
    (h : off' + serializedRecordMetadataBytes ≤ off ∨ off + bs.length ≤ off') :
    read (ByteMemory.write m off bs) off' = read m off' := by
  rw [read, read, readWords_write_of_disjoint]
  simpa [widths, serializedRecordMetadataBytes] using h

end SerializedRecordHeader

/-! ## Field metadata -/

structure SerializedField where
  nextOffset : ℕ := 0
  keyOffset : ℕ := 0
  keySize : ℕ := 0
  valueLow : ℕ := 0
  valueHigh : ℕ := 0
  kind : UInt8 := 0
  flags : UInt8 := 0
  reserved : ℕ := 0

namespace SerializedField

def widths : List ℕ := [4, 4, 4, 4, 4, 1, 1, 2]

def words (f : SerializedField) : List (ℕ × ℕ) :=
  [(4, f.nextOffset), (4, f.keyOffset), (4, f.keySize), (4, f.valueLow), (4, f.valueHigh),
    (1, f.kind.toNat), (1, f.flags.toNat), (2, f.reserved)]

def ofWords (ws : List ℕ) : SerializedField where
  nextOffset := ws.getD 0 0
  keyOffset := ws.getD 1 0
  keySize := ws.getD 2 0
  valueLow := ws.getD 3 0
  valueHigh := ws.getD 4 0
  kind := UInt8.ofNat (ws.getD 5 0)
  flags := UInt8.ofNat (ws.getD 6 0)
  reserved := ws.getD 7 0

/-- Every member fits the width it is stored in. -/
structure Fits (f : SerializedField) : Prop where
  nextOffset : f.nextOffset < 2 ^ 32
  keyOffset : f.keyOffset < 2 ^ 32
  keySize : f.keySize < 2 ^ 32
  valueLow : f.valueLow < 2 ^ 32
  valueHigh : f.valueHigh < 2 ^ 32
  reserved : f.reserved < 2 ^ 16

/-- `WriteObject<SerializedField>`. -/
def write (f : SerializedField) (m : Mem) (off : ℕ) : Mem :=
  ByteMemory.write m off (packWords f.words)

/-- `ReadObject<SerializedField>`. -/
def read (m : Mem) (off : ℕ) : SerializedField := ofWords (readWords m off widths)

@[simp] theorem length_pack (f : SerializedField) :
    (packWords f.words).length = serializedFieldMetadataBytes := by
  simp [words, serializedFieldMetadataBytes]

theorem read_write {f : SerializedField} (hf : f.Fits) (m : Mem) (off : ℕ) :
    read (f.write m off) off = f := by
  have hwords := readWords_write_packWords m off f.words
  have hkind : f.kind.toNat % 256 ^ 1 = f.kind.toNat := Nat.mod_eq_of_lt f.kind.toNat_lt
  have hflags : f.flags.toNat % 256 ^ 1 = f.flags.toNat := Nat.mod_eq_of_lt f.flags.toNat_lt
  have h4 : ∀ {n : ℕ}, n < 2 ^ 32 → n % 256 ^ 4 = n := fun hn ↦ Nat.mod_eq_of_lt hn
  have h2 : f.reserved % 256 ^ 2 = f.reserved := Nat.mod_eq_of_lt hf.reserved
  rw [read, write, show widths = f.words.map Prod.fst from rfl, hwords]
  simp only [words, List.map_cons, List.map_nil, hkind, hflags, h2, h4 hf.nextOffset,
    h4 hf.keyOffset, h4 hf.keySize, h4 hf.valueLow, h4 hf.valueHigh]
  simp [ofWords]

end SerializedField

end Ulog
