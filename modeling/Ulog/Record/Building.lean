import Ulog.Record.View

/-!
# What a slot holds while a Record is built

The writer keeps four kinds of bytes in one array: the header, the source text, the message
growing upwards and the field blocks growing downwards. The invariant `Building` says where each
of them is; every writer operation moves it from one message and field list to the next.

## The field chain

The blocks lie next to each other below the serialized limit, the first field on top. `FieldChain`
describes them from the top, with the `next_offset` of the last block as a parameter: it is `0`
until a further field is linked, and linking changes exactly that parameter.
-/

namespace Ulog

open ByteMemory

variable {e : FieldEntry} {m : Mem} {off next : ℕ} {m' : Mem} {hi : ℕ}

/-- The bytes of a value that are stored behind its key; scalars live in the metadata words. -/
def FieldValue.payload : FieldValue → Bytes
  | .string value => value
  | _ => []

/-- The 64-bit pattern of a scalar value. -/
def FieldValue.scalarBits : FieldValue → ℕ
  | .int64 value => value.toUInt64.toNat
  | .uint64 value => value.toNat
  | .double bits => bits.toNat
  | _ => 0

def FieldValue.boolValue : FieldValue → Bool
  | .bool value => value
  | _ => false

theorem FieldValue.scalarBits_lt (v : FieldValue) : v.scalarBits < 2 ^ 64 := by
  cases v with
  | int64 value => exact value.toUInt64.toNat_lt
  | uint64 value => exact value.toNat_lt
  | double bits => exact bits.toNat_lt
  | _ => exact Nat.two_pow_pos 64

/-- One field as the caller gave it. -/
abbrev FieldEntry := Bytes × FieldValue

namespace FieldEntry

/-- The bytes a field takes: metadata, key and stored value. -/
def size (e : FieldEntry) : ℕ := serializedFieldMetadataBytes + e.1.length + e.2.payload.length

theorem size_eq (e : FieldEntry) :
    e.size = serializedFieldMetadataBytes + e.1.length + e.2.payload.length := rfl

/-- The metadata block of a field at `off` linked to `next`. -/
def metadata (e : FieldEntry) (off next : ℕ) : SerializedField where
  nextOffset := next
  keyOffset := off + serializedFieldMetadataBytes
  keySize := e.1.length
  valueLow := if e.2.payload.isEmpty then e.2.scalarBits % 2 ^ 32
    else off + serializedFieldMetadataBytes + e.1.length
  valueHigh := if e.2.payload.isEmpty then e.2.scalarBits / 2 ^ 32 % 2 ^ 32 else e.2.payload.length
  kind := e.2.kind.toByte
  flags := if e.2.boolValue then 1 else 0

theorem addField_eq (b : RecordBuild) (e : FieldEntry) :
    b.addField e.1 e.2
      = b.addFieldBytes e.1 e.2.kind e.2.payload e.2.scalarBits e.2.boolValue := by
  obtain ⟨key, value⟩ := e
  cases value <;> rfl

theorem metadata_fits (hend : off + e.size < 2 ^ 32) (hnext : next < 2 ^ 32) :
    (e.metadata off next).Fits := by
  rw [size] at hend
  have hlow : e.2.scalarBits % 2 ^ 32 < 2 ^ 32 := Nat.mod_lt _ (by decide)
  have hhigh : e.2.scalarBits / 2 ^ 32 % 2 ^ 32 < 2 ^ 32 := Nat.mod_lt _ (by decide)
  refine ⟨hnext, show off + serializedFieldMetadataBytes < 2 ^ 32 by omega,
    show e.1.length < 2 ^ 32 by omega, ?_, ?_, show 0 < 2 ^ 16 by decide⟩
  · simp only [metadata]
    split <;> omega
  · simp only [metadata]
    split <;> omega

end FieldEntry

/-! ## Field blocks in memory -/

/-- The block of field `e` is stored at `off`, linked to `next`. -/
structure FieldStored (m : Mem) (off next : ℕ) (e : FieldEntry) : Prop where
  metadata : SerializedField.read m off = e.metadata off next
  key : read m (off + serializedFieldMetadataBytes) e.1.length = e.1
  payload : read m (off + serializedFieldMetadataBytes + e.1.length) e.2.payload.length
    = e.2.payload

theorem FieldStored.congr (h : FieldStored m off next e)
    (heq : ∀ i, off ≤ i → i < off + e.size → m' i = m i) : FieldStored m' off next e := by
  rw [FieldEntry.size] at heq
  have h24 : serializedFieldMetadataBytes = 24 := rfl
  refine ⟨?_, ?_, ?_⟩
  · rw [← h.metadata, SerializedField.read, SerializedField.read,
      readWords_congr fun i hi hi' ↦ heq i hi (by
        rw [show SerializedField.widths.sum = 24 from rfl] at hi'
        omega)]
  · rw [read_congr fun i hi hi' ↦ heq i (by omega) (by omega), h.key]
  · rw [read_congr fun i hi hi' ↦ heq i (by omega) (by omega), h.payload]

/-- The bytes taken by a list of fields. -/
def fieldBytes (es : List FieldEntry) : ℕ := (es.map FieldEntry.size).sum

@[simp] theorem fieldBytes_nil : fieldBytes [] = 0 := rfl

@[simp] theorem fieldBytes_cons (e : FieldEntry) (es : List FieldEntry) :
    fieldBytes (e :: es) = e.size + fieldBytes es := rfl

@[simp] theorem fieldBytes_append (es es' : List FieldEntry) :
    fieldBytes (es ++ es') = fieldBytes es + fieldBytes es' := by
  simp [fieldBytes]

theorem length_le_fieldBytes (es : List FieldEntry) : es.length ≤ fieldBytes es := by
  induction es with
  | nil => exact le_rfl
  | cons e es ih =>
    have h24 : serializedFieldMetadataBytes = 24 := rfl
    rw [fieldBytes_cons, List.length_cons, FieldEntry.size]
    omega

/-- Where the first of the fields below `hi` starts, and `last` when there is none. -/
def chainHead (hi last : ℕ) : List FieldEntry → ℕ
  | [] => last
  | e :: _ => hi - e.size

/-- The fields `es` lie in order below `hi`, each linked to the next and the last to `last`. -/
def FieldChain (m : Mem) (last : ℕ) : ℕ → List FieldEntry → Prop
  | _, [] => True
  | hi, e :: es =>
    FieldStored m (hi - e.size) (chainHead (hi - e.size) last es) e ∧
      FieldChain m last (hi - e.size) es

theorem FieldChain.congr {last : ℕ} {es : List FieldEntry} (h : FieldChain m last hi es)
    (hfit : fieldBytes es ≤ hi) (heq : ∀ i, hi - fieldBytes es ≤ i → i < hi → m' i = m i) :
    FieldChain m' last hi es := by
  induction es generalizing hi with
  | nil => trivial
  | cons e es ih =>
    rw [fieldBytes_cons] at hfit heq
    refine ⟨h.1.congr fun i hi' hi'' ↦ heq i (by omega) (by omega), ?_⟩
    exact ih h.2 (by omega) fun i hi' hi'' ↦ heq i (by omega) (by omega)

theorem chainHead_append (hi last : ℕ) (es : List FieldEntry) (e : FieldEntry) :
    chainHead hi last (es ++ [e]) = chainHead hi (hi - fieldBytes es - e.size) es := by
  cases es with
  | nil => simp [chainHead]
  | cons e' es => rfl

/-- A further field hangs below the chain, whose last link then points at it. -/
theorem fieldChain_append {last : ℕ} {es : List FieldEntry} :
    FieldChain m last hi (es ++ [e]) ↔
      FieldChain m (hi - fieldBytes es - e.size) hi es ∧
        FieldStored m (hi - fieldBytes es - e.size) last e := by
  induction es generalizing hi with
  | nil => simp [FieldChain, chainHead]
  | cons e' es ih =>
    rw [List.cons_append, FieldChain, FieldChain, ih, chainHead_append, fieldBytes_cons,
      Nat.sub_sub hi, and_assoc]

/-! ## Storing and linking a further field -/

/-- The three block writes of `AddFieldBytes`: key, value and unlinked metadata. -/
def storeField (m : Mem) (off : ℕ) (e : FieldEntry) : Mem :=
  (e.metadata off 0).write
    (write (write m (off + serializedFieldMetadataBytes) e.1)
      (off + serializedFieldMetadataBytes + e.1.length) e.2.payload) off

/-- Redirect the `next_offset` of the block at `off`. -/
def linkField (m : Mem) (off next : ℕ) : Mem :=
  { SerializedField.read m off with nextOffset := next }.write m off

theorem storeField_apply_of_outside {i : ℕ} (h : i < off ∨ off + e.size ≤ i) :
    storeField m off e i = m i := by
  have hpack := SerializedField.length_pack (e.metadata off 0)
  rw [FieldEntry.size] at h
  rw [storeField, SerializedField.write, write_apply_of_outside (by omega),
    write_apply_of_outside (by omega), write_apply_of_outside (by omega)]

theorem linkField_apply_of_outside {i : ℕ} (h : i < off ∨ off + serializedFieldMetadataBytes ≤ i) :
    linkField m off next i = m i := by
  rw [linkField, SerializedField.write, write_apply_of_outside]
  rw [SerializedField.length_pack]
  exact h

theorem fieldStored_storeField (hend : off + e.size < 2 ^ 32) :
    FieldStored (storeField m off e) off 0 e := by
  have hfits : (e.metadata off 0).Fits := FieldEntry.metadata_fits hend (by decide)
  have hpack := SerializedField.length_pack (e.metadata off 0)
  rw [storeField]
  refine ⟨SerializedField.read_write hfits _ _, ?_, ?_⟩
  · rw [SerializedField.write, read_write_of_disjoint (Or.inr (by omega)),
      read_write_of_disjoint (Or.inl (by omega)), read_write_same]
  · rw [SerializedField.write, read_write_of_disjoint (Or.inr (by omega)), read_write_same]

theorem fieldStored_linkField {next' : ℕ} (h : FieldStored m off next e)
    (hend : off + e.size < 2 ^ 32) (hnext : next' < 2 ^ 32) :
    FieldStored (linkField m off next') off next' e := by
  have hfits : (e.metadata off next').Fits := FieldEntry.metadata_fits hend hnext
  have hmeta : { SerializedField.read m off with nextOffset := next' } = e.metadata off next' := by
    rw [h.metadata]
    rfl
  have hpack := SerializedField.length_pack (e.metadata off next')
  rw [linkField, hmeta]
  refine ⟨SerializedField.read_write hfits _ _, ?_, ?_⟩
  · rw [SerializedField.write, read_write_of_disjoint (Or.inr (by omega)), h.key]
  · rw [SerializedField.write, read_write_of_disjoint (Or.inr (by omega)), h.payload]

theorem FieldEntry.metadataBytes_le_size (e : FieldEntry) :
    serializedFieldMetadataBytes ≤ e.size := by
  rw [size]
  omega

theorem fieldChain_linkField {es : List FieldEntry} (h : FieldChain m 0 hi es) (hne : es ≠ [])
    (hfit : fieldBytes es ≤ hi) (hhi : hi < 2 ^ 32) (hnext : next < 2 ^ 32) :
    FieldChain (linkField m (hi - fieldBytes es) next) next hi es := by
  obtain ⟨front, e, rfl⟩ : ∃ front e, es = front ++ [e] :=
    ⟨es.dropLast, es.getLast hne, (List.dropLast_append_getLast hne).symm⟩
  rw [fieldBytes_append, fieldBytes_cons, fieldBytes_nil, Nat.add_zero] at hfit ⊢
  rw [← Nat.sub_sub]
  obtain ⟨hfront, hlast⟩ := fieldChain_append.mp h
  have hsize := e.metadataBytes_le_size
  refine fieldChain_append.mpr ⟨?_, fieldStored_linkField hlast (by omega) hnext⟩
  exact hfront.congr (by omega) fun i hi' _ ↦ linkField_apply_of_outside (Or.inr (by omega))

/-- A field stored just below a chain and linked from its last block, if there is one, extends the
chain and leaves everything below alone. -/
theorem fieldChain_addField {last : ℕ} {es : List FieldEntry} (e : FieldEntry) (off : ℕ)
    (h : FieldChain m 0 hi es) (hhi : hi < 2 ^ 32) (hoff : off + e.size + fieldBytes es = hi)
    (hlast : last = if es = [] then 0 else off + e.size) :
    FieldChain (if last = 0 then storeField m off e else linkField (storeField m off e) last off) 0
        hi (es ++ [e]) ∧
      ∀ i < off, (if last = 0 then storeField m off e
        else linkField (storeField m off e) last off) i = m i := by
  have h24 : serializedFieldMetadataBytes = 24 := rfl
  have hsize := e.metadataBytes_le_size
  have hnew : FieldStored (storeField m off e) off 0 e := fieldStored_storeField (by omega)
  have hoff' : hi - fieldBytes es - e.size = off := by omega
  have hlow : ∀ i < off, storeField m off e i = m i :=
    fun i hi' ↦ storeField_apply_of_outside (Or.inl hi')
  by_cases hne : es = []
  · subst hne
    rw [if_pos rfl] at hlast
    rw [if_pos hlast]
    exact ⟨fieldChain_append.mpr ⟨trivial, hoff'.symm ▸ hnew⟩, hlow⟩
  · rw [if_neg hne] at hlast
    have htail : hi - fieldBytes es = last := by omega
    rw [if_neg (by omega)]
    have hchain : FieldChain (storeField m off e) 0 hi es :=
      h.congr (by omega) fun i _ _ ↦ storeField_apply_of_outside (Or.inr (by omega))
    have hlink := fieldChain_linkField hchain hne (by omega) hhi (show off < 2 ^ 32 by omega)
    rw [htail] at hlink
    -- the link touches only the metadata of the block on top of the new one
    have hframe : ∀ i < last, linkField (storeField m off e) last off i = storeField m off e i :=
      fun i hi' ↦ linkField_apply_of_outside (Or.inl hi')
    refine ⟨fieldChain_append.mpr ⟨hoff'.symm ▸ hlink, hoff'.symm ▸ ?_⟩, fun i hi' ↦ ?_⟩
    · exact hnew.congr fun i _ hi' ↦ hframe i (by omega)
    · rw [hframe i (by omega), hlow i hi']

/-! ## The building invariant -/

/-- Where the message starts: behind the header and the source text. -/
def messageStart (source : SourceLocation) : ℕ :=
  serializedRecordMetadataBytes + source.fileName.length + source.functionName.length

/-- The header as `Begin` writes it. -/
def initialHeader (level : Level) (source : SourceLocation) (timestamp : Int64) :
    SerializedRecordHeader where
  eventTimestamp := timestamp
  sourcePathOffset := serializedRecordMetadataBytes
  sourcePathSize := source.fileName.length
  sourceFunctionOffset := serializedRecordMetadataBytes + source.fileName.length
  sourceFunctionSize := source.functionName.length
  messageOffset := messageStart source
  sourceLine := source.line
  sourceColumn := source.column
  level := level.toByte

/-- The four parts of a Record in memory: the header `h`, the source text, the message `msg` and
the fields `es` below `limit`. -/
structure StoredParts (limit : ℕ) (source : SourceLocation) (m : Mem)
    (h : SerializedRecordHeader) (msg : Bytes) (es : List FieldEntry) : Prop where
  header : SerializedRecordHeader.read m 0 = h
  path : read m serializedRecordMetadataBytes source.fileName.length = source.fileName
  function : read m (serializedRecordMetadataBytes + source.fileName.length)
    source.functionName.length = source.functionName
  message : read m (messageStart source) msg.length = msg
  chain : FieldChain m 0 limit es

/-- The parts other than the header survive any change outside their bytes. -/
theorem StoredParts.congr {limit : ℕ} {source : SourceLocation} {h h' : SerializedRecordHeader}
    {msg : Bytes} {es : List FieldEntry} (hs : StoredParts limit source m h msg es)
    (hfit : fieldBytes es ≤ limit) (hheader : SerializedRecordHeader.read m' 0 = h')
    (hlow : ∀ i, serializedRecordMetadataBytes ≤ i → i < messageStart source + msg.length →
      m' i = m i)
    (hhigh : ∀ i, limit - fieldBytes es ≤ i → i < limit → m' i = m i) :
    StoredParts limit source m' h' msg es := by
  rw [messageStart] at hlow
  refine ⟨hheader, ?_, ?_, ?_, hs.chain.congr hfit hhigh⟩
  · rw [read_congr fun i hi hi' ↦ hlow i (by omega) (by omega), hs.path]
  · rw [read_congr fun i hi hi' ↦ hlow i (by omega) (by omega), hs.function]
  · rw [read_congr fun i hi hi' ↦ ?_, hs.message]
    rw [messageStart] at hi hi'
    exact hlow i (by omega) (by omega)

theorem StoredParts.take {limit : ℕ} {source : SourceLocation} {h : SerializedRecordHeader}
    {msg : Bytes} {es : List FieldEntry} (hs : StoredParts limit source m h msg es) {n : ℕ}
    (hn : n ≤ msg.length) : read m (messageStart source) n = msg.take n := by
  have hsplit : read m (messageStart source) (n + (msg.length - n)) = msg := by
    rw [show n + (msg.length - n) = msg.length from by omega, hs.message]
  rw [read_add] at hsplit
  rw [← hsplit, List.take_left' (length_read _ _ _)]

/-- What the slot and the writer hold while a Record is built: the message so far is `msg` and the
fields so far are `es`. -/
structure Building (limit : ℕ) (level : Level) (source : SourceLocation) (timestamp : Int64)
    (b : RecordBuild) (msg : Bytes) (es : List FieldEntry) : Prop where
  attached : b.writer.attached = true
  state : b.slot.state = .building
  limit_le : limit ≤ maximumRecordBytes
  line_le : source.line ≤ uint32Max
  column_le : source.column ≤ uint32Max
  messageOffset : b.writer.messageOffset = messageStart source
  messageSize : b.writer.messageSize = msg.length
  frontEnd : b.writer.frontEnd = messageStart source + msg.length
  frontEnd_le : b.writer.frontEnd ≤ b.writer.fieldTail
  fieldTail : b.writer.fieldTail + fieldBytes es = limit
  fieldCount : b.writer.fieldCount = es.length
  firstFieldOffset : b.writer.firstFieldOffset = chainHead limit 0 es
  lastFieldOffset : b.writer.lastFieldOffset = if es = [] then 0 else b.writer.fieldTail
  parts : StoredParts limit source b.slot.storage (initialHeader level source timestamp) msg es

theorem initialHeader_fits {limit : ℕ} {level : Level} {source : SourceLocation}
    {timestamp : Int64} (hlimit : limit ≤ maximumRecordBytes) (hline : source.line ≤ uint32Max)
    (hcolumn : source.column ≤ uint32Max) (hstart : messageStart source ≤ limit) :
    (initialHeader level source timestamp).Fits := by
  have hmax : maximumRecordBytes = 16384 := rfl
  have h32 : uint32Max = 2 ^ 32 - 1 := rfl
  rw [messageStart] at hstart
  constructor <;> simp only [initialHeader, messageStart] <;> omega

theorem building_of_begin {slot : RecordSlot} {limit : ℕ} {level : Level}
    {source : SourceLocation} {timestamp : Int64} {b : RecordBuild}
    (h : slot.begin limit level source timestamp = some b) :
    Building limit level source timestamp b [] [] := by
  rw [RecordSlot.begin] at h
  split at h
  · cases h
  · next hok =>
    push Not at hok
    obtain ⟨hstate, hmin, hmax, hlevel, hpath, hfunction, hline, hcolumn, hpath', hfunction'⟩ := hok
    have hstart : messageStart source ≤ limit := by
      rw [messageStart]
      omega
    have h56 : serializedRecordMetadataBytes = 56 := rfl
    have hfits : (initialHeader level source timestamp).Fits :=
      initialHeader_fits hmax hline hcolumn hstart
    cases h
    refine ⟨rfl, rfl, hmax, hline, hcolumn, rfl, rfl, ?_, hstart, ?_, rfl, rfl, rfl, ?_⟩
    · rfl
    · rfl
    · refine ⟨?_, ?_, ?_, rfl, trivial⟩
      · rw [SerializedRecordHeader.read_of_disjoint (Or.inl (by omega)),
          SerializedRecordHeader.read_of_disjoint (Or.inl (by omega))]
        exact SerializedRecordHeader.read_write hfits _ _
      · rw [read_write_of_disjoint (Or.inl (by omega)), read_write_same]
      · rw [read_write_same]

namespace Building

variable {limit : ℕ} {level : Level} {source : SourceLocation} {timestamp : Int64}
variable {b : RecordBuild} {msg : Bytes} {es : List FieldEntry}

section

variable (h : Building limit level source timestamp b msg es)

include h

theorem fieldBytes_le : fieldBytes es ≤ limit := by
  have := h.fieldTail
  omega

/-- Bytes written between the message and the fields disturb neither. -/
theorem parts_write {bs : Bytes} (hlow : b.writer.frontEnd ≤ off)
    (hhigh : off + bs.length ≤ b.writer.fieldTail) :
    StoredParts limit source (write b.slot.storage off bs)
      (initialHeader level source timestamp) msg es := by
  have h56 : serializedRecordMetadataBytes = 56 := rfl
  have hfront := h.frontEnd
  have htail := h.fieldTail
  have hstart : serializedRecordMetadataBytes ≤ messageStart source := by
    rw [messageStart]
    omega
  refine h.parts.congr h.fieldBytes_le ?_ ?_ ?_
  · rw [SerializedRecordHeader.read_of_disjoint (Or.inl (by omega)), h.parts.header]
  · exact fun i _ hi ↦ write_apply_of_outside (Or.inl (by omega))
  · exact fun i hi _ ↦ write_apply_of_outside (Or.inr (by omega))

/-- `AppendBytes` extends the message by the bytes that fit. -/
theorem appendBytes (value : Bytes) :
    Building limit level source timestamp (b.appendBytes value).1
      (msg ++ value.take (b.writer.fieldTail - b.writer.frontEnd)) es := by
  have hfront := h.frontEnd
  have hle := h.frontEnd_le
  obtain ⟨n, hn⟩ : ∃ n, min value.length (b.writer.fieldTail - b.writer.frontEnd) = n := ⟨_, rfl⟩
  have htake : value.take (b.writer.fieldTail - b.writer.frontEnd) = value.take n := by
    rw [← hn, List.take_eq_take_min, Nat.min_comm]
  have hlen : (value.take n).length = n := by
    rw [List.length_take]
    omega
  have hparts : StoredParts limit source (write b.slot.storage b.writer.frontEnd (value.take n))
      (initialHeader level source timestamp) msg es := h.parts_write le_rfl (by omega)
  rw [htake, RecordBuild.appendBytes]
  simp only [h.attached, Bool.not_true, Bool.false_eq_true, if_false, hn]
  refine { h with
    attached := rfl, messageSize := ?_, frontEnd := ?_, frontEnd_le := ?_, parts := ?_ }
  · simp only [List.length_append, hlen, h.messageSize]
  · simp only [List.length_append, hlen, hfront]
    omega
  · show b.writer.frontEnd + n ≤ b.writer.fieldTail
    omega
  · refine { hparts with message := ?_ }
    show read (write b.slot.storage b.writer.frontEnd (value.take n)) (messageStart source)
      (msg ++ value.take n).length = msg ++ value.take n
    rw [List.length_append, read_add, hparts.message, ← hfront, read_write_same]

theorem cutMessage {n : ℕ} (hn : n ≤ msg.length) :
    Building limit level source timestamp (b.cutMessage n)
      (msg.take (validUtf8PrefixLength (msg.take n))) es := by
  have hread : read b.slot.storage b.writer.messageOffset n = msg.take n := by
    rw [h.messageOffset, h.parts.take hn]
  have hkept : validUtf8PrefixLength (msg.take n) ≤ msg.length := by
    have := validUtf8PrefixLength_le (msg.take n)
    rw [List.length_take] at this
    omega
  have hlen : (msg.take (validUtf8PrefixLength (msg.take n))).length
      = validUtf8PrefixLength (msg.take n) := by
    rw [List.length_take]
    omega
  have hfront := h.frontEnd
  have hle := h.frontEnd_le
  rw [RecordBuild.cutMessage, hread]
  refine { h with
    messageSize := hlen.symm, frontEnd := ?_, frontEnd_le := ?_, parts := ?_ }
  · rw [hlen, ← h.messageOffset]
  · show b.writer.messageOffset + validUtf8PrefixLength (msg.take n) ≤ b.writer.fieldTail
    rw [h.messageOffset]
    omega
  · refine { h.parts with message := ?_ }
    rw [hlen, h.parts.take hkept]

theorem parts_addField (hoff : off + e.size = b.writer.fieldTail)
    (hfront : b.writer.frontEnd ≤ off) :
    StoredParts limit source
      (if b.writer.lastFieldOffset = 0 then storeField b.slot.storage off e
        else linkField (storeField b.slot.storage off e) b.writer.lastFieldOffset off)
      (initialHeader level source timestamp) msg (es ++ [e]) := by
  have h56 : serializedRecordMetadataBytes = 56 := rfl
  have hmax : maximumRecordBytes = 16384 := rfl
  have hlimit := h.limit_le
  have hmsg := h.frontEnd
  have htail := h.fieldTail
  have hstart : serializedRecordMetadataBytes ≤ messageStart source := by
    rw [messageStart]
    omega
  obtain ⟨hchain, hframe⟩ := fieldChain_addField e off h.parts.chain (by omega) (by omega)
    (hoff ▸ h.lastFieldOffset)
  obtain ⟨m, hm⟩ : ∃ m, (if b.writer.lastFieldOffset = 0 then storeField b.slot.storage off e
    else linkField (storeField b.slot.storage off e) b.writer.lastFieldOffset off) = m := ⟨_, rfl⟩
  rw [hm] at hchain hframe ⊢
  have hheader : SerializedRecordHeader.read m 0 = initialHeader level source timestamp := by
    rw [← h.parts.header, SerializedRecordHeader.read, SerializedRecordHeader.read,
      readWords_congr fun i _ hi ↦ hframe i ?_]
    rw [show SerializedRecordHeader.widths.sum = 56 from rfl] at hi
    omega
  have hlow : StoredParts 0 source m (initialHeader level source timestamp) msg [] :=
    StoredParts.congr { h.parts with chain := trivial } le_rfl hheader
      (fun i _ hi ↦ hframe i (by omega)) (fun i _ hi ↦ absurd hi (by omega))
  exact { hlow with chain := hchain }

theorem addField_eq (hoff : off + e.size = b.writer.fieldTail) (hfront : b.writer.frontEnd ≤ off) :
    b.addField e.1 e.2 =
      ({ slot :=
          { b.slot with
            storage :=
              if b.writer.lastFieldOffset = 0 then storeField b.slot.storage off e
              else linkField (storeField b.slot.storage off e) b.writer.lastFieldOffset off }
         writer :=
          { b.writer with
            fieldTail := off
            firstFieldOffset :=
              if b.writer.lastFieldOffset = 0 then off else b.writer.firstFieldOffset
            lastFieldOffset := off
            fieldCount := b.writer.fieldCount + 1
            fieldPayloadBytes :=
              b.writer.fieldPayloadBytes + (e.1.length + e.2.payload.length) } }, true) := by
  have h24 : serializedFieldMetadataBytes = 24 := rfl
  have hmax : maximumRecordBytes = 16384 := rfl
  have h32 : uint32Max = 2 ^ 32 - 1 := rfl
  have h64 : wordModulus = 2 ^ 64 := rfl
  have hlimit := h.limit_le
  have htail := h.fieldTail
  have hcount := length_le_fieldBytes es
  have hsize := e.size_eq
  have hguard : ¬(!b.writer.attached ∨ b.writer.fieldCount = uint32Max ∨ uint32Max < e.1.length ∨
      uint32Max < e.2.payload.length ∨
      wordModulus - 1 - serializedFieldMetadataBytes < e.1.length ∨
      wordModulus - 1 - serializedFieldMetadataBytes - e.1.length < e.2.payload.length) := by
    rw [h.attached, h.fieldCount]
    push Not
    exact ⟨by decide, by omega, by omega, by omega, by omega, by omega⟩
  rw [FieldEntry.addField_eq, RecordBuild.addFieldBytes]
  simp only [hguard, if_false, ← hsize, show ¬(b.writer.fieldTail - b.writer.frontEnd < e.size)
    from by omega, show b.writer.fieldTail - e.size = off from by omega]
  rfl

theorem addField (hfit : e.size ≤ b.writer.fieldTail - b.writer.frontEnd) :
    (b.addField e.1 e.2).2 = true ∧
      Building limit level source timestamp (b.addField e.1 e.2).1 msg (es ++ [e]) := by
  have h56 : serializedRecordMetadataBytes = 56 := rfl
  have hle := h.frontEnd_le
  have htail := h.fieldTail
  have hpos : 0 < b.writer.frontEnd := by
    rw [h.frontEnd, messageStart]
    omega
  obtain ⟨off, hoff⟩ : ∃ off, b.writer.fieldTail - e.size = off := ⟨_, rfl⟩
  rw [h.addField_eq (show off + e.size = b.writer.fieldTail by omega) (by omega)]
  refine ⟨rfl, { h with
    frontEnd_le := ?_, fieldTail := ?_, fieldCount := ?_, firstFieldOffset := ?_
    lastFieldOffset := ?_, parts := h.parts_addField (by omega) (by omega) }⟩
  · show b.writer.frontEnd ≤ off
    omega
  · show off + fieldBytes (es ++ [e]) = limit
    rw [fieldBytes_append, fieldBytes_cons, fieldBytes_nil]
    omega
  · show b.writer.fieldCount + 1 = (es ++ [e]).length
    rw [List.length_append, h.fieldCount, List.length_singleton]
  · show (if b.writer.lastFieldOffset = 0 then off else b.writer.firstFieldOffset)
      = chainHead limit 0 (es ++ [e])
    rw [chainHead_append, h.lastFieldOffset, h.firstFieldOffset]
    cases es with
    | nil =>
      rw [if_pos rfl, if_pos rfl, chainHead, fieldBytes_nil]
      rw [fieldBytes_nil] at htail
      omega
    | cons e' es =>
      rw [if_neg (List.cons_ne_nil _ _), if_neg (by omega)]
      rfl
  · show off = if es ++ [e] = [] then 0 else off
    rw [if_neg (by simp)]

end

theorem addField_of_not_fits (hfit : b.writer.fieldTail - b.writer.frontEnd < e.size) :
    b.addField e.1 e.2 = (b, false) := by
  have hsize := e.size_eq
  rw [FieldEntry.addField_eq, RecordBuild.addFieldBytes]
  split
  · rfl
  · rw [if_pos (hsize ▸ hfit)]

end Building

/-! ## A sequence of builder calls -/

theorem saturatingAdd_min (a n : ℕ) :
    saturatingAdd (min a (wordModulus - 1)) n = min (a + n) (wordModulus - 1) := by
  rw [saturatingAdd]
  split <;> omega

/-- The message against the bytes asked for so far: it is a prefix of them, and once a byte was
lost there is no room left, so nothing can be stored behind the gap. -/
structure Appending (asked : Bytes) (b : RecordBuild) (msg : Bytes) : Prop where
  rest : ∃ rest, asked = msg ++ rest ∧ (rest ≠ [] → b.writer.frontEnd = b.writer.fieldTail)
  requested : b.writer.requestedMessageBytes = min asked.length (wordModulus - 1)

section Calls

variable {limit : ℕ} {level : Level} {source : SourceLocation} {timestamp : Int64}
variable {b : RecordBuild} {msg asked : Bytes} {es : List FieldEntry}

theorem Appending.appendBytes (h : Building limit level source timestamp b msg es)
    (ha : Appending asked b msg) (value : Bytes) :
    Appending (asked ++ value) (b.appendBytes value).1
      (msg ++ value.take (b.writer.fieldTail - b.writer.frontEnd)) := by
  have hle := h.frontEnd_le
  have hwriter : (b.appendBytes value).1.writer =
      { b.writer with
        requestedMessageBytes := saturatingAdd b.writer.requestedMessageBytes value.length
        frontEnd := b.writer.frontEnd
          + min value.length (b.writer.fieldTail - b.writer.frontEnd)
        messageSize := b.writer.messageSize
          + min value.length (b.writer.fieldTail - b.writer.frontEnd) } := by
    simp [RecordBuild.appendBytes, h.attached]
  obtain ⟨rest, hrest, hfull⟩ := ha.rest
  refine ⟨?_, ?_⟩
  · rw [hwriter]
    by_cases hlost : rest = []
    · refine ⟨value.drop (b.writer.fieldTail - b.writer.frontEnd), ?_, fun hne ↦ ?_⟩
      · rw [hrest, hlost, List.append_nil, List.append_assoc, List.take_append_drop]
      · have hlen : b.writer.fieldTail - b.writer.frontEnd < value.length := by
          by_contra hge
          exact hne (List.drop_eq_nil_of_le (by omega))
        simp only
        omega
    · have hroom := hfull hlost
      refine ⟨rest ++ value, ?_, fun _ ↦ ?_⟩
      · rw [hroom, Nat.sub_self, List.take_zero, List.append_nil, hrest, List.append_assoc]
      · simp only
        omega
  · rw [hwriter, List.length_append]
    simp only
    rw [ha.requested, saturatingAdd_min]

theorem addField_requestedMessageBytes (b : RecordBuild) (key : Bytes) (value : FieldValue) :
    (b.addField key value).1.writer.requestedMessageBytes = b.writer.requestedMessageBytes := by
  rw [FieldEntry.addField_eq b (key, value), RecordBuild.addFieldBytes]
  split
  · rfl
  · split <;> rfl

/-- Builder calls keep the invariant, with the fields that were accepted and the bytes asked for. -/
theorem building_calls (conv : Charconv) (cs : List RecordCall)
    (h : Building limit level source timestamp b msg es) (ha : Appending asked b msg) :
    ∃ msg', Building limit level source timestamp (b.calls conv cs) msg'
        (es ++ b.addedFields conv cs) ∧
      Appending (asked ++ RecordBuild.appendedBytes conv cs) (b.calls conv cs) msg' := by
  induction cs generalizing b msg asked es with
  | nil =>
    refine ⟨msg, ?_, ?_⟩
    · rw [RecordBuild.addedFields, List.append_nil]
      exact h
    · rw [RecordBuild.appendedBytes, List.append_nil]
      exact ha
  | cons c cs ih =>
    cases c with
    | append value =>
      rw [RecordBuild.addedFields, RecordBuild.appendedBytes, RecordBuild.calls,
        List.foldl_cons, ← RecordBuild.calls, RecordBuild.call, RecordBuild.append,
        ← List.append_assoc]
      cases hbytes : value.bytes conv with
      | none =>
        rw [Option.getD_none, List.append_nil]
        exact ih h ha
      | some bytes =>
        rw [Option.getD_some]
        exact ih (h.appendBytes bytes) (ha.appendBytes h bytes)
    | addField key value =>
      rw [RecordBuild.addedFields, RecordBuild.appendedBytes, RecordBuild.calls,
        List.foldl_cons, ← RecordBuild.calls, RecordBuild.call]
      by_cases hfit : FieldEntry.size (key, value) ≤ b.writer.fieldTail - b.writer.frontEnd
      · obtain ⟨hadded, hbuild⟩ := h.addField (e := (key, value)) hfit
        have hpos := FieldEntry.metadataBytes_le_size (key, value)
        have h24 : serializedFieldMetadataBytes = 24 := rfl
        -- a lost byte means no room, and then no field fits
        have ha' : Appending asked (b.addField key value).1 msg := by
          obtain ⟨rest, hrest, hfull⟩ := ha.rest
          have hnil : rest = [] := by
            by_contra hne
            have := hfull hne
            omega
          exact ⟨⟨rest, hrest, fun hne ↦ absurd hnil hne⟩,
            by rw [addField_requestedMessageBytes, ha.requested]⟩
        obtain ⟨msg', hb', ha''⟩ := ih hbuild ha'
        refine ⟨msg', ?_, ha''⟩
        rw [if_pos hadded]
        simpa using hb'
      · have hrefused : b.addField key value = (b, false) :=
          Building.addField_of_not_fits (e := (key, value)) (by omega)
        rw [hrefused, if_neg Bool.false_ne_true]
        exact ih h ha

end Calls

end Ulog
