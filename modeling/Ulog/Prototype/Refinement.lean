import Ulog.Prototype.Views

/-!
# The three layouts build one Record

A `Draft` is what a writer has been asked for, without any layout: the bytes of the message that
found room and the fields that were accepted. Every slot refines it, whatever its storage: each
call returns what the draft returns (`Refines.call`), and publication shows the content of the
draft (`Refines.publish`). Two slots with the same draft can be told apart by their charge only.

The invariant `Refines` places the four parts of a Record in the flat memory that the storage
stands for. Nothing else of that memory matters, so a slot that was used before builds the same
Record as a fresh one.
-/

namespace Ulog.Prototype

open ByteMemory

variable {e : FieldEntry} {off : ℕ}

/-! ## Drafts -/

/-- The Record under construction. -/
structure Draft where
  seed : RecordSeed
  limit : ℕ
  requested : ℕ := 0
  message : Bytes := []
  fields : List FieldEntry := []

namespace Draft

variable (d : Draft)

/-- Where the message starts: behind the header and the source text. -/
def start : ℕ :=
  serializedRecordMetadataBytes + d.seed.sourcePath.length + d.seed.sourceFunction.length

/-- The bytes between message and fields. -/
def room : ℕ := d.limit - fieldBytes d.fields - (d.start + d.message.length)

def appendBytes (value : Bytes) : Draft × WriteResult :=
  let stored := min value.length d.room
  ({ d with
      requested := saturatingAdd d.requested value.length
      message := d.message ++ value.take stored },
    { requestedBytes := value.length, storedBytes := stored,
      truncated := decide (stored ≠ value.length) })

def append (conv : Charconv) (value : AppendValue) : Draft × WriteResult :=
  match value.bytes conv with
  | some bytes => d.appendBytes bytes
  | none => (d, { truncated := true })

def formatOutput (text : Bytes) : Draft :=
  text.foldl (fun d byte ↦ (d.appendBytes [byte]).1) d

def addField (e : FieldEntry) : Draft × Bool :=
  if e.size ≤ d.room then ({ d with fields := d.fields ++ [e] }, true) else (d, false)

def call (conv : Charconv) : WriterCall → Draft × CallResult
  | .append value => ((d.append conv value).1, .append (d.append conv value).2)
  | .formatOutput text => (d.formatOutput text, .formatOutput)
  | .addField key value => ((d.addField (key, value)).1, .addField (d.addField (key, value)).2)

def run (conv : Charconv) (d : Draft) : List WriterCall → Draft × List CallResult
  | [] => (d, [])
  | c :: cs =>
    let next := d.call conv c
    let rest := next.1.run conv cs
    (rest.1, next.2 :: rest.2)

theorem call_limit (conv : Charconv) (c : WriterCall) : (d.call conv c).1.limit = d.limit := by
  cases c with
  | append value =>
    simp only [call, append]
    cases value.bytes conv <;> rfl
  | formatOutput text =>
    change (d.formatOutput text).limit = d.limit
    induction text generalizing d with
    | nil => rfl
    | cons byte text ih => exact ih (d.appendBytes [byte]).1
  | addField key value =>
    simp only [call, addField]
    split <;> rfl

theorem run_limit (conv : Charconv) (cs : List WriterCall) : (d.run conv cs).1.limit = d.limit := by
  induction cs generalizing d with
  | nil => rfl
  | cons c cs ih => exact (ih (d.call conv c).1).trans (d.call_limit conv c)

/-- The part of the message that is published. -/
def kept : Bytes := d.message.take (validUtf8PrefixLength d.message)

def truncated : Bool := decide (d.requested ≠ d.kept.length)

/-- The bytes of keys and stored values. -/
def fieldPayload (es : List FieldEntry) : ℕ :=
  (es.map fun e ↦ e.1.length + e.2.payload.length).sum

def ownedPayloadBytes : ℕ :=
  d.seed.sourcePath.length + d.seed.sourceFunction.length + d.kept.length + fieldPayload d.fields

def metadataBytes : ℕ :=
  serializedRecordMetadataBytes + d.fields.length * serializedFieldMetadataBytes

/-- The footprint of the published Record. -/
def footprint (p : Policy) : RecordFootprint where
  requestedMessageBytes := d.requested
  storedMessageBytes := d.kept.length
  ownedPayloadBytes := d.ownedPayloadBytes
  metadataBytes := d.metadataBytes
  fragmentationBytes := p.accountingCharge (d.ownedPayloadBytes + d.metadataBytes)
    - (d.ownedPayloadBytes + d.metadataBytes)
  accountingChargeBytes := p.accountingCharge (d.ownedPayloadBytes + d.metadataBytes)
  minimumAccountingChargeBytes := p.minimumAccountingChargeBytes
  truncated := d.truncated

theorem fieldPayload_append (es : List FieldEntry) (e : FieldEntry) :
    fieldPayload (es ++ [e]) = fieldPayload es + (e.1.length + e.2.payload.length) := by
  simp [fieldPayload]

theorem fieldPayload_add (es : List FieldEntry) :
    fieldPayload es + es.length * serializedFieldMetadataBytes = fieldBytes es := by
  induction es with
  | nil => rfl
  | cons e es ih =>
    have hcons : fieldPayload (e :: es) = e.1.length + e.2.payload.length + fieldPayload es := rfl
    have hsize := e.size_eq
    rw [hcons, List.length_cons, fieldBytes_cons, Nat.add_mul]
    omega

theorem length_kept_le : d.kept.length ≤ d.message.length := by
  rw [kept, List.length_take]
  omega

theorem length_kept : d.kept.length = validUtf8PrefixLength d.message := by
  have hle := validUtf8PrefixLength_le d.message
  rw [kept, List.length_take]
  omega

/-- What is published takes no more than what was stored. -/
theorem serialized_eq :
    d.ownedPayloadBytes + d.metadataBytes = d.start + d.kept.length + fieldBytes d.fields := by
  have hfields := fieldPayload_add d.fields
  rw [ownedPayloadBytes, metadataBytes, start]
  omega

end Draft

/-! ## The parts in memory -/

namespace SerializedRecordHeader

/-- Every member fits the width it is stored in. -/
structure Fits (h : SerializedRecordHeader) : Prop where
  sourcePathOffset : h.sourcePathOffset < 2 ^ 32
  sourcePathSize : h.sourcePathSize < 2 ^ 32
  sourceFunctionOffset : h.sourceFunctionOffset < 2 ^ 32
  sourceFunctionSize : h.sourceFunctionSize < 2 ^ 32
  messageOffset : h.messageOffset < 2 ^ 32
  messageSize : h.messageSize < 2 ^ 32
  firstFieldOffset : h.firstFieldOffset < 2 ^ 32
  fieldCount : h.fieldCount < 2 ^ 32
  flags : h.flags < 2 ^ 32

/-- The header at the start of a memory. -/
def stored (m : Mem) : SerializedRecordHeader := ofWords (readWords m 0 widths)

@[simp] theorem length_pack (h : SerializedRecordHeader) :
    (packWords h.words).length = serializedRecordMetadataBytes := by
  simp [words, serializedRecordMetadataBytes]

theorem stored_write {h : SerializedRecordHeader} (hf : h.Fits) (m : Mem) :
    stored (write m 0 (packWords h.words)) = h := by
  have hwords := readWords_write_packWords m 0 h.words
  have htime : h.eventTimestamp.toUInt64.toNat % 256 ^ 8 = h.eventTimestamp.toUInt64.toNat :=
    Nat.mod_eq_of_lt h.eventTimestamp.toUInt64.toNat_lt
  have hline : h.sourceLine.toNat % 256 ^ 4 = h.sourceLine.toNat :=
    Nat.mod_eq_of_lt h.sourceLine.toNat_lt
  have h4 : ∀ {n : ℕ}, n < 2 ^ 32 → n % 256 ^ 4 = n := fun hn ↦ Nat.mod_eq_of_lt hn
  rw [stored, show widths = h.words.map Prod.fst from rfl, hwords]
  simp only [words, List.map_cons, List.map_nil, htime, hline, h4 hf.sourcePathOffset,
    h4 hf.sourcePathSize, h4 hf.sourceFunctionOffset, h4 hf.sourceFunctionSize,
    h4 hf.messageOffset, h4 hf.messageSize, h4 hf.firstFieldOffset, h4 hf.fieldCount,
    h4 hf.flags]
  simp [ofWords]

theorem stored_congr {m m' : Mem} (h : ∀ i < serializedRecordMetadataBytes, m' i = m i) :
    stored m' = stored m := by
  rw [stored, stored, readWords_congr fun i _ hi ↦ h i ?_]
  rwa [Nat.zero_add] at hi

theorem read_eq {r : StorageReader} {m : Mem} (h : r.Reads m) : read r 0 = stored m := by
  rw [read, h.readObject (by decide), stored]

end SerializedRecordHeader

namespace Draft

/-- The header as `Begin` writes it. -/
def initialHeader (d : Draft) : SerializedRecordHeader where
  eventTimestamp := d.seed.eventTimestamp
  sourcePathOffset := serializedRecordMetadataBytes
  sourcePathSize := d.seed.sourcePath.length
  sourceFunctionOffset := serializedRecordMetadataBytes + d.seed.sourcePath.length
  sourceFunctionSize := d.seed.sourceFunction.length
  messageOffset := d.start
  sourceLine := d.seed.sourceLine

/-- The header of the published Record. -/
def publishedHeader (d : Draft) : SerializedRecordHeader :=
  { d.initialHeader with
    messageSize := d.kept.length
    firstFieldOffset := chainHead d.limit 0 d.fields
    fieldCount := d.fields.length
    flags := if d.truncated then 1 else 0 }

/-- The header, the source text, the message and the fields of a draft in memory. -/
structure Parts (d : Draft) (m : Mem) (h : SerializedRecordHeader) : Prop where
  header : SerializedRecordHeader.stored m = h
  path : read m serializedRecordMetadataBytes d.seed.sourcePath.length = d.seed.sourcePath
  function : read m (serializedRecordMetadataBytes + d.seed.sourcePath.length)
    d.seed.sourceFunction.length = d.seed.sourceFunction
  message : read m d.start d.message.length = d.message
  chain : FieldChain m 0 d.limit d.fields

variable {d : Draft} {m m' : Mem} {h h' : SerializedRecordHeader}

theorem Parts.congr {d' : Draft} (hp : d.Parts m h) (hseed : d'.seed = d.seed)
    (hmessage : d'.message = d.message) (hheader : SerializedRecordHeader.stored m' = h')
    (hlow : ∀ i, serializedRecordMetadataBytes ≤ i → i < d.start + d.message.length → m' i = m i)
    (hchain : FieldChain m' 0 d'.limit d'.fields) : d'.Parts m' h' := by
  have hstart : d'.start = d.start := by rw [start, start, hseed]
  have hstart' : d.start = serializedRecordMetadataBytes + d.seed.sourcePath.length +
    d.seed.sourceFunction.length := rfl
  refine ⟨hheader, ?_, ?_, ?_, hchain⟩
  · rw [hseed, read_congr fun i hi hi' ↦ hlow i (by omega) (by omega), hp.path]
  · rw [hseed, read_congr fun i hi hi' ↦ hlow i (by omega) (by omega), hp.function]
  · rw [hstart, hmessage, read_congr fun i hi hi' ↦ hlow i (by omega) (by omega), hp.message]

end Draft

/-! ## The refinement -/

variable {p : Policy} {b : Build p} {d : Draft}

/-- The slot and its writer hold the draft. -/
structure Refines (b : Build p) (d : Draft) : Prop where
  attached : b.writer.attached = true
  state : b.slot.state = .building
  limit_le : d.limit ≤ maximumSerializedBytes
  messageOffset : b.writer.messageOffset = d.start
  messageSize : b.writer.messageSize = d.message.length
  requested : b.writer.requestedMessageBytes = d.requested
  frontEnd : b.writer.frontEnd = d.start + d.message.length
  frontEnd_le : b.writer.frontEnd ≤ b.writer.fieldTail
  fieldTail : b.writer.fieldTail + fieldBytes d.fields = d.limit
  sourcePayloadBytes : b.writer.sourcePayloadBytes =
    d.seed.sourcePath.length + d.seed.sourceFunction.length
  fieldPayloadBytes : b.writer.fieldPayloadBytes = Draft.fieldPayload d.fields
  fieldCount : b.writer.fieldCount = d.fields.length
  firstFieldOffset : b.writer.firstFieldOffset = chainHead d.limit 0 d.fields
  lastFieldOffset : b.writer.lastFieldOffset = if d.fields = [] then 0 else b.writer.fieldTail
  charge : b.writer.accountingChargeLimitBytes = p.accountingCharge d.limit
  parts : d.Parts (flat b.slot.storage) d.initialHeader

theorem isValidFootprint_iff {f : RecordFootprint} :
    isValidFootprint p f = true ↔ f.serializedBytes ≤ maximumSerializedBytes ∧
      serializedRecordMetadataBytes ≤ f.serializedBytes ∧
      f.minimumAccountingChargeBytes = p.minimumAccountingChargeBytes ∧
      f.accountingChargeBytes = p.accountingCharge f.serializedBytes ∧
      f.fragmentationBytes = f.accountingChargeBytes - f.serializedBytes := by
  rw [isValidFootprint, RecordFootprint.serializedBytes]
  dsimp only
  split
  · simp only [Bool.false_eq_true, false_iff]
    omega
  · have hle : f.ownedPayloadBytes + f.metadataBytes ≤ maximumSerializedBytes := by omega
    have hbounds := p.le_accountingCharge hle
    split
    · simp only [Bool.false_eq_true, false_iff]
      omega
    · simp only [Bool.and_eq_true, beq_iff_eq]
      omega

/-! ## Begin -/

section Begin

variable {slot : RecordSlot p} {seed : RecordSeed} {f : RecordFootprint}

/-- A writer is returned when the slot is free, the footprint is valid and the source text fits. -/
theorem begin_isSome_iff : (slot.begin seed f).isSome = true ↔ slot.state = .reset ∧
    isValidFootprint p f = true ∧ serializedRecordMetadataBytes + seed.sourcePath.length +
      seed.sourceFunction.length ≤ f.serializedBytes := by
  have h48 : serializedRecordMetadataBytes = 48 := rfl
  have hmax : maximumSerializedBytes = 16384 := rfl
  have h32 : uint32Max = 2 ^ 32 - 1 := rfl
  have h64 : wordModulus = 2 ^ 64 := rfl
  rw [RecordSlot.begin]
  by_cases hvalid : isValidFootprint p f = true
  · obtain ⟨hlimit, hmin, -⟩ := isValidFootprint_iff.mp hvalid
    simp only [hvalid, Bool.not_true, Bool.false_eq_true, false_or, true_and]
    by_cases hstate : slot.state = .reset
    · simp only [hstate, ne_eq, not_true_eq_false, false_or, true_and]
      split
      · simp only [Option.isSome_none, Bool.false_eq_true, false_iff]
        omega
      · split
        · simp only [Option.isSome_none, Bool.false_eq_true, false_iff]
          omega
        · simp only [Option.isSome_some, true_iff]
          omega
    · rw [if_pos (Or.inl hstate)]
      simp [hstate]
  · rw [if_pos (by simp [hvalid])]
    simp [hvalid]

theorem refines_of_begin (h : slot.begin seed f = some b) :
    Refines b { seed := seed, limit := f.serializedBytes } := by
  have h48 : serializedRecordMetadataBytes = 48 := rfl
  have hmax : maximumSerializedBytes = 16384 := rfl
  obtain ⟨-, hvalid, hsource⟩ := begin_isSome_iff.mp (Option.isSome_of_eq_some h)
  obtain ⟨hlimit, hmin, -, hcharge, -⟩ := isValidFootprint_iff.mp hvalid
  obtain ⟨d, hd⟩ : ∃ d : Draft, d = { seed := seed, limit := f.serializedBytes } := ⟨_, rfl⟩
  have hstart : d.start = serializedRecordMetadataBytes + seed.sourcePath.length +
    seed.sourceFunction.length := by rw [hd]; rfl
  have hfits : d.initialHeader.Fits := by
    subst hd
    constructor <;> simp only [Draft.initialHeader] <;> omega
  have hpack := d.initialHeader.length_pack
  have hparts : d.Parts (flat (writeObject (copyIn (copyIn slot.storage
      serializedRecordMetadataBytes seed.sourcePath) (serializedRecordMetadataBytes +
        seed.sourcePath.length) seed.sourceFunction) 0 d.initialHeader.words)) d.initialHeader := by
    rw [writeObject, flat_copyIn (by omega), flat_copyIn (by omega), flat_copyIn (by omega)]
    subst hd
    refine ⟨SerializedRecordHeader.stored_write hfits _, ?_, ?_, rfl, trivial⟩
    · rw [read_write_of_disjoint (Or.inr (by omega)), read_write_of_disjoint (Or.inl le_rfl),
        read_write_same]
    · rw [read_write_of_disjoint (Or.inr (by omega)), read_write_same]
  rw [RecordSlot.begin] at h
  dsimp only at h
  split at h
  · cases h
  · split at h
    · cases h
    · cases h
      subst hd
      exact ⟨rfl, rfl, hlimit, rfl, rfl, rfl, rfl, hsource, rfl, rfl, rfl, rfl, rfl, rfl, hcharge,
        hparts⟩

end Begin

/-! ## Calls -/

namespace Refines

theorem room_eq (h : Refines b d) : b.writer.fieldTail - b.writer.frontEnd = d.room := by
  have htail := h.fieldTail
  rw [Draft.room, h.frontEnd]
  omega

/-- A write between message and fields keeps every part. -/
theorem parts_write (h : Refines b d) {bs : Bytes} (hlow : b.writer.frontEnd ≤ off)
    (hhigh : off + bs.length ≤ b.writer.fieldTail) :
    d.Parts (write (flat b.slot.storage) off bs) d.initialHeader := by
  have hfront := h.frontEnd
  have htail := h.fieldTail
  have hstart : serializedRecordMetadataBytes ≤ d.start := by
    rw [Draft.start]
    omega
  refine h.parts.congr rfl rfl ?_ (fun i _ hi ↦ write_apply_of_outside (Or.inl (by omega))) ?_
  · rw [SerializedRecordHeader.stored_congr fun i hi ↦ write_apply_of_outside (Or.inl (by omega)),
      h.parts.header]
  · exact h.parts.chain.congr (by omega) fun i hi _ ↦ write_apply_of_outside (Or.inr (by omega))

theorem appendBytes (h : Refines b d) (value : Bytes) :
    (b.appendBytes value).2 = (d.appendBytes value).2 ∧
      Refines (b.appendBytes value).1 (d.appendBytes value).1 := by
  have hroom := h.room_eq
  have hfront := h.frontEnd
  have hle := h.frontEnd_le
  have htail := h.fieldTail
  have hlimit := h.limit_le
  obtain ⟨n, hn⟩ : ∃ n, min value.length d.room = n := ⟨_, rfl⟩
  have hlen : (value.take n).length = n := by
    rw [List.length_take]
    omega
  have hparts : d.Parts (write (flat b.slot.storage) b.writer.frontEnd (value.take n))
      d.initialHeader := h.parts_write le_rfl (by omega)
  have hflat : flat (copyIn b.slot.storage b.writer.frontEnd (value.take n)) =
      write (flat b.slot.storage) b.writer.frontEnd (value.take n) := flat_copyIn (by omega)
  rw [Build.appendBytes, Draft.appendBytes]
  simp only [h.attached, Bool.not_true, Bool.false_eq_true, if_false, hroom, hn]
  refine ⟨trivial, { h with
    attached := rfl, messageSize := ?_, requested := ?_, frontEnd := ?_, frontEnd_le := ?_
    parts := ?_ }⟩
  · simp only [List.length_append, hlen, h.messageSize]
  · simp only [h.requested]
  · simp only [List.length_append, hlen, hfront, Draft.start]
    omega
  · change b.writer.frontEnd + n ≤ b.writer.fieldTail
    omega
  · rw [hflat]
    refine { hparts with message := ?_ }
    change read _ d.start (d.message ++ value.take n).length = d.message ++ value.take n
    rw [List.length_append, read_add, hparts.message, ← hfront, read_write_same]

theorem formatOutput (h : Refines b d) (text : Bytes) :
    Refines (b.formatOutput text) (d.formatOutput text) := by
  induction text generalizing b d with
  | nil => exact h
  | cons byte text ih => exact ih (h.appendBytes [byte]).2

end Refines

theorem Build.addField_eq (b : Build p) (e : FieldEntry) :
    b.addField e.1 e.2
      = b.addFieldBytes e.1 e.2.kind e.2.payload e.2.scalarBits e.2.boolValue := by
  obtain ⟨key, value⟩ := e
  cases value <;> rfl

/-- The three writes of `AddFieldBytes`, through the segments. -/
def storeFieldIn (s : p.Storage) (off : ℕ) (e : FieldEntry) : p.Storage :=
  writeObject (copyIn (copyIn s (off + serializedFieldMetadataBytes) e.1)
    (off + serializedFieldMetadataBytes + e.1.length) e.2.payload) off (e.metadata off 0).words

/-- Patching the link of a block, through the segments. -/
def linkFieldIn (s : p.Storage) (off next : ℕ) : p.Storage :=
  writeObject s off (SerializedField.words
    { readField (.ofStorage s) off with nextOffset := next })

theorem flat_storeFieldIn {s : p.Storage} (hfit : off + e.size ≤ maximumSerializedBytes) :
    flat (storeFieldIn s off e) = storeField (flat s) off e := by
  have hsize := e.size_eq
  have hpack := (e.metadata off 0).length_pack
  rw [storeFieldIn, writeObject, flat_copyIn (by omega), flat_copyIn (by omega),
    flat_copyIn (by omega)]
  rfl

theorem flat_linkFieldIn {s : p.Storage} {next : ℕ}
    (hfit : off + serializedFieldMetadataBytes ≤ maximumSerializedBytes) :
    flat (linkFieldIn s off next) = linkField (flat s) off next := by
  rw [linkFieldIn, writeObject, (StorageReader.reads_ofStorage s).readField hfit, flat_copyIn]
  · rfl
  · rw [SerializedField.length_pack]
    exact hfit

theorem metadataBytes_le_fieldBytes {es : List FieldEntry} (h : es ≠ []) :
    serializedFieldMetadataBytes ≤ fieldBytes es := by
  obtain ⟨e, es, rfl⟩ := List.exists_cons_of_ne_nil h
  have hsize := e.metadataBytes_le_size
  rw [fieldBytes_cons]
  omega

namespace Refines

theorem addField_eq (h : Refines b d) (hoff : off + e.size = b.writer.fieldTail)
    (hfront : b.writer.frontEnd ≤ off) :
    b.addField e.1 e.2 =
      ({ slot :=
          { b.slot with
            storage :=
              if b.writer.lastFieldOffset = 0 then storeFieldIn b.slot.storage off e
              else linkFieldIn (storeFieldIn b.slot.storage off e) b.writer.lastFieldOffset off }
         writer :=
          { b.writer with
            fieldTail := off
            firstFieldOffset :=
              if b.writer.lastFieldOffset = 0 then off else b.writer.firstFieldOffset
            lastFieldOffset := off
            fieldCount := b.writer.fieldCount + 1
            fieldPayloadBytes :=
              b.writer.fieldPayloadBytes + (e.1.length + e.2.payload.length) } }, true) := by
  have h24 : serializedFieldMetadataBytes = 24 := rfl
  have hmax : maximumSerializedBytes = 16384 := rfl
  have h32 : uint32Max = 2 ^ 32 - 1 := rfl
  have h64 : wordModulus = 2 ^ 64 := rfl
  have hlimit := h.limit_le
  have htail := h.fieldTail
  have hcount := length_le_fieldBytes d.fields
  have hsize := e.size_eq
  have hguard : ¬(!b.writer.attached ∨ b.writer.fieldCount = uint32Max ∨ uint32Max < e.1.length ∨
      uint32Max < e.2.payload.length ∨
      wordModulus - 1 - serializedFieldMetadataBytes < e.1.length ∨
      wordModulus - 1 - serializedFieldMetadataBytes - e.1.length < e.2.payload.length) := by
    rw [h.attached, h.fieldCount]
    push Not
    exact ⟨by decide, by omega, by omega, by omega, by omega, by omega⟩
  rw [Build.addField_eq, Build.addFieldBytes]
  simp only [hguard, if_false, ← hsize, show ¬(b.writer.fieldTail - b.writer.frontEnd < e.size)
    from by omega, show b.writer.fieldTail - e.size = off from by omega]
  rfl

theorem addField_of_not_fits (hfit : b.writer.fieldTail - b.writer.frontEnd < e.size) :
    b.addField e.1 e.2 = (b, false) := by
  have hsize := e.size_eq
  rw [Build.addField_eq, Build.addFieldBytes]
  split
  · rfl
  · rw [if_pos (hsize ▸ hfit)]

theorem addField (h : Refines b d) (e : FieldEntry) :
    (b.addField e.1 e.2).2 = (d.addField e).2 ∧
      Refines (b.addField e.1 e.2).1 (d.addField e).1 := by
  have h24 : serializedFieldMetadataBytes = 24 := rfl
  have h48 : serializedRecordMetadataBytes = 48 := rfl
  have hmax : maximumSerializedBytes = 16384 := rfl
  have hroom := h.room_eq
  have hlimit := h.limit_le
  have hfront := h.frontEnd
  have hle := h.frontEnd_le
  have htail := h.fieldTail
  have hsize := e.metadataBytes_le_size
  have hstart : serializedRecordMetadataBytes ≤ d.start := by
    rw [Draft.start]
    omega
  rw [Draft.addField]
  by_cases hfit : e.size ≤ d.room
  · obtain ⟨off, hoff⟩ : ∃ off, b.writer.fieldTail - e.size = off := ⟨_, rfl⟩
    have hlast := h.lastFieldOffset
    rw [if_pos hfit, h.addField_eq (show off + e.size = b.writer.fieldTail by omega) (by omega)]
    obtain ⟨hchain, hframe⟩ := fieldChain_addField e off h.parts.chain (by omega) (by omega)
      (show b.writer.lastFieldOffset = if d.fields = [] then 0 else off + e.size by
        rw [hlast, show off + e.size = b.writer.fieldTail by omega])
    have hflat : flat (if b.writer.lastFieldOffset = 0 then storeFieldIn b.slot.storage off e
        else linkFieldIn (storeFieldIn b.slot.storage off e) b.writer.lastFieldOffset off) =
        if b.writer.lastFieldOffset = 0 then storeField (flat b.slot.storage) off e
        else linkField (storeField (flat b.slot.storage) off e) b.writer.lastFieldOffset off := by
      split
      · exact flat_storeFieldIn (by omega)
      · next hne =>
        rw [flat_linkFieldIn, flat_storeFieldIn (by omega)]
        by_cases hnil : d.fields = []
        · exact absurd (hlast.trans (if_pos hnil)) hne
        · have hbytes := metadataBytes_le_fieldBytes hnil
          rw [hlast, if_neg hnil]
          omega
    rw [← hflat] at hchain hframe
    refine ⟨rfl, { h with
      frontEnd_le := ?_, fieldTail := ?_, fieldPayloadBytes := ?_, fieldCount := ?_
      firstFieldOffset := ?_, lastFieldOffset := ?_, parts := ?_ }⟩
    · change b.writer.frontEnd ≤ off
      omega
    · change off + fieldBytes (d.fields ++ [e]) = d.limit
      rw [fieldBytes_append, fieldBytes_cons, fieldBytes_nil]
      omega
    · change b.writer.fieldPayloadBytes + _ = Draft.fieldPayload (d.fields ++ [e])
      rw [Draft.fieldPayload_append, h.fieldPayloadBytes]
    · change b.writer.fieldCount + 1 = (d.fields ++ [e]).length
      rw [List.length_append, h.fieldCount, List.length_singleton]
    · change (if b.writer.lastFieldOffset = 0 then off else b.writer.firstFieldOffset)
        = chainHead d.limit 0 (d.fields ++ [e])
      rw [chainHead_append, hlast, h.firstFieldOffset]
      cases hes : d.fields with
      | nil =>
        rw [hes, fieldBytes_nil] at htail
        rw [if_pos rfl, if_pos rfl, chainHead, fieldBytes_nil]
        omega
      | cons e' es =>
        rw [if_neg (List.cons_ne_nil _ _), if_neg (by omega)]
        rfl
    · change off = if d.fields ++ [e] = [] then 0 else off
      rw [if_neg (by simp)]
    · refine h.parts.congr rfl rfl ?_ (fun i _ hi ↦ hframe i (by omega)) hchain
      exact (SerializedRecordHeader.stored_congr fun i hi ↦ hframe i (by omega)).trans
        h.parts.header
  · rw [if_neg hfit, addField_of_not_fits (by omega)]
    exact ⟨rfl, h⟩

variable (conv : Charconv)

theorem call (h : Refines b d) (c : WriterCall) :
    (b.call conv c).2 = (d.call conv c).2 ∧ Refines (b.call conv c).1 (d.call conv c).1 := by
  cases c with
  | append value =>
    simp only [Build.call, Draft.call, Build.append, Draft.append]
    cases value.bytes conv with
    | none => exact ⟨rfl, h⟩
    | some bytes =>
      obtain ⟨hresult, hrefines⟩ := h.appendBytes bytes
      exact ⟨congrArg CallResult.append hresult, hrefines⟩
  | formatOutput text => exact ⟨rfl, h.formatOutput text⟩
  | addField key value =>
    obtain ⟨hresult, hrefines⟩ := h.addField (key, value)
    exact ⟨congrArg CallResult.addField hresult, hrefines⟩

theorem run (h : Refines b d) (cs : List WriterCall) :
    (b.run conv cs).2 = (d.run conv cs).2 ∧ Refines (b.run conv cs).1 (d.run conv cs).1 := by
  induction cs generalizing b d with
  | nil => exact ⟨rfl, h⟩
  | cons c cs ih =>
    obtain ⟨hresult, hrefines⟩ := h.call conv c
    obtain ⟨hresults, hrefines'⟩ := ih hrefines
    exact ⟨congrArg₂ List.cons hresult hresults, hrefines'⟩

end Refines

/-! ## Publication -/

/-- The view shows the content of the draft, through every accessor. -/
structure RecordView.Shows (v : RecordView) (d : Draft) : Prop where
  eventTimestamp : v.eventTimestamp = d.seed.eventTimestamp
  sourcePath : v.sourcePath.Shows d.seed.sourcePath
  sourceFunction : v.sourceFunction.Shows d.seed.sourceFunction
  sourceLine : v.sourceLine = d.seed.sourceLine
  message : v.message.Shows d.kept
  flags : v.header.flags = if d.truncated then 1 else 0
  fieldCount : v.fieldCount = d.fields.length
  fieldAt : ∀ i, Option.Rel FieldView.Shows (v.fieldAt i) d.fields[i]?

/-- The parts in memory determine what a view shows. -/
theorem Draft.Parts.shows {r : StorageReader} {m : Mem} (hp : d.Parts m d.publishedHeader)
    (hr : r.Reads m) (hfit : d.start + d.message.length + fieldBytes d.fields ≤ d.limit)
    (hlimit : d.limit ≤ maximumSerializedBytes) (f : RecordFootprint) :
    RecordView.Shows ⟨r, f⟩ d := by
  have hheader : RecordView.header ⟨r, f⟩ = d.publishedHeader := by
    rw [RecordView.header, SerializedRecordHeader.read_eq hr, hp.header]
  have hstart : d.start = serializedRecordMetadataBytes + d.seed.sourcePath.length +
    d.seed.sourceFunction.length := rfl
  have hkept := d.length_kept_le
  have hmessage : read m d.start d.kept.length = d.kept := by
    rw [← take_read m d.start hkept, hp.message, d.length_kept]
    rfl
  have hpathEnd : serializedRecordMetadataBytes + d.seed.sourcePath.length ≤
    maximumSerializedBytes := by omega
  have hfunctionEnd : serializedRecordMetadataBytes + d.seed.sourcePath.length +
    d.seed.sourceFunction.length ≤ maximumSerializedBytes := by omega
  have hmessageEnd : d.start + d.kept.length ≤ maximumSerializedBytes := by omega
  refine ⟨?_, ?_, ?_, ?_, ?_, ?_, ?_, fun i ↦ ?_⟩
  · rw [RecordView.eventTimestamp, hheader]
    rfl
  · rw [RecordView.sourcePath, hheader]
    exact hr.shows_text hpathEnd hp.path
  · rw [RecordView.sourceFunction, hheader]
    exact hr.shows_text hfunctionEnd hp.function
  · rw [RecordView.sourceLine, hheader]
    rfl
  · rw [RecordView.message, hheader]
    exact hr.shows_text hmessageEnd hmessage
  · rw [hheader]
    rfl
  · rw [RecordView.fieldCount, hheader]
    rfl
  · rw [RecordView.fieldAt, hheader]
    cases hi : d.fields[i]? with
    | none =>
      rw [if_pos (show d.publishedHeader.fieldCount ≤ i from List.getElem?_eq_none_iff.mp hi)]
      exact .none
    | some e =>
      have hlt : i < d.fields.length := (List.getElem?_eq_some_iff.mp hi).1
      rw [if_neg (show ¬d.publishedHeader.fieldCount ≤ i from Nat.not_le.mpr hlt)]
      obtain ⟨off, next, hoff, hstored, hend⟩ :=
        hr.fieldOffset_of_fieldChain hp.chain hlimit (by omega) hi
      refine .some ?_
      change FieldView.Shows ⟨r, readField r (RecordView.fieldOffset r
        (chainHead d.limit 0 d.fields) i)⟩ e
      rw [hoff]
      exact hr.shows_field hstored hend

namespace Refines

theorem fit (h : Refines b d) : d.start + d.message.length + fieldBytes d.fields ≤ d.limit := by
  have hfront := h.frontEnd
  have hle := h.frontEnd_le
  have htail := h.fieldTail
  omega

theorem publishedHeader_fits (h : Refines b d) : d.publishedHeader.Fits := by
  have hmax : maximumSerializedBytes = 16384 := rfl
  have hlimit := h.limit_le
  have hfit := h.fit
  have hkept := d.length_kept_le
  have hcount := length_le_fieldBytes d.fields
  have hstart : d.start = serializedRecordMetadataBytes + d.seed.sourcePath.length +
    d.seed.sourceFunction.length := rfl
  have hchain : chainHead d.limit 0 d.fields ≤ d.limit := by
    cases d.fields with
    | nil => exact Nat.zero_le _
    | cons e es => exact Nat.sub_le _ _
  constructor <;> simp only [Draft.publishedHeader, Draft.initialHeader]
  all_goals first | omega | (split <;> decide)

theorem parts_publish (h : Refines b d) :
    d.Parts (write (flat b.slot.storage) 0 (packWords d.publishedHeader.words))
      d.publishedHeader := by
  have hpack := d.publishedHeader.length_pack
  have hfit := h.fit
  have hstart : serializedRecordMetadataBytes ≤ d.start := by
    rw [Draft.start]
    omega
  refine h.parts.congr rfl rfl (SerializedRecordHeader.stored_write h.publishedHeader_fits _)
    (fun i hi _ ↦ write_apply_of_outside (Or.inr (by omega))) ?_
  exact h.parts.chain.congr (by omega) fun i hi _ ↦ write_apply_of_outside (Or.inr (by omega))

/-- Publication succeeds and shows the draft: the Record takes no more bytes than the limit, so it
is charged no more than was reserved. -/
theorem publish (h : Refines b d) : ∃ b' v, b.publish = (b', some v) ∧
    b'.slot.state = .published ∧ v.Shows d ∧ v.footprint = d.footprint p := by
  have h48 : serializedRecordMetadataBytes = 48 := rfl
  have hmax : maximumSerializedBytes = 16384 := rfl
  have hlimit := h.limit_le
  have hfit := h.fit
  have hkept := d.length_kept_le
  have hserialized := d.serialized_eq
  have hreads := StorageReader.reads_ofStorage b.slot.storage
  have hpack := d.publishedHeader.length_pack
  have hsize : validUtf8PrefixLengthAt (.ofStorage b.slot.storage) b.writer.messageOffset
      b.writer.messageSize = d.kept.length := by
    rw [h.messageOffset, h.messageSize, hreads.validUtf8PrefixLengthAt (by omega),
      h.parts.message, d.length_kept]
  have hheader : { SerializedRecordHeader.read (.ofStorage b.slot.storage) 0 with
      messageSize := d.kept.length
      firstFieldOffset := b.writer.firstFieldOffset
      fieldCount := b.writer.fieldCount
      flags := if decide (b.writer.requestedMessageBytes ≠ d.kept.length) then 1 else 0 } =
        d.publishedHeader := by
    rw [SerializedRecordHeader.read_eq hreads, h.parts.header, h.firstFieldOffset, h.fieldCount,
      h.requested]
    rfl
  have hcharge : ¬b.writer.accountingChargeLimitBytes <
      p.accountingCharge (d.ownedPayloadBytes + d.metadataBytes) := by
    rw [h.charge, Nat.not_lt]
    exact p.accountingCharge_mono (by omega) hlimit
  have howned : b.writer.sourcePayloadBytes + d.kept.length + b.writer.fieldPayloadBytes =
      d.ownedPayloadBytes := by
    rw [h.sourcePayloadBytes, h.fieldPayloadBytes]
    rfl
  have hmetadata : serializedRecordMetadataBytes + b.writer.fieldCount *
      serializedFieldMetadataBytes = d.metadataBytes := by
    rw [h.fieldCount]
    rfl
  have hparts := h.parts_publish
  rw [Build.publish, if_neg (by rw [h.attached, h.state]; decide)]
  dsimp only
  rw [hsize, hheader, howned, hmetadata, if_neg hcharge]
  refine ⟨_, _, rfl, rfl, ?_, ?_⟩
  · refine hparts.shows ?_ hfit hlimit _
    rw [← flat_copyIn (by omega)]
    exact StorageReader.reads_ofStorage _
  · rw [h.requested]
    rfl

end Refines

/-! ## Agreement -/

/-- Two texts that no accessor tells apart. -/
structure TextView.Agrees (v w : TextView) : Prop where
  size : v.size = w.size
  bytes : v.bytes = w.bytes
  copyTo : ∀ capacity, v.copyTo capacity = w.copyTo capacity
  equals : ∀ value, v.equals value = w.equals value

theorem TextView.Shows.agrees {v w : TextView} {text : Bytes} (hv : v.Shows text)
    (hw : w.Shows text) : v.Agrees w :=
  ⟨hv.size.trans hw.size.symm, hv.bytes.trans hw.bytes.symm,
    fun n ↦ (hv.copyTo n).trans (hw.copyTo n).symm,
    fun value ↦ (hv.equals value).trans (hw.equals value).symm⟩

structure FieldView.Agrees (v w : FieldView) : Prop where
  key : v.key.Agrees w.key
  kind : v.kind = w.kind
  asString : Option.Rel TextView.Agrees v.asString w.asString
  asInt64 : v.asInt64 = w.asInt64
  asUInt64 : v.asUInt64 = w.asUInt64
  asDouble : v.asDouble = w.asDouble
  asBool : v.asBool = w.asBool
  isNull : v.isNull = w.isNull

/-- What both sides show of one thing, they show alike. -/
theorem rel_of_shows {α β : Type*} {shows : α → β → Prop} {agrees : α → α → Prop}
    {v w : Option α} {x : Option β} (hv : Option.Rel shows v x) (hw : Option.Rel shows w x)
    (h : ∀ {v w x}, shows v x → shows w x → agrees v w) : Option.Rel agrees v w := by
  cases hv with
  | none =>
    cases hw
    exact .none
  | some hv =>
    cases hw with
    | some hw => exact .some (h hv hw)

theorem FieldView.Shows.agrees {v w : FieldView} (hv : v.Shows e) (hw : w.Shows e) : v.Agrees w :=
  ⟨hv.key.agrees hw.key, hv.kind.trans hw.kind.symm,
    rel_of_shows hv.asString hw.asString TextView.Shows.agrees,
    hv.asInt64.trans hw.asInt64.symm, hv.asUInt64.trans hw.asUInt64.symm,
    hv.asDouble.trans hw.asDouble.symm,
    hv.asBool.trans hw.asBool.symm, hv.isNull.trans hw.isNull.symm⟩

/-- Two Records that no accessor tells apart, and whose footprints differ at most in what the
Record is charged. -/
structure RecordView.Agrees (v w : RecordView) : Prop where
  eventTimestamp : v.eventTimestamp = w.eventTimestamp
  sourcePath : v.sourcePath.Agrees w.sourcePath
  sourceFunction : v.sourceFunction.Agrees w.sourceFunction
  sourceLine : v.sourceLine = w.sourceLine
  message : v.message.Agrees w.message
  flags : v.header.flags = w.header.flags
  fieldCount : v.fieldCount = w.fieldCount
  fieldAt : ∀ i, Option.Rel FieldView.Agrees (v.fieldAt i) (w.fieldAt i)
  footprint : w.footprint =
    { v.footprint with
      fragmentationBytes := w.footprint.fragmentationBytes
      accountingChargeBytes := w.footprint.accountingChargeBytes
      minimumAccountingChargeBytes := w.footprint.minimumAccountingChargeBytes }

theorem RecordView.Shows.agrees {v w : RecordView} (hv : v.Shows d) (hw : w.Shows d) {q : Policy}
    (hfv : v.footprint = d.footprint p) (hfw : w.footprint = d.footprint q) : v.Agrees w :=
  ⟨hv.eventTimestamp.trans hw.eventTimestamp.symm, hv.sourcePath.agrees hw.sourcePath,
    hv.sourceFunction.agrees hw.sourceFunction, hv.sourceLine.trans hw.sourceLine.symm,
    hv.message.agrees hw.message, hv.flags.trans hw.flags.symm,
    hv.fieldCount.trans hw.fieldCount.symm,
    fun i ↦ rel_of_shows (hv.fieldAt i) (hw.fieldAt i) FieldView.Shows.agrees, by
      rw [hfv, hfw]
      rfl⟩

/-- The charge of the Record covers its bytes and stays within what was reserved. -/
structure RecordFootprint.Charged (reserved f : RecordFootprint) : Prop where
  serialized_le : f.serializedBytes ≤ f.accountingChargeBytes
  charge_le : f.accountingChargeBytes ≤ reserved.accountingChargeBytes

theorem Refines.charged (h : Refines b d) {f : RecordFootprint}
    (hf : f.accountingChargeBytes = p.accountingCharge d.limit) :
    RecordFootprint.Charged f (d.footprint p) := by
  have hserialized := d.serialized_eq
  have hfit := h.fit
  have hlimit := h.limit_le
  have hkept := d.length_kept_le
  refine ⟨(p.le_accountingCharge ?_).1, ?_⟩
  · change d.ownedPayloadBytes + d.metadataBytes ≤ _
    omega
  · rw [hf]
    exact p.accountingCharge_mono (by omega) hlimit

/-- The three layouts build the same Record: with footprints of the same size they agree on whether
there is a writer, on every result of every call, and on everything the published views show. -/
theorem layouts_agree (conv : Charconv) (seed : RecordSeed) (slots : (p : Policy) → RecordSlot p)
    (footprints : Policy → RecordFootprint)
    (hstate : ∀ p q, (slots p).state = (slots q).state)
    (hvalid : ∀ p, isValidFootprint p (footprints p) = true)
    (hsize : ∀ p q, (footprints p).serializedBytes = (footprints q).serializedBytes)
    (calls : List WriterCall) (p q : Policy) :
    ((slots p).begin seed (footprints p)).isSome = ((slots q).begin seed (footprints q)).isSome ∧
    ∀ b c, (slots p).begin seed (footprints p) = some b →
      (slots q).begin seed (footprints q) = some c →
      (b.run conv calls).2 = (c.run conv calls).2 ∧
      ∃ b' c' v w, (b.run conv calls).1.publish = (b', some v) ∧
        (c.run conv calls).1.publish = (c', some w) ∧ v.Agrees w ∧
        RecordFootprint.Charged (footprints p) v.footprint ∧
        RecordFootprint.Charged (footprints q) w.footprint := by
  have hcharge : ∀ p, (footprints p).accountingChargeBytes =
      p.accountingCharge (footprints p).serializedBytes :=
    fun p ↦ (isValidFootprint_iff.mp (hvalid p)).2.2.2.1
  refine ⟨?_, fun b c hb hc ↦ ?_⟩
  · rw [Bool.eq_iff_iff, begin_isSome_iff, begin_isSome_iff, hstate p q, hvalid p, hvalid q,
      hsize p q]
  · have hdraft := refines_of_begin hb
    have hdraft' := refines_of_begin hc
    rw [← hsize p q] at hdraft'
    obtain ⟨hresults, hrun⟩ := hdraft.run conv calls
    obtain ⟨hresults', hrun'⟩ := hdraft'.run conv calls
    obtain ⟨b', v, hpublish, -, hshows, hfootprint⟩ := hrun.publish
    obtain ⟨c', w, hpublish', -, hshows', hfootprint'⟩ := hrun'.publish
    have hlimit := Draft.run_limit { seed := seed, limit := (footprints p).serializedBytes } conv
      calls
    refine ⟨hresults.trans hresults'.symm, b', c', v, w, hpublish, hpublish',
      hshows.agrees hshows' hfootprint hfootprint', ?_, ?_⟩
    · rw [hfootprint]
      exact hrun.charged (by rw [hlimit, hcharge])
    · rw [hfootprint']
      exact hrun'.charged (by rw [hlimit, hcharge, hsize p q])

/-- A footprint of 640 bytes. -/
def wideFootprint (p : Policy) : RecordFootprint where
  ownedPayloadBytes := 592
  metadataBytes := 48
  fragmentationBytes := p.accountingCharge 640 - 640
  accountingChargeBytes := p.accountingCharge 640
  minimumAccountingChargeBytes := p.minimumAccountingChargeBytes

/-- A message that is cut and a field, in chunks and in an inline part with an overflow chunk: the
message crosses two chunks and leaves the inline part. -/
theorem layouts_agree_segments : ∃ b c,
    (RecordSlot.mk (p := .chunked) (Policy.zeroed _) .reset).begin ⟨[0x61], [0x62], 7, 9⟩
      (wideFootprint .chunked) = some b ∧
    (RecordSlot.mk (p := .hybrid) (Policy.zeroed _) .reset).begin ⟨[0x61], [0x62], 7, 9⟩
      (wideFootprint .hybrid) = some c ∧
    ∃ b' c' v w,
      (b.run .blank [.addField [0x6b] (.string [0x76]),
        .formatOutput (List.replicate 600 0x2e)]).1.publish = (b', some v) ∧
      (c.run .blank [.addField [0x6b] (.string [0x76]),
        .formatOutput (List.replicate 600 0x2e)]).1.publish = (c', some w) ∧ v.Agrees w := by
  have hvalid : ∀ p, isValidFootprint p (wideFootprint p) = true := fun p ↦ by
    cases p <;> decide +kernel
  have hsome : ∀ p, ((RecordSlot.mk (p.zeroed) .reset).begin ⟨[0x61], [0x62], 7, 9⟩
      (wideFootprint p)).isSome = true :=
    fun p ↦ begin_isSome_iff.mpr ⟨rfl, hvalid p, show 48 + 1 + 1 ≤ 640 by decide⟩
  have hsize : ∀ p, (wideFootprint p).serializedBytes = 640 := fun _ ↦ rfl
  obtain ⟨b, hb⟩ := Option.isSome_iff_exists.mp (hsome .chunked)
  obtain ⟨c, hc⟩ := Option.isSome_iff_exists.mp (hsome .hybrid)
  obtain ⟨-, b', c', v, w, hv, hw, hagrees, -⟩ :=
    (layouts_agree .blank ⟨[0x61], [0x62], 7, 9⟩
      (fun p ↦ RecordSlot.mk p.zeroed .reset) wideFootprint (fun _ _ ↦ rfl) hvalid
      (fun p q ↦ (hsize p).trans (hsize q).symm) [.addField [0x6b] (.string [0x76]),
        .formatOutput (List.replicate 600 0x2e)] .chunked .hybrid).2 b c hb hc
  exact ⟨b, c, hb, hc, b', c', v, w, hv, hw, hagrees⟩

end Ulog.Prototype
