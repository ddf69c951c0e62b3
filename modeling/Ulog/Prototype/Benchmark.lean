import Ulog.Prototype.Refinement
import Ulog.Record.Message

/-!
# The predicted footprint is the built one

Admission charges a benchmark Record before it is built: `DescribeRecord` cuts the message to the
bytes that a slot can hold beside the fixed parts and counts. `BuildBenchmarkRecord` then stores
six fields and formats the message byte by byte into exactly the predicted bytes.

Both cut to well-formed UTF-8, at different places: the prediction cuts the message after the
largest room there is, the writer what found room in the predicted size. The second cut keeps what
the first one kept, because a well-formed prefix is not cut again.
-/

namespace Ulog.Prototype

open ByteMemory

/-! ## The benchmark Record -/

/-- `benchmarks/record_storage_benchmark.cpp`. -/
def benchmarkSourcePath : Bytes :=
  [0x62, 0x65, 0x6e, 0x63, 0x68, 0x6d, 0x61, 0x72, 0x6b, 0x73, 0x2f, 0x72, 0x65, 0x63, 0x6f, 0x72,
    0x64, 0x5f, 0x73, 0x74, 0x6f, 0x72, 0x61, 0x67, 0x65, 0x5f, 0x62, 0x65, 0x6e, 0x63, 0x68, 0x6d,
    0x61, 0x72, 0x6b, 0x2e, 0x63, 0x70, 0x70]

/-- `TryProduce`. -/
def benchmarkSourceFunction : Bytes :=
  [0x54, 0x72, 0x79, 0x50, 0x72, 0x6f, 0x64, 0x75, 0x63, 0x65]

/-- `kind`. -/
def benchmarkStringFieldKey : Bytes :=
  [0x6b, 0x69, 0x6e, 0x64]

/-- `benchmark`. -/
def benchmarkStringFieldValue : Bytes :=
  [0x62, 0x65, 0x6e, 0x63, 0x68, 0x6d, 0x61, 0x72, 0x6b]

/-- `signed`. -/
def benchmarkInt64FieldKey : Bytes :=
  [0x73, 0x69, 0x67, 0x6e, 0x65, 0x64]

/-- `unsigned`. -/
def benchmarkUInt64FieldKey : Bytes :=
  [0x75, 0x6e, 0x73, 0x69, 0x67, 0x6e, 0x65, 0x64]

/-- `ratio`. -/
def benchmarkDoubleFieldKey : Bytes :=
  [0x72, 0x61, 0x74, 0x69, 0x6f]

/-- `sampled`. -/
def benchmarkBoolFieldKey : Bytes :=
  [0x73, 0x61, 0x6d, 0x70, 0x6c, 0x65, 0x64]

/-- `optional`. -/
def benchmarkNullFieldKey : Bytes :=
  [0x6f, 0x70, 0x74, 0x69, 0x6f, 0x6e, 0x61, 0x6c]

def benchmarkSourceLine : UInt32 := 91

def benchmarkEventTimestamp : Int64 := 1704067200123456

def benchmarkFieldCount : ℕ := 6

def benchmarkFixedMetadataBytes : ℕ :=
  serializedRecordMetadataBytes + benchmarkFieldCount * serializedFieldMetadataBytes

def benchmarkFixedPayloadBytes : ℕ :=
  benchmarkSourcePath.length + benchmarkSourceFunction.length + benchmarkStringFieldKey.length +
    benchmarkStringFieldValue.length + benchmarkInt64FieldKey.length +
    benchmarkUInt64FieldKey.length + benchmarkDoubleFieldKey.length +
    benchmarkBoolFieldKey.length + benchmarkNullFieldKey.length

def maximumBenchmarkStoredMessageBytes : ℕ :=
  maximumSerializedBytes - benchmarkFixedMetadataBytes - benchmarkFixedPayloadBytes

def benchmarkRecordSeed : RecordSeed where
  sourcePath := benchmarkSourcePath
  sourceFunction := benchmarkSourceFunction
  sourceLine := benchmarkSourceLine
  eventTimestamp := benchmarkEventTimestamp

def makeBenchmarkRecordFootprint (p : Policy) (requestedMessageBytes storedMessageBytes : ℕ) :
    RecordFootprint :=
  let ownedPayloadBytes := benchmarkFixedPayloadBytes + storedMessageBytes
  let serializedBytes := benchmarkFixedMetadataBytes + ownedPayloadBytes
  let accountingChargeBytes := p.accountingCharge serializedBytes
  { requestedMessageBytes := requestedMessageBytes
    storedMessageBytes := storedMessageBytes
    ownedPayloadBytes := ownedPayloadBytes
    metadataBytes := benchmarkFixedMetadataBytes
    fragmentationBytes := accountingChargeBytes - serializedBytes
    accountingChargeBytes := accountingChargeBytes
    minimumAccountingChargeBytes := p.minimumAccountingChargeBytes
    truncated := decide (storedMessageBytes ≠ requestedMessageBytes) }

/-- `DescribeRecord` of a message. -/
def describeRecord (p : Policy) (message : Bytes) : RecordFootprint :=
  let inspectedSize := min message.length maximumBenchmarkStoredMessageBytes
  let storedSize := validUtf8PrefixLength (message.take inspectedSize)
  makeBenchmarkRecordFootprint p message.length storedSize

/-- The bit pattern of `1.25`. -/
def benchmarkDoubleBits : UInt64 := 0x3FF4000000000000

variable {p : Policy}

/-- `AddBenchmarkFields`: all six are tried, whatever the earlier ones returned. -/
def addBenchmarkFields (b : Build p) : Build p × Bool :=
  let r₁ := b.addField benchmarkStringFieldKey (.string benchmarkStringFieldValue)
  let r₂ := r₁.1.addField benchmarkInt64FieldKey (.int64 (-7))
  let r₃ := r₂.1.addField benchmarkUInt64FieldKey (.uint64 42)
  let r₄ := r₃.1.addField benchmarkDoubleFieldKey (.double benchmarkDoubleBits)
  let r₅ := r₄.1.addField benchmarkBoolFieldKey (.bool true)
  let r₆ := r₅.1.addField benchmarkNullFieldKey .null
  (r₆.1, r₆.2 && (r₅.2 && (r₄.2 && (r₃.2 && (r₂.2 && r₁.2)))))

/-- `BuildBenchmarkRecord`, over what `fmt::format_to` emits for a message and the format `{}`. -/
def buildBenchmarkRecord (format : Bytes → Bytes) (b : Build p) (message : Bytes) :
    Build p × Option RecordView :=
  let fields := addBenchmarkFields b
  let formatted := fields.1.formatOutput (format message)
  if !fields.2 then (formatted, none) else formatted.publish

/-- The format `{}` emits the bytes of a text unchanged. -/
def EmitsUnchanged (format : Bytes → Bytes) : Prop := ∀ text, format text = text

/-! ## Storing the fields -/

variable {b : Build p} {d : Draft}

theorem Refines.stores (h : Refines b d) (key : Bytes) (value : FieldValue) {rest : ℕ}
    (hfit : FieldEntry.size (key, value) + rest ≤ d.room) :
    (b.addField key value).2 = true ∧
      Refines (b.addField key value).1 { d with fields := d.fields ++ [(key, value)] } ∧
      rest ≤ Draft.room { d with fields := d.fields ++ [(key, value)] } := by
  obtain ⟨hresult, hrefines⟩ := h.addField (key, value)
  have hstored : d.addField (key, value) =
      ({ d with fields := d.fields ++ [(key, value)] }, true) := if_pos (by omega)
  rw [hstored] at hresult hrefines
  refine ⟨hresult, hrefines, ?_⟩
  have hroom : Draft.room { d with fields := d.fields ++ [(key, value)] } =
      d.limit - fieldBytes (d.fields ++ [(key, value)]) - (d.start + d.message.length) := rfl
  rw [Draft.room] at hfit
  rw [hroom, fieldBytes_append, fieldBytes_cons, fieldBytes_nil]
  omega

/-- The fields of the benchmark Record. -/
def benchmarkFields : List FieldEntry :=
  [(benchmarkStringFieldKey, .string benchmarkStringFieldValue),
    (benchmarkInt64FieldKey, .int64 (-7)), (benchmarkUInt64FieldKey, .uint64 42),
    (benchmarkDoubleFieldKey, .double benchmarkDoubleBits), (benchmarkBoolFieldKey, .bool true),
    (benchmarkNullFieldKey, .null)]

theorem Refines.addBenchmarkFields (h : Refines b d) (hnone : d.fields = [])
    (hfit : fieldBytes benchmarkFields ≤ d.room) :
    (Prototype.addBenchmarkFields b).2 = true ∧
      Refines (Prototype.addBenchmarkFields b).1 { d with fields := benchmarkFields } := by
  obtain ⟨hs₁, h₁, hroom₁⟩ := h.stores benchmarkStringFieldKey (.string benchmarkStringFieldValue)
    hfit
  obtain ⟨hs₂, h₂, hroom₂⟩ := h₁.stores benchmarkInt64FieldKey (.int64 (-7)) hroom₁
  obtain ⟨hs₃, h₃, hroom₃⟩ := h₂.stores benchmarkUInt64FieldKey (.uint64 42) hroom₂
  obtain ⟨hs₄, h₄, hroom₄⟩ := h₃.stores benchmarkDoubleFieldKey (.double benchmarkDoubleBits)
    hroom₃
  obtain ⟨hs₅, h₅, hroom₅⟩ := h₄.stores benchmarkBoolFieldKey (.bool true) hroom₄
  obtain ⟨hs₆, h₆, -⟩ := h₅.stores benchmarkNullFieldKey .null hroom₅
  rw [hnone] at h₆
  refine ⟨?_, h₆⟩
  rw [Prototype.addBenchmarkFields]
  dsimp only
  rw [hs₁, hs₂, hs₃, hs₄, hs₅, hs₆]
  rfl

/-! ## Formatting the message -/

/-- Byte by byte, the message takes the room there is. -/
theorem Draft.formatOutput_eq (d : Draft) (text : Bytes) (hrequested : d.requested < wordModulus) :
    d.formatOutput text =
      { d with
        requested := min (d.requested + text.length) (wordModulus - 1)
        message := d.message ++ text.take d.room } := by
  induction text generalizing d with
  | nil =>
    rw [List.take_nil, List.append_nil, List.length_nil, Nat.add_zero,
      Nat.min_eq_left (by omega)]
    rfl
  | cons byte text ih =>
    have hadd : saturatingAdd d.requested [byte].length =
        min (d.requested + 1) (wordModulus - 1) := by
      have hmin := saturatingAdd_min d.requested 1
      rwa [Nat.min_eq_left (by omega)] at hmin
    have hnext : (d.appendBytes [byte]).1 =
        { d with
          requested := min (d.requested + 1) (wordModulus - 1)
          message := d.message ++ [byte].take (min 1 d.room) } := by
      rw [Draft.appendBytes, hadd]
      rfl
    have hroom : Draft.room
        { d with
          requested := min (d.requested + 1) (wordModulus - 1)
          message := d.message ++ [byte].take (min 1 d.room) } = d.room - 1 := by
      change d.limit - fieldBytes d.fields -
        (d.start + (d.message ++ [byte].take (min 1 d.room)).length) = _
      rw [List.length_append, List.length_take, List.length_singleton, Draft.room]
      omega
    have htake : [byte].take (min 1 d.room) ++ text.take (d.room - 1) =
        (byte :: text).take d.room := by
      cases d.room with
      | zero => rfl
      | succ n => rw [Nat.min_eq_left (by omega)]; rfl
    have hcount : min (min (d.requested + 1) (wordModulus - 1) + text.length) (wordModulus - 1) =
        min (d.requested + (byte :: text).length) (wordModulus - 1) := by
      rw [List.length_cons]
      omega
    change (d.appendBytes [byte]).1.formatOutput text = _
    rw [hnext, ih _ (show min _ _ < wordModulus by omega), hroom]
    simp only [hcount, List.append_assoc, htake]

/-- What was cut to well-formed text is not cut again. -/
theorem validUtf8PrefixLength_take (value : Bytes) :
    validUtf8PrefixLength (value.take (validUtf8PrefixLength value)) =
      validUtf8PrefixLength value := by
  have hle := validUtf8PrefixLength_le value
  obtain ⟨text, htext⟩ : ∃ text, value.take (validUtf8PrefixLength value) = text := ⟨_, rfl⟩
  have hlen : text.length = validUtf8PrefixLength value := by
    rw [← htext, List.length_take]
    omega
  have hwell := (validUtf8PrefixLength_longest value).holds
  rw [htext] at hwell ⊢
  have hlongest := (validUtf8PrefixLength_longest text).longest text (List.prefix_refl _) hwell
  rw [List.length_take] at hlongest
  have hle' := validUtf8PrefixLength_le text
  omega

/-- The size that `DescribeRecord` predicts for the message. -/
def predictedSize (message : Bytes) : ℕ :=
  validUtf8PrefixLength (message.take (min message.length maximumBenchmarkStoredMessageBytes))

theorem predictedSize_le (message : Bytes) :
    predictedSize message ≤ message.length ∧
      predictedSize message ≤ maximumBenchmarkStoredMessageBytes := by
  have hle := validUtf8PrefixLength_le
    (message.take (min message.length maximumBenchmarkStoredMessageBytes))
  rw [List.length_take] at hle
  rw [predictedSize]
  omega

theorem validUtf8PrefixLength_predicted (message : Bytes) :
    validUtf8PrefixLength (message.take (predictedSize message)) = predictedSize message := by
  have hle := validUtf8PrefixLength_le
    (message.take (min message.length maximumBenchmarkStoredMessageBytes))
  have hcut := validUtf8PrefixLength_take
    (message.take (min message.length maximumBenchmarkStoredMessageBytes))
  rw [List.length_take] at hle
  rwa [List.take_take, Nat.min_eq_left (by omega)] at hcut

/-- The Record that `BuildBenchmarkRecord` asks for. -/
def benchmarkDraft (message : Bytes) : Draft where
  seed := benchmarkRecordSeed
  limit := benchmarkFixedMetadataBytes + benchmarkFixedPayloadBytes + predictedSize message
  requested := message.length
  message := message.take (predictedSize message)
  fields := benchmarkFields

theorem benchmarkDraft_footprint (message : Bytes) :
    (benchmarkDraft message).footprint p = describeRecord p message := by
  have hkept : (benchmarkDraft message).kept.length = predictedSize message := by
    rw [Draft.length_kept]
    exact validUtf8PrefixLength_predicted message
  have howned : (benchmarkDraft message).ownedPayloadBytes =
      benchmarkFixedPayloadBytes + predictedSize message := by
    rw [Draft.ownedPayloadBytes, hkept]
    change 49 + predictedSize message + 47 = 96 + predictedSize message
    omega
  have htruncated : (benchmarkDraft message).truncated =
      decide (predictedSize message ≠ message.length) := by
    rw [Draft.truncated, hkept]
    exact decide_eq_decide.mpr ne_comm
  rw [Draft.footprint, howned, hkept, htruncated, show (benchmarkDraft message).metadataBytes =
    benchmarkFixedMetadataBytes from rfl, Nat.add_comm (_ + _)]
  rfl

/-- The built Record has the predicted footprint. -/
theorem benchmark_footprint (format : Bytes → Bytes) (hformat : EmitsUnchanged format)
    (slot : RecordSlot p) (hslot : slot.state = .reset) (message : Bytes)
    (hmessage : message.length < wordModulus) :
    ∃ b, slot.begin benchmarkRecordSeed (describeRecord p message) = some b ∧
      (addBenchmarkFields b).2 = true ∧
      ∃ b' v, buildBenchmarkRecord format b message = (b', some v) ∧
        b'.slot.state = .published ∧ v.fieldCount = benchmarkFieldCount ∧
        v.footprint = describeRecord p message := by
  have hmax : maximumBenchmarkStoredMessageBytes = 16096 := rfl
  have hpayload : benchmarkFixedPayloadBytes = 96 := rfl
  have hfixed : benchmarkFixedMetadataBytes = 192 := rfl
  have hslotBytes : maximumSerializedBytes = 16384 := rfl
  obtain ⟨-, hle⟩ := predictedSize_le message
  have hserialized : (describeRecord p message).serializedBytes =
      benchmarkFixedMetadataBytes + benchmarkFixedPayloadBytes + predictedSize message := by
    change benchmarkFixedPayloadBytes + predictedSize message + benchmarkFixedMetadataBytes = _
    omega
  have hvalid : isValidFootprint p (describeRecord p message) = true := by
    refine isValidFootprint_iff.mpr ⟨by omega, ?_, rfl, ?_, ?_⟩
    · rw [hserialized]
      change 48 ≤ _
      omega
    · rw [hserialized, Nat.add_assoc]
      rfl
    · rw [hserialized, Nat.add_assoc]
      rfl
  have hsource : serializedRecordMetadataBytes + benchmarkRecordSeed.sourcePath.length +
      benchmarkRecordSeed.sourceFunction.length = 97 := rfl
  obtain ⟨b, hb⟩ := Option.isSome_iff_exists.mp (begin_isSome_iff.mpr ⟨hslot, hvalid,
    show serializedRecordMetadataBytes + benchmarkRecordSeed.sourcePath.length +
      benchmarkRecordSeed.sourceFunction.length ≤ _ by omega⟩)
  have hbegin := refines_of_begin hb
  have hbytes : fieldBytes benchmarkFields = 191 := rfl
  have hroom : ∀ fields, Draft.room ⟨benchmarkRecordSeed,
      (describeRecord p message).serializedBytes, 0, [], fields⟩ =
        (describeRecord p message).serializedBytes - fieldBytes fields - 97 :=
    fun _ ↦ rfl
  obtain ⟨hstored, hfields⟩ := hbegin.addBenchmarkFields rfl (by
    rw [hroom, fieldBytes_nil]
    omega)
  have hdraft := hfields.formatOutput message
  have hrequested : min (0 + message.length) (wordModulus - 1) = message.length := by omega
  have hsize : (describeRecord p message).serializedBytes - fieldBytes benchmarkFields - 97 =
      predictedSize message := by omega
  rw [Draft.formatOutput_eq _ _ (show 0 < wordModulus by decide), hroom, hsize, hrequested,
    hserialized, List.nil_append] at hdraft
  obtain ⟨b', v, hpublish, hstate, hshows, hfootprint⟩ :=
    Refines.publish (d := benchmarkDraft message) hdraft
  refine ⟨b, hb, hstored, b', v, ?_, hstate, hshows.fieldCount,
    hfootprint.trans (benchmarkDraft_footprint message)⟩
  rw [buildBenchmarkRecord, hstored, hformat]
  exact hpublish

/-- A message of three bytes that ends inside a character, in chunks. -/
theorem benchmark_footprint_cut :
    ∃ b, (RecordSlot.mk (Policy.zeroed .chunked) .reset).begin benchmarkRecordSeed
        (describeRecord .chunked [0x61, 0xE2, 0x82]) = some b ∧
      ∃ b' v, buildBenchmarkRecord id b [0x61, 0xE2, 0x82] = (b', some v) ∧
        v.footprint.storedMessageBytes = 1 ∧ v.footprint.truncated = true := by
  obtain ⟨b, hb, -, b', v, hv, -, -, hfootprint⟩ :=
    benchmark_footprint id (fun _ ↦ rfl) (RecordSlot.mk (Policy.zeroed .chunked) .reset) rfl
      [0x61, 0xE2, 0x82] (by decide)
  refine ⟨b, hb, b', v, hv, ?_, ?_⟩
  · rw [hfootprint]
    decide +kernel
  · rw [hfootprint]
    decide +kernel

end Ulog.Prototype
