import Ulog.Record.Truncation

/-!
# The bytes of a Record

A build describes its own bytes: the header gives the source text, the writer the message, and the
metadata of each field its key and its value. These ranges never overlap. During the build they
fill the memory below `front_end` and the memory from `field_tail` up to the limit, and nothing else
is written. So the sum that `Publish` computes from its counters is the number of bytes there are,
and the limit that it reconstructs is the one that `Begin` was given.
-/

namespace Ulog

open ByteMemory

variable {record : StoredRecord} {i : ℕ}

/-! ## The ranges of a build -/

/-- The ranges of the fields that are chained from `off`: metadata, key, and the value of a
string. -/
def fieldRanges (m : Mem) : ℕ → ℕ → List Range
  | 0, _ => []
  | count + 1, off =>
    let f := SerializedField.read m off
    ⟨off, serializedFieldMetadataBytes⟩ :: ⟨f.keyOffset, f.keySize⟩ ::
      (if f.kind = FieldKind.string.toByte then [⟨f.valueLow, f.valueHigh⟩] else []) ++
      fieldRanges m count f.nextOffset

/-- The ranges of header, source text and message. -/
def RecordBuild.frontRanges (b : RecordBuild) : List Range :=
  let h := SerializedRecordHeader.read b.slot.storage 0
  [⟨0, serializedRecordMetadataBytes⟩, ⟨h.sourcePathOffset, h.sourcePathSize⟩,
    ⟨h.sourceFunctionOffset, h.sourceFunctionSize⟩,
    ⟨b.writer.messageOffset, b.writer.messageSize⟩]

/-- All ranges of a build, as its own bytes and its writer describe them. -/
def RecordBuild.ranges (b : RecordBuild) : List Range :=
  b.frontRanges ++ fieldRanges b.slot.storage b.writer.fieldCount b.writer.firstFieldOffset

/-- The limit that `Publish` reconstructs. -/
def RecordWriter.serializedLimit (w : RecordWriter) : ℕ :=
  w.fieldTail + serializedFieldMetadataBytes * w.fieldCount + w.fieldPayloadBytes

/-- The build stays within its limit. -/
structure RecordBuild.Within (limit : ℕ) (b : RecordBuild) : Prop where
  frontEnd_le : b.writer.frontEnd ≤ b.writer.fieldTail
  fieldTail_le : b.writer.fieldTail ≤ limit
  serializedLimit : b.writer.serializedLimit = limit
  disjoint : b.ranges.Pairwise Range.Disjoint
  inside : ∀ r ∈ b.ranges, ∀ i, r.Contains i → i < limit

/-! ## Where the ranges lie -/

/-- The ranges of one field fill its block. -/
theorem tiles_metadata (e : FieldEntry) (off next : ℕ) :
    Tiles off (off + e.size)
      (⟨off, serializedFieldMetadataBytes⟩ ::
        ⟨(e.metadata off next).keyOffset, (e.metadata off next).keySize⟩ ::
        (if (e.metadata off next).kind = FieldKind.string.toByte then
          [⟨(e.metadata off next).valueLow, (e.metadata off next).valueHigh⟩] else [])) := by
  have hkey : Tiles off (off + serializedFieldMetadataBytes + e.1.length)
      ([⟨off, serializedFieldMetadataBytes⟩] ++
        [⟨off + serializedFieldMetadataBytes, e.1.length⟩]) :=
    (Tiles.singleton _ _).append (Tiles.singleton _ _)
  have hsize : off + e.size =
      off + serializedFieldMetadataBytes + e.1.length + e.2.payload.length := by
    rw [FieldEntry.size]
    omega
  have hvalue : Tiles (off + serializedFieldMetadataBytes + e.1.length) (off + e.size)
      (if (e.metadata off next).kind = FieldKind.string.toByte then
        [⟨(e.metadata off next).valueLow, (e.metadata off next).valueHigh⟩] else []) := by
    rw [hsize]
    obtain ⟨key, value⟩ := e
    cases value with
    | string value =>
      have hkind : (FieldEntry.metadata (key, .string value) off next).kind =
        FieldKind.string.toByte := rfl
      rw [if_pos hkind]
      cases value with
      | nil =>
        simp only [FieldEntry.metadata, FieldValue.payload, FieldValue.scalarBits,
          List.isEmpty_nil, if_true, Nat.zero_mod, Nat.zero_div]
        exact Tiles.singleton_empty _ 0
      | cons c value => exact Tiles.singleton _ _
    | int64 | uint64 | double | bool | null => exact Tiles.nil _
  exact hkey.append hvalue

/-- The ranges of the fields fill the memory from the field tail to the limit. -/
theorem tiles_fieldRanges {m : Mem} {hi : ℕ} {es : List FieldEntry} (h : FieldChain m 0 hi es)
    (hfit : fieldBytes es ≤ hi) :
    Tiles (hi - fieldBytes es) hi (fieldRanges m es.length (chainHead hi 0 es)) := by
  induction es generalizing hi with
  | nil => exact Tiles.nil hi
  | cons e es ih =>
    rw [fieldBytes_cons] at hfit ⊢
    obtain ⟨hstored, hchain⟩ := h
    rw [List.length_cons, fieldRanges, chainHead, hstored.metadata]
    have hfield := tiles_metadata e (hi - e.size) (chainHead (hi - e.size) 0 es)
    rw [Nat.sub_add_cancel (by omega)] at hfield
    have hrest := ih hchain (by omega)
    rw [Nat.sub_sub] at hrest
    exact hfield.append_below hrest

/-- A build at rest: the writer's numbers agree with the bytes. -/
structure Placed (limit : ℕ) (source : SourceLocation) (b : RecordBuild) (msg : Bytes)
    (es : List FieldEntry) : Prop where
  sourcePathOffset : (SerializedRecordHeader.read b.slot.storage 0).sourcePathOffset =
    serializedRecordMetadataBytes
  sourcePathSize : (SerializedRecordHeader.read b.slot.storage 0).sourcePathSize =
    source.fileName.length
  sourceFunctionOffset : (SerializedRecordHeader.read b.slot.storage 0).sourceFunctionOffset =
    serializedRecordMetadataBytes + source.fileName.length
  sourceFunctionSize : (SerializedRecordHeader.read b.slot.storage 0).sourceFunctionSize =
    source.functionName.length
  messageOffset : b.writer.messageOffset = messageStart source
  messageSize : b.writer.messageSize = msg.length
  frontEnd : b.writer.frontEnd = messageStart source + msg.length
  frontEnd_le : b.writer.frontEnd ≤ b.writer.fieldTail
  fieldTail : b.writer.fieldTail + fieldBytes es = limit
  fieldCount : b.writer.fieldCount = es.length
  firstFieldOffset : b.writer.firstFieldOffset = chainHead limit 0 es
  counted : Counted source b.writer es
  chain : FieldChain b.slot.storage 0 limit es

variable {limit : ℕ} {level : Level} {source : SourceLocation} {timestamp : Int64}
  {b b' : RecordBuild} {msg asked : Bytes} {es : List FieldEntry}

namespace Placed

section

variable (h : Placed limit source b msg es)

include h

theorem frontTiles : Tiles 0 b.writer.frontEnd b.frontRanges := by
  rw [RecordBuild.frontRanges, h.sourcePathOffset, h.sourcePathSize, h.sourceFunctionOffset,
    h.sourceFunctionSize, h.messageOffset, h.messageSize, h.frontEnd]
  have hheader := Tiles.singleton 0 serializedRecordMetadataBytes
  rw [Nat.zero_add] at hheader
  exact hheader.append ((Tiles.singleton _ _).append ((Tiles.singleton _ _).append
    (Tiles.singleton _ _)))

theorem fieldTiles :
    Tiles b.writer.fieldTail limit
      (fieldRanges b.slot.storage b.writer.fieldCount b.writer.firstFieldOffset) := by
  have htail := h.fieldTail
  rw [h.fieldCount, h.firstFieldOffset, show b.writer.fieldTail = limit - fieldBytes es by omega]
  exact tiles_fieldRanges h.chain (by omega)

theorem within : b.Within limit := by
  have hle := h.frontEnd_le
  have htail := h.fieldTail
  have hfields := h.counted.fields
  refine ⟨hle, by omega, ?_, h.frontTiles.disjoint_append h.fieldTiles (.inl hle), ?_⟩
  · rw [RecordWriter.serializedLimit, h.fieldCount]
    omega
  · intro r hr i hi
    rcases List.mem_append.mp hr with hr | hr
    · have := (h.frontTiles.contains i).mp ⟨r, hr, hi⟩
      omega
    · exact ((h.fieldTiles.contains i).mp ⟨r, hr, hi⟩).2

theorem size_ranges :
    (b.ranges.map Range.size).sum = messageStart source + msg.length + fieldBytes es := by
  have htail := h.fieldTail
  have hfront := h.frontEnd
  rw [RecordBuild.ranges, List.map_append, List.sum_append, h.frontTiles.size, h.fieldTiles.size]
  omega

/-- Every byte outside the gap is in one of the ranges. -/
theorem contains (hi : i < limit) (hgap : ¬(b.writer.frontEnd ≤ i ∧ i < b.writer.fieldTail)) :
    ∃ r ∈ b.ranges, r.Contains i := by
  rw [RecordBuild.ranges, Tiles.exists_mem_append, h.frontTiles.contains, h.fieldTiles.contains]
  omega

end

end Placed

theorem Building.placed (h : Building limit level source timestamp b msg es)
    (hc : Counted source b.writer es) : Placed limit source b msg es :=
  { h with
    sourcePathOffset := by rw [h.parts.header]; rfl
    sourcePathSize := by rw [h.parts.header]; rfl
    sourceFunctionOffset := by rw [h.parts.header]; rfl
    sourceFunctionSize := by rw [h.parts.header]; rfl
    counted := hc
    chain := h.parts.chain }

theorem Building.placed_sealRecord (h : Building limit level source timestamp b msg es)
    (hc : Counted source b.writer es) {truncated : Bool}
    (hseal : b.sealRecord truncated = (b', some record)) : Placed limit source b' msg es := by
  obtain ⟨hparts, -, -⟩ := h.sealRecord hseal
  have hwriter : b'.writer = { b.writer with attached := false } := by
    rw [RecordBuild.sealRecord] at hseal
    dsimp only at hseal
    split at hseal
    · cases hseal
    · cases hseal
      rfl
  have hheader := hparts.header
  refine ⟨by rw [hheader]; rfl, by rw [hheader]; rfl, by rw [hheader]; rfl, by rw [hheader]; rfl,
    ?_, ?_, ?_, ?_, ?_, ?_, ?_, ?_, hparts.chain⟩ <;> rw [hwriter]
  · exact h.messageOffset
  · exact h.messageSize
  · exact h.frontEnd
  · exact h.frontEnd_le
  · exact h.fieldTail
  · exact h.fieldCount
  · exact h.firstFieldOffset
  · exact ⟨hc.source, hc.fields⟩

/-! ## What is written -/

/-- The memory of the gap and above the limit is as it was before. -/
def Untouched (before : Mem) (limit : ℕ) (b : RecordBuild) : Prop :=
  ∀ i, (b.writer.frontEnd ≤ i ∧ i < b.writer.fieldTail) ∨ limit ≤ i →
    b.slot.storage i = before i

variable {before : Mem} {slot : RecordSlot}

theorem untouched_of_begin (h : slot.begin limit level source timestamp = some b) :
    Untouched slot.storage limit b := by
  intro i hi
  have hstart := (building_of_begin h).frontEnd_le
  have htail := (building_of_begin h).fieldTail
  rw [fieldBytes_nil] at htail
  rw [RecordSlot.begin] at h
  split at h
  · cases h
  · cases h
    dsimp only at hi hstart htail ⊢
    rw [write_apply_of_outside (Or.inr (by omega)), write_apply_of_outside (Or.inr (by omega)),
      SerializedRecordHeader.write, write_apply_of_outside]
    rw [SerializedRecordHeader.length_pack]
    omega

theorem Untouched.appendBytes (hu : Untouched before limit b)
    (h : Building limit level source timestamp b msg es) (value : Bytes) :
    Untouched before limit (b.appendBytes value).1 := by
  have hle := h.frontEnd_le
  have htail := h.fieldTail
  intro i hi
  simp only [RecordBuild.appendBytes, h.attached, Bool.not_true, Bool.false_eq_true,
    if_false] at hi ⊢
  rw [write_apply_of_outside, hu i (by omega)]
  rw [List.length_take]
  omega

/-- A field changes only its block and the link above it. -/
theorem Building.addField_storage (h : Building limit level source timestamp b msg es)
    (e : FieldEntry) (hi : i < (b.addField e.1 e.2).1.writer.fieldTail ∨ limit ≤ i) :
    (b.addField e.1 e.2).1.slot.storage i = b.slot.storage i := by
  by_cases hfit : e.size ≤ b.writer.fieldTail - b.writer.frontEnd
  · have h24 : serializedFieldMetadataBytes = 24 := rfl
    have hsize := e.metadataBytes_le_size
    have htail := h.fieldTail
    obtain ⟨off, hoff⟩ : ∃ off, off + e.size = b.writer.fieldTail :=
      ⟨b.writer.fieldTail - e.size, by omega⟩
    rw [h.addField_eq hoff (by omega)] at hi ⊢
    dsimp only at hi ⊢
    split
    · exact storeField_apply_of_outside (by omega)
    · next hlinked =>
      have hlast := h.lastFieldOffset
      split at hlast
      · exact absurd hlast hlinked
      · next hne =>
        obtain ⟨e', es', rfl⟩ := List.exists_cons_of_ne_nil hne
        have hsize' := e'.metadataBytes_le_size
        rw [fieldBytes_cons] at htail
        rw [linkField_apply_of_outside (by omega), storeField_apply_of_outside (by omega)]
  · rw [Building.addField_of_not_fits (by omega)]

theorem Untouched.addField (hu : Untouched before limit b)
    (h : Building limit level source timestamp b msg es) (e : FieldEntry) :
    Untouched before limit (b.addField e.1 e.2).1 := by
  intro i hi
  rw [h.addField_storage e (by omega)]
  refine hu i ?_
  by_cases hfit : e.size ≤ b.writer.fieldTail - b.writer.frontEnd
  · obtain ⟨off, hoff⟩ : ∃ off, off + e.size = b.writer.fieldTail :=
      ⟨b.writer.fieldTail - e.size, by omega⟩
    have hle := h.frontEnd_le
    rw [h.addField_eq hoff (by omega)] at hi
    dsimp only at hi
    omega
  · rwa [Building.addField_of_not_fits (by omega)] at hi

theorem Untouched.calls (conv : Charconv) (cs : List RecordCall) (hu : Untouched before limit b)
    (h : Building limit level source timestamp b msg es) :
    Untouched before limit (b.calls conv cs) := by
  induction cs generalizing b msg es with
  | nil => exact hu
  | cons c cs ih =>
    rw [RecordBuild.calls, List.foldl_cons, ← RecordBuild.calls]
    cases c with
    | append value =>
      rw [RecordBuild.call, RecordBuild.append]
      split
      · exact ih (hu.appendBytes h _) (h.appendBytes _)
      · exact ih hu h
    | addField key value =>
      rw [RecordBuild.call]
      have hnew := hu.addField h (key, value)
      by_cases hfit : FieldEntry.size (key, value) ≤ b.writer.fieldTail - b.writer.frontEnd
      · exact ih hnew (h.addField (e := (key, value)) hfit).2
      · rw [Building.addField_of_not_fits (e := (key, value)) (by omega)] at hnew ⊢
        exact ih hnew h

/-- What has changed is in one of the ranges. -/
theorem Placed.written (h : Placed limit source b msg es) (hu : Untouched before limit b)
    (hi : b.slot.storage i ≠ before i) : ∃ r ∈ b.ranges, r.Contains i := by
  have hnot := mt (hu i) hi
  exact h.contains (by omega) (by omega)

/-! ## Publication -/

theorem Building.addTruncatedField_storage (h : Building limit level source timestamp b msg es)
    (hi : limit ≤ i) : b.addTruncatedField.1.slot.storage i = b.slot.storage i := by
  have hsize := h.messageSize
  rw [RecordBuild.addTruncatedField]
  dsimp only
  split
  · split
    · rfl
    · have hcut := h.cutMessage (n := b.writer.messageSize - (serializedFieldMetadataBytes +
        truncatedFieldKey.length - (b.writer.fieldTail - b.writer.frontEnd))) (by omega)
      exact hcut.addField_storage (truncatedFieldKey, .bool true) (.inr hi)
  · exact h.addField_storage (truncatedFieldKey, .bool true) (.inr hi)

/-- A published Record was sealed over a build that kept to its limit. -/
theorem Building.publish_sealed (h : Building limit level source timestamp b msg es)
    (hc : Counted source b.writer es) (hpublish : b.publish = (b', some record)) :
    ∃ b₁ msg₁ es₁ truncated, Building limit level source timestamp b₁ msg₁ es₁ ∧
      Counted source b₁.writer es₁ ∧ b₁.sealRecord truncated = (b', some record) ∧
      ∀ i, limit ≤ i → b₁.slot.storage i = b.slot.storage i := by
  have hcut := h.cutMessage (n := b.writer.messageSize) h.messageSize.le
  have hcutCounted : Counted source (b.cutMessage b.writer.messageSize).writer es :=
    ⟨hc.source, hc.fields⟩
  rw [h.publish_eq] at hpublish
  split at hpublish
  · split at hpublish
    · next marked hmarked =>
      obtain ⟨n, hbuild⟩ := hcut.addTruncatedField hmarked
      have hcounted := hcutCounted.addTruncatedField (congrArg Prod.snd hmarked)
      rw [hmarked] at hcounted
      refine ⟨marked, _, _, true, hbuild, hcounted, hpublish, fun i hi ↦ ?_⟩
      have hsame := hcut.addTruncatedField_storage hi
      rw [hmarked] at hsame
      exact hsame
    · cases hpublish
  · exact ⟨_, _, _, false, hcut, hcutCounted, hpublish, fun _ _ ↦ rfl⟩

/-- The sizes of a published Record are those of its ranges. -/
structure StoredRecord.Exact (limit : ℕ) (b : RecordBuild) (record : StoredRecord) : Prop where
  within : b.Within limit
  serialized : record.serializedBytes = (b.ranges.map Range.size).sum
  charge : record.accountingChargeBytes =
    max accountingQuantumBytes ((record.serializedBytes + (accountingQuantumBytes - 1)) /
      accountingQuantumBytes * accountingQuantumBytes)
  charge_le : record.accountingChargeBytes ≤ limit

theorem accountingCharge_eq_max {bytes : ℕ} (hbytes : bytes ≤ maximumRecordBytes) :
    accountingCharge bytes =
      max accountingQuantumBytes ((bytes + (accountingQuantumBytes - 1)) /
        accountingQuantumBytes * accountingQuantumBytes) := by
  have hq : accountingQuantumBytes = 64 := rfl
  have h64 : wordModulus = 2 ^ 64 := rfl
  have h16384 : maximumRecordBytes = 16384 := rfl
  rw [accountingCharge, hq, if_neg (by omega)]
  omega

theorem Building.publish_exact (h : Building limit level source timestamp b msg es)
    (hc : Counted source b.writer es) (hlimit : limit % accountingQuantumBytes = 0)
    (hpublish : b.publish = (b', some record)) :
    record.Exact limit b' ∧ ∀ i, limit ≤ i → b'.slot.storage i = b.slot.storage i := by
  obtain ⟨b₁, msg₁, es₁, truncated, hbuild, hcounted, hseal, hsame⟩ :=
    h.publish_sealed hc hpublish
  obtain ⟨b₂, record₂, hseal₂, -, hsized⟩ := hbuild.sealRecord_sized hcounted hlimit truncated
  cases hseal.symm.trans hseal₂
  have hplaced := hbuild.placed_sealRecord hcounted hseal
  have hle := hsized.serialized_le
  have hle' := hsized.charge_le
  have hmax := h.limit_le
  refine ⟨⟨hplaced.within, ?_, ?_, hle'⟩, fun i hi ↦ ?_⟩
  · rw [hsized.serialized, hplaced.size_ranges]
  · rw [hsized.charge, hsized.serialized, accountingCharge_eq_max (by omega)]
  · have h56 : serializedRecordMetadataBytes = 56 := rfl
    have hfront := hbuild.frontEnd_le
    have hend := hbuild.frontEnd
    have htail := hbuild.fieldTail
    rw [messageStart] at hend
    rw [RecordBuild.sealRecord] at hseal
    dsimp only at hseal
    split at hseal
    · cases hseal
    · cases hseal
      dsimp only
      rw [SerializedRecordHeader.write, write_apply_of_outside, hsame i hi]
      rw [SerializedRecordHeader.length_pack]
      omega

/-- A build that keeps to its limit and writes its ranges only; if it is published, the sizes of
the Record are exact, and it is published whenever the truncation mark fits. -/
structure RecordBuild.Exact (limit : ℕ) (before : Mem) (b : RecordBuild) : Prop where
  within : b.Within limit
  written : ∀ i, b.slot.storage i ≠ before i → ∃ r ∈ b.ranges, r.Contains i
  publishes : b.publish.2 = none → ¬b.MarkFits
  published : ∀ finished record, b.publish = (finished, some record) →
    record.Exact limit finished ∧ ∀ i, limit ≤ i → finished.slot.storage i = before i

/-- Every build sequence keeps to its limit. -/
theorem exact_calls (conv : Charconv) (hlimit : limit % accountingQuantumBytes = 0)
    (hbegin : slot.begin limit level source timestamp = some b) (cs : List RecordCall) :
    (b.calls conv cs).Exact limit slot.storage := by
  obtain ⟨msg, hbuild, hasked⟩ := building_calls conv cs (building_of_begin hbegin)
    (appending_of_begin hbegin)
  have hcounted := (counted_of_begin hbegin).calls conv cs
  have huntouched := (untouched_of_begin hbegin).calls conv cs (building_of_begin hbegin)
  have hplaced := hbuild.placed hcounted
  refine ⟨hplaced.within, fun i hi ↦ hplaced.written huntouched hi, fun hnone hfits ↦ ?_,
    fun finished record hpublish ↦ ?_⟩
  · obtain ⟨_, _, hsome, -⟩ := hbuild.publish_of_markFits hcounted hasked hlimit hfits
    rw [hsome] at hnone
    cases hnone
  · obtain ⟨hexact, hsame⟩ := hbuild.publish_exact hcounted hlimit hpublish
    exact ⟨hexact, fun i hi ↦ (hsame i hi).trans (huntouched i (.inr hi))⟩

end Ulog
