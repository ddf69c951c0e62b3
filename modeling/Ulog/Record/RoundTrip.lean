import Ulog.Record.Building

/-!
# A published Record reads back as it was built

A view reads the header, the texts it points at and the field chain. Each of these reads is
determined by the parts in memory that `Building` carries to publication, so a published Record
shows the calls its builder made.
-/

namespace Ulog

open ByteMemory

variable {b' : RecordBuild}

/-! ## Reading the chain -/

/-- What a field view shows: its key, kind and value. -/
def FieldView.triple (v : FieldView) : Bytes × Option FieldKind × Option FieldValue :=
  (v.key, v.kind, v.value)

/-- What a view of the field must show. -/
def FieldEntry.triple (e : FieldEntry) : Bytes × Option FieldKind × Option FieldValue :=
  (e.1, some e.2.kind, some e.2)

theorem halves_or {n : ℕ} (h : n < 2 ^ 64) :
    n % 2 ^ 32 ||| (n / 2 ^ 32 % 2 ^ 32) <<< 32 = n := by
  rw [Nat.or_comm, ← Nat.shiftLeft_add_eq_or_of_lt (Nat.mod_lt _ (by decide)), Nat.shiftLeft_eq]
  omega

namespace FieldStored

variable {m : Mem} {off next : ℕ} {e : FieldEntry}

section

variable (h : FieldStored m off next e)

include h

theorem key_eq : (⟨m, off⟩ : FieldView).key = e.1 := by
  rw [FieldView.key, FieldView.field, h.metadata]
  exact h.key

theorem kind_eq : (⟨m, off⟩ : FieldView).kind = some e.2.kind := by
  rw [FieldView.kind, FieldView.field, h.metadata]
  exact FieldKind.ofByte_toByte _

theorem bits_eq (hempty : e.2.payload = []) :
    (⟨m, off⟩ : FieldView).bits = UInt64.ofNat e.2.scalarBits := by
  rw [FieldView.bits, FieldView.field, h.metadata]
  simp only [FieldEntry.metadata, hempty, List.isEmpty_nil, if_true]
  rw [halves_or e.2.scalarBits_lt]

theorem asString_eq (hkind : e.2.kind = .string) :
    (⟨m, off⟩ : FieldView).asString = some e.2.payload := by
  rw [FieldView.asString, h.kind_eq, hkind, if_pos rfl, FieldView.field, h.metadata]
  simp only [FieldEntry.metadata]
  by_cases hempty : e.2.payload = []
  · obtain ⟨key, value⟩ := e
    cases value with
    | string value => simp_all [FieldValue.payload, FieldValue.scalarBits, text]
    | _ => cases hkind
  · rw [if_neg (by simpa using hempty), if_neg (by simpa using hempty), text, h.payload]

theorem triple_eq : (⟨m, off⟩ : FieldView).triple = e.triple := by
  rw [FieldView.triple, h.key_eq, FieldView.value, h.kind_eq, FieldEntry.triple]
  obtain ⟨key, value⟩ := e
  cases value with
  | string value =>
    simp only [FieldValue.kind]
    rw [h.asString_eq rfl]
    rfl
  | int64 value =>
    simp [FieldValue.kind, FieldView.asInt64, h.kind_eq, h.bits_eq rfl, FieldValue.scalarBits]
  | uint64 value =>
    simp [FieldValue.kind, FieldView.asUInt64, h.kind_eq, h.bits_eq rfl, FieldValue.scalarBits]
  | double bits =>
    simp [FieldValue.kind, FieldView.asDouble, h.kind_eq, h.bits_eq rfl, FieldValue.scalarBits]
  | bool value =>
    have hflags : (⟨m, off⟩ : FieldView).field.flags = if value then 1 else 0 := by
      rw [FieldView.field, h.metadata]
      rfl
    cases value <;> simp [FieldValue.kind, FieldView.asBool, h.kind_eq, hflags]
  | null => simp [FieldValue.kind, FieldView.isNull, h.kind_eq]

end

end FieldStored

theorem FieldCursor.skip_next_of_remaining_zero (c : FieldCursor) (h : c.remaining = 0) (n : ℕ) :
    (c.skip n).next.1 = none := by
  induction n generalizing c with
  | zero => simp [skip, next, h]
  | succ n ih =>
    rw [skip]
    exact ih _ (by simp [next, h])

/-- The `n`-th answer of the cursor is the `n`-th field of the chain, and none beyond. -/
theorem cursor_of_fieldChain {m : Mem} {hi : ℕ} {es : List FieldEntry} (h : FieldChain m 0 hi es)
    (hfit : fieldBytes es < hi) (n : ℕ) :
    ((FieldCursor.mk m (chainHead hi 0 es) es.length).skip n).next.1.map FieldView.triple
      = es[n]?.map FieldEntry.triple := by
  induction es generalizing hi n with
  | nil =>
    rw [FieldCursor.skip_next_of_remaining_zero _ rfl]
    rfl
  | cons e es ih =>
    rw [fieldBytes_cons] at hfit
    have hnext : (FieldCursor.mk m (chainHead hi 0 (e :: es)) (e :: es).length).next
        = (some ⟨m, hi - e.size⟩, ⟨m, chainHead (hi - e.size) 0 es, es.length⟩) := by
      have hlink : (SerializedField.read m (hi - e.size)).nextOffset
          = chainHead (hi - e.size) 0 es := by
        rw [h.1.metadata]
        rfl
      rw [FieldCursor.next, if_neg]
      · simp only [chainHead, hlink]
        rfl
      · simp only [chainHead, List.length_cons]
        omega
    cases n with
    | zero =>
      rw [FieldCursor.skip, hnext, Option.map_some, h.1.triple_eq]
      rfl
    | succ n =>
      rw [FieldCursor.skip, hnext, ih h.2 (by omega)]
      rfl

/-! ## What a view shows -/

/-- The logical content of a Record. -/
structure RecordContent where
  level : Level
  eventTimestamp : Int64
  source : SourceLocation
  message : Bytes
  fields : List FieldEntry
  truncated : Bool

/-- The view shows exactly this content: every accessor, the cursor's `n`-th answer for every `n`,
and `FieldAt` at every index. -/
structure RecordView.Reads (v : RecordView) (c : RecordContent) : Prop where
  level : v.level = some c.level
  eventTimestamp : v.eventTimestamp = c.eventTimestamp
  sourcePath : v.sourcePath = c.source.fileName
  sourceFunction : v.sourceFunction = c.source.functionName
  sourceLine : v.sourceLine = c.source.line
  sourceColumn : v.sourceColumn = c.source.column
  message : v.message = c.message
  truncated : v.truncated = c.truncated
  fieldCount : v.fieldCount = c.fields.length
  cursor : ∀ n, (v.fields.skip n).next.1.map FieldView.triple = c.fields[n]?.map FieldEntry.triple
  fieldAt : ∀ i, (v.fieldAt i).map FieldView.triple = c.fields[i]?.map FieldEntry.triple

/-- The header of a published Record. -/
def publishedHeader (limit : ℕ) (c : RecordContent) : SerializedRecordHeader :=
  { initialHeader c.level c.source c.eventTimestamp with
    messageSize := c.message.length
    firstFieldOffset := chainHead limit 0 c.fields
    fieldCount := c.fields.length
    flags := if c.truncated then 1 else 0 }

/-- The parts in memory determine everything a view shows. -/
theorem StoredParts.reads {limit : ℕ} {m : Mem} {c : RecordContent}
    (h : StoredParts limit c.source m (publishedHeader limit c) c.message c.fields)
    (hfit : fieldBytes c.fields < limit) (serialized charge : ℕ) :
    (RecordView.mk m serialized charge).Reads c := by
  have hheader : (RecordView.mk m serialized charge).header = publishedHeader limit c := h.header
  have hcursor : ∀ n, ((RecordView.mk m serialized charge).fields.skip n).next.1.map
      FieldView.triple = c.fields[n]?.map FieldEntry.triple := by
    intro n
    rw [RecordView.fields, hheader]
    exact cursor_of_fieldChain h.chain hfit n
  have hcount : (RecordView.mk m serialized charge).fieldCount = c.fields.length := by
    rw [RecordView.fieldCount, hheader]
    rfl
  refine ⟨?_, ?_, ?_, ?_, ?_, ?_, ?_, ?_, hcount, hcursor, fun i ↦ ?_⟩
  · rw [RecordView.level, hheader]
    exact Level.ofByte_toByte _
  · rw [RecordView.eventTimestamp, hheader]
    rfl
  · rw [RecordView.sourcePath, hheader]
    exact h.path
  · rw [RecordView.sourceFunction, hheader]
    exact h.function
  · rw [RecordView.sourceLine, hheader]
    rfl
  · rw [RecordView.sourceColumn, hheader]
    rfl
  · rw [RecordView.message, hheader]
    exact h.message
  · rw [RecordView.truncated, hheader]
    cases hc : c.truncated <;> simp [publishedHeader, hc]
  · rw [RecordView.fieldAt, hcount]
    by_cases hi : c.fields.length ≤ i
    · rw [if_pos hi, List.getElem?_eq_none hi]
      rfl
    · rw [if_neg hi, hcursor]

/-! ## Publication -/

section Publish

variable {limit : ℕ} {level : Level} {source : SourceLocation} {timestamp : Int64}
variable {b : RecordBuild} {msg asked : Bytes} {es : List FieldEntry}

theorem Building.sealRecord (h : Building limit level source timestamp b msg es) {truncated : Bool}
    {record : StoredRecord} (hseal : b.sealRecord truncated = (b', some record)) :
    StoredParts limit source b'.slot.storage
        (publishedHeader limit ⟨level, timestamp, source, msg, es, truncated⟩) msg es ∧
      b'.slot.state = .published ∧ record.truncated = truncated := by
  have h56 : serializedRecordMetadataBytes = 56 := rfl
  have hmax : maximumRecordBytes = 16384 := rfl
  have hlimit := h.limit_le
  have hfront := h.frontEnd
  have hle := h.frontEnd_le
  have htail := h.fieldTail
  have hcount := length_le_fieldBytes es
  have hstart : serializedRecordMetadataBytes ≤ messageStart source := by
    rw [messageStart]
    omega
  have hchain : chainHead limit 0 es ≤ limit := by
    cases es with
    | nil => exact Nat.zero_le _
    | cons e es => exact Nat.sub_le _ _
  obtain ⟨c, hc⟩ : ∃ c, (⟨level, timestamp, source, msg, es, truncated⟩ : RecordContent) = c :=
    ⟨_, rfl⟩
  have hinit : (initialHeader level source timestamp).Fits :=
    initialHeader_fits hlimit h.line_le h.column_le (by omega)
  have hfits : (publishedHeader limit c).Fits := by
    subst hc
    refine { hinit with
      messageSize := ?_, firstFieldOffset := ?_, fieldCount := ?_, flags := ?_ } <;>
      simp only [publishedHeader]
    · omega
    · omega
    · omega
    · split <;> decide
  have hheader : { SerializedRecordHeader.read b.slot.storage 0 with
        messageSize := b.writer.messageSize
        firstFieldOffset := b.writer.firstFieldOffset
        fieldCount := b.writer.fieldCount
        flags := if truncated then 1 else 0 } = publishedHeader limit c := by
    rw [h.parts.header, h.messageSize, h.firstFieldOffset, h.fieldCount, ← hc]
    rfl
  have hparts : StoredParts limit source ((publishedHeader limit c).write b.slot.storage 0)
      (publishedHeader limit c) msg es := by
    have hpack := SerializedRecordHeader.length_pack (publishedHeader limit c)
    refine h.parts.congr h.fieldBytes_le (SerializedRecordHeader.read_write hfits _ _)
      (fun i hi _ ↦ ?_) (fun i hi _ ↦ ?_)
    · rw [SerializedRecordHeader.write, write_apply_of_outside (Or.inr (by omega))]
    · rw [SerializedRecordHeader.write, write_apply_of_outside (Or.inr (by omega))]
  rw [RecordBuild.sealRecord] at hseal
  simp only [hheader] at hseal
  split at hseal
  · cases hseal
  · cases hseal
    subst hc
    exact ⟨hparts, rfl, rfl⟩

theorem appending_of_begin {slot : RecordSlot}
    (h : slot.begin limit level source timestamp = some b) : Appending [] b [] := by
  rw [RecordSlot.begin] at h
  split at h
  · cases h
  · cases h
    exact ⟨⟨[], rfl, fun hne ↦ absurd rfl hne⟩, rfl⟩

/-- The field that marks a truncated Record. -/
def truncationMark (truncated : Bool) : List FieldEntry :=
  if truncated then [(truncatedFieldKey, .bool true)] else []

/-- The mark is stored, if need be in the room of message bytes given back for it. -/
theorem Building.addTruncatedField (h : Building limit level source timestamp b msg es)
    (hadd : b.addTruncatedField = (b', true)) :
    ∃ n, Building limit level source timestamp b' (msg.take n) (es ++ truncationMark true) := by
  have hmark : FieldEntry.size (truncatedFieldKey, .bool true)
      = serializedFieldMetadataBytes + truncatedFieldKey.length := rfl
  have hfront := h.frontEnd
  have hle := h.frontEnd_le
  have hsize := h.messageSize
  rw [RecordBuild.addTruncatedField] at hadd
  simp only at hadd
  split at hadd
  · split at hadd
    · cases hadd
    · next hshort henough =>
      obtain ⟨n, hn⟩ : ∃ n, b.writer.messageSize
          - (serializedFieldMetadataBytes + truncatedFieldKey.length
            - (b.writer.fieldTail - b.writer.frontEnd)) = n := ⟨_, rfl⟩
      rw [hn] at hadd
      have hcut := h.cutMessage (n := n) (by omega)
      have hkept := validUtf8PrefixLength_le (msg.take n)
      have hcutFront := hcut.frontEnd
      have htail : (b.cutMessage n).writer.fieldTail = b.writer.fieldTail := rfl
      rw [List.length_take] at hkept hcutFront
      have hfield := hcut.addField (e := (truncatedFieldKey, .bool true)) (by omega)
      rw [hadd] at hfield
      exact ⟨_, hfield.2⟩
  · next hroom =>
    have hfield := h.addField (e := (truncatedFieldKey, .bool true)) (by omega)
    rw [hadd] at hfield
    refine ⟨msg.length, ?_⟩
    rw [List.take_length]
    exact hfield.2

/-- The Record that `Publish` returns shows what was built: every field and, when bytes of the
message were lost, the truncation mark behind them. -/
theorem Building.publish (h : Building limit level source timestamp b msg es)
    (ha : Appending asked b msg) {record : StoredRecord}
    (hpublish : b.publish = (b', some record)) :
    ∃ message, (RecordView.mk b'.slot.storage record.serializedBytes
          record.accountingChargeBytes).Reads
        ⟨level, timestamp, source, message, es ++ truncationMark record.truncated,
          record.truncated⟩ ∧
      b'.slot.state = .published ∧ message <+: asked ∧
      (message = asked ↔ record.truncated = false) ∧
      messageStart source + message.length +
        fieldBytes (es ++ truncationMark record.truncated) ≤ limit := by
  have h64 : wordModulus = 2 ^ 64 := rfl
  have hmax : maximumRecordBytes = 16384 := rfl
  have hlimit := h.limit_le
  have hfront := h.frontEnd
  have hle := h.frontEnd_le
  have htail := h.fieldTail
  obtain ⟨rest, hrest, -⟩ := ha.rest
  have hcut := h.cutMessage (n := b.writer.messageSize) h.messageSize.le
  obtain ⟨n, hn⟩ : ∃ n, validUtf8PrefixLength (msg.take b.writer.messageSize) = n := ⟨_, rfl⟩
  rw [hn] at hcut
  have hrequested : (b.cutMessage b.writer.messageSize).writer.requestedMessageBytes
      = min asked.length (wordModulus - 1) := ha.requested
  have hasked : msg.length + rest.length = asked.length := by rw [hrest, List.length_append]
  have hlen := List.length_take_le' n msg
  have hprefix : msg <+: asked := ⟨rest, hrest.symm⟩
  rw [RecordBuild.publish, if_neg (by rw [h.attached, h.state]; decide)] at hpublish
  simp only [hrequested, hcut.messageSize] at hpublish
  split at hpublish
  · next hlost =>
    split at hpublish
    · next marked hmarked =>
      obtain ⟨k, hbuild⟩ := hcut.addTruncatedField hmarked
      obtain ⟨hparts, hstate, htruncated⟩ := hbuild.sealRecord hpublish
      have hfit := hbuild.fieldTail
      have hpos := hbuild.frontEnd
      have hbound := hbuild.frontEnd_le
      have hstart : 56 ≤ messageStart source := Nat.le_add_right_of_le (Nat.le_add_right 56 _)
      have hpre : (msg.take n).take k <+: asked :=
        ((List.take_prefix _ _).trans (List.take_prefix _ _)).trans hprefix
      refine ⟨(msg.take n).take k, ?_, hstate, hpre, ?_, by rw [htruncated]; omega⟩
      · rw [htruncated]
        exact hparts.reads (by simp only; omega) _ _
      · rw [htruncated]
        refine ⟨fun heq ↦ absurd ?_ hlost, fun hfalse ↦ by cases hfalse⟩
        have hk := List.length_take_le' k (msg.take n)
        rw [heq] at hk
        omega
    · cases hpublish
  · next hkept =>
    obtain ⟨hparts, hstate, htruncated⟩ := hcut.sealRecord hpublish
    have hcutTail := hcut.fieldTail
    have hpos := hcut.frontEnd
    have hbound := hcut.frontEnd_le
    have hstart : 56 ≤ messageStart source := Nat.le_add_right_of_le (Nat.le_add_right 56 _)
    have hnone : es ++ truncationMark false = es := List.append_nil es
    refine ⟨msg.take n, ?_, hstate, (List.take_prefix _ _).trans hprefix, ?_,
      by rw [htruncated, hnone]; omega⟩
    · rw [htruncated, truncationMark, if_neg Bool.false_ne_true, List.append_nil]
      exact hparts.reads (by simp only; omega) _ _
    · rw [htruncated]
      refine ⟨fun _ ↦ rfl, fun _ ↦ ?_⟩
      refine ((List.take_prefix _ _).trans hprefix).eq_of_length ?_
      omega

/-- Reading a published Record undoes building it. -/
theorem publish_roundTrip (conv : Charconv) {slot : RecordSlot} {b b' : RecordBuild}
    {record : StoredRecord} (cs : List RecordCall)
    (hbegin : slot.begin limit level source timestamp = some b)
    (hpublish : (b.calls conv cs).publish = (b', some record)) :
    ∃ message, (RecordView.mk b'.slot.storage record.serializedBytes
          record.accountingChargeBytes).Reads
        ⟨level, timestamp, source, message,
          b.addedFields conv cs ++ truncationMark record.truncated, record.truncated⟩ ∧
      message <+: RecordBuild.appendedBytes conv cs ∧
      (message = RecordBuild.appendedBytes conv cs ↔ record.truncated = false) := by
  have hbuild := building_of_begin hbegin
  obtain ⟨msg, hcalls, hasked⟩ := building_calls conv cs hbuild (appending_of_begin hbegin)
  obtain ⟨message, hreads, -, hprefix, htruncated, -⟩ := hcalls.publish hasked hpublish
  exact ⟨message, hreads, hprefix, htruncated⟩

/-- A Record that loses message bytes to its truncation mark. -/
theorem publish_roundTrip_truncated :
    ∃ b b' record, RecordSlot.begin {} 128 .info ⟨[0x61], [0x62], 7, 9⟩ 5 = some b ∧
      (b.calls .blank [.addField [0x6b] (.string [0x76]),
        .append (.text (List.replicate 60 0x2e))]).publish = (b', some record) ∧
      record.truncated = true ∧
      ∃ message, (RecordView.mk b'.slot.storage record.serializedBytes
          record.accountingChargeBytes).Reads
        ⟨.info, 5, ⟨[0x61], [0x62], 7, 9⟩, message,
          b.addedFields .blank [.addField [0x6b] (.string [0x76]),
            .append (.text (List.replicate 60 0x2e))] ++ truncationMark record.truncated,
          record.truncated⟩ := by
  refine ⟨_, _, _, rfl, rfl, rfl, ?_⟩
  have hbegin : RecordSlot.begin {} 128 .info ⟨[0x61], [0x62], 7, 9⟩ 5 = some _ := rfl
  obtain ⟨message, hreads, -⟩ := publish_roundTrip .blank
    [.addField [0x6b] (.string [0x76]), .append (.text (List.replicate 60 0x2e))] hbegin rfl
  exact ⟨message, hreads⟩

end Publish

/-- A Record with the calls that built and published it. -/
structure PublishedRecord (conv : Charconv) where
  slot : RecordSlot
  limit : ℕ
  level : Level
  source : SourceLocation
  timestamp : Int64
  calls : List RecordCall
  started : RecordBuild
  finished : RecordBuild
  record : StoredRecord
  begin_eq : slot.begin limit level source timestamp = some started
  publish_eq : (started.calls conv calls).publish = (finished, some record)

namespace PublishedRecord

variable {conv : Charconv} (r : PublishedRecord conv)

def view : RecordView :=
  ⟨r.finished.slot.storage, r.record.serializedBytes, r.record.accountingChargeBytes⟩

/-- What was built: the calls determine everything but how much of the message was kept. -/
def content : RecordContent where
  level := r.level
  eventTimestamp := r.timestamp
  source := r.source
  message := r.view.message
  fields := r.started.addedFields conv r.calls ++ truncationMark r.record.truncated
  truncated := r.record.truncated

/-- The view shows the content, and the message is what was appended, up to truncation. -/
theorem reads_message : r.view.Reads r.content ∧
    r.content.message <+: RecordBuild.appendedBytes conv r.calls ∧
    (r.content.message = RecordBuild.appendedBytes conv r.calls ↔ r.record.truncated = false) ∧
    messageStart r.source + r.content.message.length + fieldBytes r.content.fields ≤ r.limit := by
  obtain ⟨msg, hcalls, hasked⟩ := building_calls conv r.calls (building_of_begin r.begin_eq)
    (appending_of_begin r.begin_eq)
  obtain ⟨message, hreads, -, happended⟩ := hcalls.publish hasked r.publish_eq
  have hmessage : r.view.message = message := hreads.message
  rw [content, hmessage]
  exact ⟨hreads, happended⟩

theorem reads : r.view.Reads r.content := r.reads_message.1

end PublishedRecord

end Ulog
