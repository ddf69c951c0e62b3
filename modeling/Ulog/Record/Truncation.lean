import Ulog.Record.RoundTrip

/-!
# When a Record can be published

`Publish` cuts the message to well-formed UTF-8 and, when bytes of it were lost, has to store the
field `ulog.truncated` as well. It may take the room of that field from the message, but not from
the source text or from the other fields. So publication succeeds exactly when nothing was lost or
when the bytes that source text and fields leave free can hold the mark.

The size checks at the end of `Publish` never fail: the writer's two counters, of source bytes and
of field bytes, add up to what the slot holds, and a limit that is a multiple of the accounting
quantum also bounds the charge.
-/

namespace Ulog

open ByteMemory

/-! ## The counters of the writer -/

/-- The counters of the writer agree with the source text and the fields. -/
structure Counted (source : SourceLocation) (w : RecordWriter) (es : List FieldEntry) : Prop where
  source : w.sourcePayloadBytes = source.fileName.length + source.functionName.length
  fields : w.fieldPayloadBytes + serializedFieldMetadataBytes * es.length = fieldBytes es

variable {limit : ℕ} {level : Level} {source : SourceLocation} {timestamp : Int64}
  {b : RecordBuild} {msg asked : Bytes} {es : List FieldEntry}

theorem counted_of_begin {slot : RecordSlot}
    (h : slot.begin limit level source timestamp = some b) : Counted source b.writer [] := by
  rw [RecordSlot.begin] at h
  split at h
  · cases h
  · cases h
    exact ⟨rfl, rfl⟩

theorem Counted.appendBytes (h : Counted source b.writer es) (value : Bytes) :
    Counted source (b.appendBytes value).1.writer es := by
  rw [RecordBuild.appendBytes]
  dsimp only
  split <;> exact ⟨h.source, h.fields⟩

theorem Counted.addField (h : Counted source b.writer es) (e : FieldEntry) :
    Counted source (b.addField e.1 e.2).1.writer
      (if (b.addField e.1 e.2).2 then es ++ [e] else es) := by
  rw [FieldEntry.addField_eq, RecordBuild.addFieldBytes]
  dsimp only
  split
  · exact h
  · split
    · exact h
    · refine ⟨h.source, ?_⟩
      have hfields := h.fields
      have hsize := e.size_eq
      simp only [if_true, List.length_append, List.length_singleton, fieldBytes_append,
        fieldBytes_cons, fieldBytes_nil]
      rw [Nat.mul_add, Nat.mul_one]
      omega

theorem Counted.calls (conv : Charconv) (cs : List RecordCall) (h : Counted source b.writer es) :
    Counted source (b.calls conv cs).writer (es ++ b.addedFields conv cs) := by
  induction cs generalizing b es with
  | nil =>
    rw [RecordBuild.addedFields, List.append_nil]
    exact h
  | cons c cs ih =>
    rw [RecordBuild.calls, List.foldl_cons, ← RecordBuild.calls]
    cases c with
    | append value =>
      rw [RecordBuild.addedFields, RecordBuild.call, RecordBuild.append]
      split
      · exact ih (h.appendBytes _)
      · exact ih h
    | addField key value =>
      have hadd := ih (h.addField (key, value))
      rw [RecordBuild.addedFields, RecordBuild.call]
      split at hadd
      · next hstored =>
        rw [if_pos hstored]
        simpa using hadd
      · next hrefused =>
        rw [if_neg hrefused]
        exact hadd

/-! ## The last checks of `Publish` -/

/-- A multiple of the quantum that bounds the bytes also bounds their charge. -/
theorem accountingCharge_le {bytes : ℕ} (hlimit : limit % accountingQuantumBytes = 0)
    (hpos : 0 < limit) (hmax : limit ≤ maximumRecordBytes) (hbytes : bytes ≤ limit) :
    accountingCharge bytes ≠ 0 ∧ bytes ≤ accountingCharge bytes ∧
      accountingCharge bytes ≤ limit := by
  have hq : accountingQuantumBytes = 64 := rfl
  have h64 : wordModulus = 2 ^ 64 := rfl
  have h16384 : maximumRecordBytes = 16384 := rfl
  rw [hq] at hlimit
  rw [accountingCharge, hq, if_neg (by omega)]
  omega

/-- The bytes of a Record with this content. -/
def RecordContent.serializedBytes (c : RecordContent) : ℕ :=
  messageStart c.source + c.message.length + fieldBytes c.fields

/-- A Record whose sizes are those of its content, within the limit. -/
structure StoredRecord.Sized (limit : ℕ) (record : StoredRecord) (bytes : ℕ) : Prop where
  serialized : record.serializedBytes = bytes
  charge : record.accountingChargeBytes = accountingCharge bytes
  serialized_le : bytes ≤ record.accountingChargeBytes
  charge_le : record.accountingChargeBytes ≤ limit

theorem Building.sealRecord_sized (h : Building limit level source timestamp b msg es)
    (hc : Counted source b.writer es) (hlimit : limit % accountingQuantumBytes = 0)
    (truncated : Bool) :
    ∃ b' record, b.sealRecord truncated = (b', some record) ∧ record.truncated = truncated ∧
      record.Sized limit (messageStart source + msg.length + fieldBytes es) := by
  have h56 : serializedRecordMetadataBytes = 56 := rfl
  have hfront := h.frontEnd
  have hle := h.frontEnd_le
  have htail := h.fieldTail
  have hsource := hc.source
  have hfields := hc.fields
  have hstart : messageStart source = serializedRecordMetadataBytes + source.fileName.length +
    source.functionName.length := rfl
  have hbytes : b.writer.sourcePayloadBytes + b.writer.messageSize + b.writer.fieldPayloadBytes +
      (serializedRecordMetadataBytes + b.writer.fieldCount * serializedFieldMetadataBytes) =
      messageStart source + msg.length + fieldBytes es := by
    rw [h.messageSize, h.fieldCount, Nat.mul_comm es.length]
    omega
  have hlimit' : b.writer.fieldTail + serializedFieldMetadataBytes * b.writer.fieldCount +
      b.writer.fieldPayloadBytes = limit := by
    rw [h.fieldCount]
    omega
  obtain ⟨hne, hserialized, hcharge⟩ := accountingCharge_le hlimit (by omega) h.limit_le
    (show messageStart source + msg.length + fieldBytes es ≤ limit by omega)
  rw [RecordBuild.sealRecord]
  dsimp only
  rw [hbytes, hlimit', if_neg (by omega)]
  exact ⟨_, _, rfl, rfl, rfl, rfl, hserialized, hcharge⟩

/-! ## The truncation mark -/

/-- The bytes of the truncation mark. -/
def truncationMarkBytes : ℕ := serializedFieldMetadataBytes + truncatedFieldKey.length

example : truncationMarkBytes = 38 := rfl

namespace RecordBuild

/-- Not every byte asked for can be kept: some did not fit, or they are no well-formed UTF-8. -/
def LosesBytes (b : RecordBuild) : Prop :=
  b.writer.requestedMessageBytes ≠ validUtf8PrefixLength b.storedMessage

/-- The bytes that source text and fields leave to the message. -/
def messageRoom (b : RecordBuild) : ℕ := b.writer.fieldTail - b.writer.messageOffset

/-- Publication needs no mark, or has room for it. -/
def MarkFits (b : RecordBuild) : Prop := b.LosesBytes → truncationMarkBytes ≤ b.messageRoom

instance (b : RecordBuild) : Decidable b.LosesBytes := inferInstanceAs (Decidable (_ ≠ _))

instance (b : RecordBuild) : Decidable b.MarkFits := inferInstanceAs (Decidable (_ → _))

end RecordBuild

/-- The mark is stored exactly when the message's room can hold it. -/
theorem Building.addTruncatedField_iff (h : Building limit level source timestamp b msg es) :
    b.addTruncatedField.2 = true ↔ truncationMarkBytes ≤ b.messageRoom := by
  have hmark : FieldEntry.size (truncatedFieldKey, .bool true) = truncationMarkBytes := rfl
  have hmark' : serializedFieldMetadataBytes + truncatedFieldKey.length = truncationMarkBytes := rfl
  have hfront := h.frontEnd
  have hle := h.frontEnd_le
  have hsize := h.messageSize
  rw [RecordBuild.messageRoom, h.messageOffset, RecordBuild.addTruncatedField]
  dsimp only
  rw [hmark']
  split
  · split
    · exact ⟨(by rintro ⟨⟩), fun _ ↦ by omega⟩
    · next hshort henough =>
      obtain ⟨n, hn⟩ : ∃ n, b.writer.messageSize
          - (truncationMarkBytes - (b.writer.fieldTail - b.writer.frontEnd)) = n := ⟨_, rfl⟩
      rw [hn]
      have hcut := h.cutMessage (n := n) (by omega)
      have hkept := validUtf8PrefixLength_le (msg.take n)
      have hcutFront := hcut.frontEnd
      have htail : (b.cutMessage n).writer.fieldTail = b.writer.fieldTail := rfl
      rw [List.length_take] at hkept hcutFront
      have hfield := hcut.addField (e := (truncatedFieldKey, .bool true)) (by omega)
      exact ⟨fun _ ↦ by omega, fun _ ↦ hfield.1⟩
  · have hfield := h.addField (e := (truncatedFieldKey, .bool true)) (by omega)
    exact ⟨fun _ ↦ by omega, fun _ ↦ hfield.1⟩

theorem Building.addTruncatedField_of_not_fits
    (h : Building limit level source timestamp b msg es)
    (hroom : ¬truncationMarkBytes ≤ b.messageRoom) : b.addTruncatedField = (b, false) := by
  have hmark : serializedFieldMetadataBytes + truncatedFieldKey.length = truncationMarkBytes := rfl
  have hfront := h.frontEnd
  have hle := h.frontEnd_le
  have hsize := h.messageSize
  rw [RecordBuild.messageRoom, h.messageOffset] at hroom
  rw [RecordBuild.addTruncatedField]
  dsimp only
  rw [hmark, if_pos (by omega), if_pos (by omega)]

theorem Counted.addTruncatedField (hc : Counted source b.writer es)
    (hadd : b.addTruncatedField.2 = true) :
    Counted source b.addTruncatedField.1.writer (es ++ truncationMark true) := by
  have hstored : ∀ {b : RecordBuild}, Counted source b.writer es →
      (b.addField truncatedFieldKey (.bool true)).2 = true →
      Counted source (b.addField truncatedFieldKey (.bool true)).1.writer
        (es ++ truncationMark true) := by
    intro b hb hok
    have hnew := hb.addField (truncatedFieldKey, .bool true)
    rw [if_pos hok] at hnew
    exact hnew
  rw [RecordBuild.addTruncatedField] at hadd ⊢
  dsimp only at hadd ⊢
  split at hadd
  · next hshort =>
    rw [if_pos hshort]
    split at hadd
    · cases hadd
    · next henough =>
      rw [if_neg henough]
      exact hstored (b := b.cutMessage _) ⟨hc.source, hc.fields⟩ hadd
  · next hroom =>
    rw [if_neg hroom]
    exact hstored hc hadd

/-! ## Publication -/

/-- What `Publish` makes of a message and fields whose mark fits: a Record that shows them, with
the mark when bytes were lost. -/
structure Published (limit : ℕ) (level : Level) (source : SourceLocation) (timestamp : Int64)
    (asked : Bytes) (es : List FieldEntry) (lost : Bool) (b' : RecordBuild)
    (record : StoredRecord) : Prop where
  truncated : record.truncated = lost
  reads : ∃ message, message <+: asked ∧ (message = asked ↔ lost = false) ∧
    (RecordView.mk b'.slot.storage record.serializedBytes record.accountingChargeBytes).Reads
      ⟨level, timestamp, source, message, es ++ truncationMark lost, lost⟩ ∧
    record.Sized limit
      (RecordContent.serializedBytes
        ⟨level, timestamp, source, message, es ++ truncationMark lost, lost⟩)

section

variable (h : Building limit level source timestamp b msg es)

include h

theorem Building.sealRecord_reads {truncated : Bool} {b' : RecordBuild} {record : StoredRecord}
    (hseal : b.sealRecord truncated = (b', some record)) :
    (RecordView.mk b'.slot.storage record.serializedBytes record.accountingChargeBytes).message =
      msg := by
  have h56 : serializedRecordMetadataBytes = 56 := rfl
  have hfront := h.frontEnd
  have hle := h.frontEnd_le
  have htail := h.fieldTail
  rw [messageStart] at hfront
  obtain ⟨hparts, -, -⟩ := h.sealRecord hseal
  exact (hparts.reads (c := ⟨level, timestamp, source, msg, es, truncated⟩)
    (show fieldBytes es < limit by omega) _ _).message

theorem Building.publish_eq :
    b.publish =
      if b.LosesBytes then
        match (b.cutMessage b.writer.messageSize).addTruncatedField with
        | (marked, true) => marked.sealRecord true
        | (marked, false) => (marked.abandon, none)
      else (b.cutMessage b.writer.messageSize).sealRecord false := by
  rw [RecordBuild.publish, if_neg (by rw [h.attached, h.state]; decide)]
  rfl

theorem Building.publish_of_markFits (hc : Counted source b.writer es) (ha : Appending asked b msg)
    (hlimit : limit % accountingQuantumBytes = 0) (hfits : b.MarkFits) :
    ∃ b' record, b.publish = (b', some record) ∧
      Published limit level source timestamp asked es (decide b.LosesBytes) b' record := by
  have hcut := h.cutMessage (n := b.writer.messageSize) h.messageSize.le
  have hcutCounted : Counted source (b.cutMessage b.writer.messageSize).writer es :=
    ⟨hc.source, hc.fields⟩
  have hpublish := h.publish_eq
  -- the sealed build is the one `Building.publish` speaks about
  have hfinish : ∀ {b₁ b' : RecordBuild} {msg' : Bytes} {record : StoredRecord} {lost : Bool},
      Building limit level source timestamp b₁ msg' (es ++ truncationMark lost) →
      b₁.sealRecord lost = (b', some record) → record.truncated = lost →
      record.Sized limit
        (messageStart source + msg'.length + fieldBytes (es ++ truncationMark lost)) →
      b.publish = (b', some record) →
      Published limit level source timestamp asked es lost b' record := by
    intro b₁ b' msg' record lost hbuild hseal htruncated hsized heq
    obtain ⟨message, hreads, -, hprefix, hiff, -⟩ := h.publish ha heq
    have hmessage : message = msg' := hreads.message.symm.trans (hbuild.sealRecord_reads hseal)
    rw [htruncated] at hreads hiff
    subst hmessage
    exact ⟨htruncated, message, hprefix, hiff, hreads, hsized⟩
  by_cases hlost : b.LosesBytes
  · have hmark := hcut.addTruncatedField_iff.mpr (hfits hlost)
    obtain ⟨marked, hmarked⟩ : ∃ marked,
        (b.cutMessage b.writer.messageSize).addTruncatedField = (marked, true) :=
      ⟨_, Prod.ext rfl hmark⟩
    have hcounted := hcutCounted.addTruncatedField hmark
    obtain ⟨k, hbuild⟩ := hcut.addTruncatedField hmarked
    rw [hmarked] at hcounted
    obtain ⟨b', record, hseal, htruncated, hsized⟩ := hbuild.sealRecord_sized hcounted hlimit true
    rw [if_pos hlost, hmarked] at hpublish
    refine ⟨b', record, hpublish.trans hseal, ?_⟩
    rw [decide_eq_true hlost]
    exact hfinish hbuild hseal htruncated hsized (hpublish.trans hseal)
  · obtain ⟨b', record, hseal, htruncated, hsized⟩ :=
      hcut.sealRecord_sized hcutCounted hlimit false
    rw [if_neg hlost] at hpublish
    refine ⟨b', record, hpublish.trans hseal, ?_⟩
    rw [decide_eq_false hlost]
    have hnone : es ++ truncationMark false = es := List.append_nil es
    rw [← hnone] at hcut hsized
    exact hfinish hcut hseal htruncated hsized (hpublish.trans hseal)

/-- Without room for the mark a Record that lost bytes is not published, and its slot is reset. -/
theorem Building.publish_of_not_markFits (hfits : ¬b.MarkFits) :
    b.publish = ((b.cutMessage b.writer.messageSize).abandon, none) := by
  obtain ⟨hlost, hroom⟩ := Classical.not_imp.mp hfits
  have hcut := h.cutMessage (n := b.writer.messageSize) h.messageSize.le
  rw [h.publish_eq, if_pos hlost, hcut.addTruncatedField_of_not_fits hroom]

/-- A failed publication leaves the slot reset and the writer detached. -/
theorem Building.abandon_publish (hc : Counted source b.writer es) (ha : Appending asked b msg)
    (hlimit : limit % accountingQuantumBytes = 0) {b' : RecordBuild}
    (hpublish : b.publish = (b', none)) : b'.slot.state = .reset ∧ b'.writer.attached = false := by
  by_cases hfits : b.MarkFits
  · obtain ⟨_, _, hsome, -⟩ := h.publish_of_markFits hc ha hlimit hfits
    cases hpublish.symm.trans hsome
  · have hcut := h.cutMessage (n := b.writer.messageSize) h.messageSize.le
    cases hpublish.symm.trans (h.publish_of_not_markFits hfits)
    rw [RecordBuild.abandon, if_pos hcut.attached]
    exact ⟨rfl, rfl⟩

end

end Ulog
