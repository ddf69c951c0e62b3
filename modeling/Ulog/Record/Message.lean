import Ulog.Record.Truncation
import Ulog.Foundation.Utf8

/-!
# The message a Record keeps

`ValidUtf8PrefixLength` decides byte by byte. What it computes is the longest prefix that is
well-formed by the table of UTF-8 sequences, and both cuts of `Publish` are of this kind.
-/

namespace Ulog

open ByteMemory

/-! ## The scan recognizes the table -/

theorem isContinuationByte_iff (b : UInt8) :
    isContinuationByte b = true ↔ 0x80 ≤ b.toNat ∧ b.toNat ≤ 0xBF := by
  have hall : ∀ n < 256, (isContinuationByte (UInt8.ofNat n) = true ↔ 0x80 ≤ n ∧ n ≤ 0xBF) := by
    decide +kernel
  have hb := hall b.toNat b.toNat_lt
  rwa [UInt8.ofNat_toNat] at hb

theorem utf8SequenceSize_eq_some_iff (first : UInt8) (size : ℕ) :
    utf8SequenceSize first = some size ↔
      (size = 1 ∧ first.toNat ≤ 0x7F) ∨ (size = 2 ∧ 0xC2 ≤ first.toNat ∧ first.toNat ≤ 0xDF) ∨
        (size = 3 ∧ 0xE0 ≤ first.toNat ∧ first.toNat ≤ 0xEF) ∨
        (size = 4 ∧ 0xF0 ≤ first.toNat ∧ first.toNat ≤ 0xF4) := by
  have hnat : utf8SequenceSize first =
      if first.toNat ≤ 0x7F then some 1
      else if 0xC2 ≤ first.toNat ∧ first.toNat ≤ 0xDF then some 2
      else if 0xE0 ≤ first.toNat ∧ first.toNat ≤ 0xEF then some 3
      else if 0xF0 ≤ first.toNat ∧ first.toNat ≤ 0xF4 then some 4
      else none := by
    simp only [utf8SequenceSize, UInt8.le_iff_toNat_le]
    rfl
  rw [hnat]
  split_ifs <;> simp only [Option.some.injEq, false_iff] <;> omega

theorem isForbiddenSecondByte_iff (first second : UInt8) :
    isForbiddenSecondByte first second = true ↔
      (first.toNat = 0xE0 ∧ second.toNat < 0xA0) ∨ (first.toNat = 0xED ∧ 0xA0 ≤ second.toNat) ∨
        (first.toNat = 0xF0 ∧ second.toNat < 0x90) ∨
        (first.toNat = 0xF4 ∧ 0x90 ≤ second.toNat) := by
  simp only [isForbiddenSecondByte, Bool.or_eq_true, Bool.and_eq_true, beq_iff_eq,
    decide_eq_true_eq, ← UInt8.toNat_inj, UInt8.lt_iff_toNat_lt, UInt8.le_iff_toNat_le, or_assoc]
  rfl

theorem utf8HeadSize_cons (first : UInt8) (rest : Bytes) (size : ℕ) :
    utf8HeadSize (first :: rest) = some size ↔
      utf8SequenceSize first = some size ∧ size ≤ rest.length + 1 ∧
        (rest.take (size - 1)).all isContinuationByte = true ∧
        (3 ≤ size → isForbiddenSecondByte first (rest.headD 0) = false) := by
  rw [utf8HeadSize]
  cases hsize : utf8SequenceSize first with
  | none => simp
  | some n =>
    dsimp only
    split
    · next hshort =>
      refine ⟨(by rintro ⟨⟩), fun h ↦ ?_⟩
      cases h.1
      omega
    · next hlong =>
      split
      · next hall =>
        refine ⟨(by rintro ⟨⟩), fun h ↦ ?_⟩
        cases h.1
        rw [h.2.2.1] at hall
        cases hall
      · next hall =>
        split
        · next hforbidden =>
          rw [Bool.and_eq_true, decide_eq_true_eq] at hforbidden
          refine ⟨(by rintro ⟨⟩), fun h ↦ ?_⟩
          cases h.1
          rw [h.2.2.2 hforbidden.2] at hforbidden
          cases hforbidden.1
        · next hallowed =>
          refine ⟨fun h ↦ ?_, fun h ↦ h.1⟩
          cases h
          refine ⟨rfl, by omega, by simpa using hall, fun hthree ↦ ?_⟩
          simpa [hthree] using hallowed

theorem utf8HeadSize_recognizes : PrefixCode.Recognizes Utf8.Sequence utf8HeadSize := by
  refine ⟨fun value size ↦ ?_, fun w hw ↦ hw.ne_nil⟩
  cases value with
  | nil =>
    refine ⟨nofun, fun h ↦ absurd ?_ h.2.ne_nil⟩
    rw [List.take_nil]
  | cons first rest =>
    rw [utf8HeadSize_cons, utf8SequenceSize_eq_some_iff, List.length_cons]
    -- at each size both sides are the same ranges, unless there are not enough bytes
    match size, rest with
    | 0, rest => exact ⟨fun h ↦ by omega, fun h ↦ absurd rfl h.2.ne_nil⟩
    | 1, rest => simp [Utf8.sequence_one]
    | 2, second :: rest =>
      simp [Utf8.sequence_two, Utf8.IsTail, Utf8.InRange, isContinuationByte_iff, and_assoc]
    | 3, second :: third :: rest =>
      have hforbidden := isForbiddenSecondByte_iff first second
      rw [← Bool.not_eq_true]
      simp [Utf8.sequence_three, Utf8.IsTail, Utf8.InRange, isContinuationByte_iff, hforbidden]
      omega
    | 4, second :: third :: fourth :: rest =>
      have hforbidden := isForbiddenSecondByte_iff first second
      rw [← Bool.not_eq_true]
      simp [Utf8.sequence_four, Utf8.IsTail, Utf8.InRange, isContinuationByte_iff, hforbidden]
      omega
    | n + 5, rest =>
      refine ⟨fun h ↦ by omega, fun h ↦ ?_⟩
      have hlength := h.2.length_mem
      rw [List.length_take, List.length_cons] at hlength
      omega
    | 2, [] | 3, [] | 3, [_] | 4, [] | 4, [_] | 4, [_, _] => simp

theorem validUtf8PrefixScan_eq_scan (fuel : ℕ) (value : Bytes) :
    validUtf8PrefixScan fuel value = PrefixCode.scan utf8HeadSize fuel value := by
  induction fuel generalizing value with
  | zero => rfl
  | succ fuel ih =>
    rw [validUtf8PrefixScan, PrefixCode.scan]
    cases utf8HeadSize value with
    | none => rfl
    | some size => exact congrArg (size + ·) (ih _)

/-- `ValidUtf8PrefixLength` cuts off the longest well-formed prefix. -/
theorem validUtf8PrefixLength_longest (value : Bytes) :
    IsLongestPrefix Utf8.WellFormed value (value.take (validUtf8PrefixLength value)) := by
  have hscan : validUtf8PrefixLength value = PrefixCode.scan utf8HeadSize value.length value :=
    validUtf8PrefixScan_eq_scan _ _
  refine ⟨List.take_prefix _ _, ?_, fun q hq hwell ↦ ?_⟩
  · rw [hscan]
    exact PrefixCode.text_scan utf8HeadSize_recognizes _ _
  · rw [List.length_take, Nat.min_eq_left (validUtf8PrefixLength_le value), hscan]
    exact PrefixCode.length_le_scan utf8HeadSize_recognizes hwell hq le_rfl

/-! ## The two cuts of `Publish` -/

variable {limit : ℕ} {level : Level} {source : SourceLocation} {timestamp : Int64}
  {b : RecordBuild} {msg asked : Bytes} {es : List FieldEntry}

/-- What is kept of the first `n` bytes is the longest well-formed prefix of at most `n` bytes. -/
theorem cut_longest (msg : Bytes) (n : ℕ) :
    IsLongestPrefix (fun p ↦ Utf8.WellFormed p ∧ p.length ≤ n) msg
      (msg.take (validUtf8PrefixLength (msg.take n))) := by
  have hcut := validUtf8PrefixLength_longest (msg.take n)
  have hle := validUtf8PrefixLength_le (msg.take n)
  rw [List.length_take] at hle
  rw [List.take_take, Nat.min_eq_left (by omega)] at hcut
  refine ⟨List.take_prefix _ _, ⟨hcut.holds, ?_⟩, fun q hq ⟨hwell, hn⟩ ↦ ?_⟩
  · rw [List.length_take]
    omega
  · refine hcut.longest q ?_ hwell
    rw [List.prefix_take_iff]
    exact ⟨hq, hn⟩

section

variable (h : Building limit level source timestamp b msg es)

include h

theorem Building.addTruncatedField_longest (hwell : Utf8.WellFormed msg) {b' : RecordBuild}
    (hadd : b.addTruncatedField = (b', true)) :
    ∃ kept, Building limit level source timestamp b' kept (es ++ truncationMark true) ∧
      IsLongestPrefix (fun p ↦ Utf8.WellFormed p ∧
        messageStart source + p.length + truncationMarkBytes ≤ b.writer.fieldTail) msg kept := by
  have hmark : FieldEntry.size (truncatedFieldKey, .bool true) = truncationMarkBytes := rfl
  have hmark' : serializedFieldMetadataBytes + truncatedFieldKey.length = truncationMarkBytes := rfl
  have hfront := h.frontEnd
  have hle := h.frontEnd_le
  have hsize := h.messageSize
  rw [RecordBuild.addTruncatedField] at hadd
  dsimp only at hadd
  rw [hmark'] at hadd
  split at hadd
  · next hshort =>
    split at hadd
    · cases hadd
    · next henough =>
      obtain ⟨n, hn⟩ : ∃ n, b.writer.messageSize
          - (truncationMarkBytes - (b.writer.fieldTail - b.writer.frontEnd)) = n := ⟨_, rfl⟩
      rw [hn] at hadd
      have hcut := h.cutMessage (n := n) (by omega)
      have hlongest := cut_longest msg n
      have hcutFront := hcut.frontEnd
      have hkept := hlongest.holds.2
      have htail : (b.cutMessage n).writer.fieldTail = b.writer.fieldTail := rfl
      have hfield := (hcut.addField (e := (truncatedFieldKey, .bool true)) (by omega)).2
      rw [hadd] at hfield
      refine ⟨_, hfield, hlongest.congr fun p _ ↦ and_congr_right fun _ ↦ ?_⟩
      omega
  · next hroom =>
    have hfield := (h.addField (e := (truncatedFieldKey, .bool true)) (by omega)).2
    rw [hadd] at hfield
    refine ⟨msg, hfield, List.prefix_rfl, ⟨hwell, by omega⟩, fun q hq _ ↦ hq.length_le⟩

theorem Building.cutMessage_longest (ha : Appending asked b msg) :
    IsLongestPrefix (fun p ↦ Utf8.WellFormed p ∧ p.length ≤ b.writer.messageSize) asked
      (msg.take (validUtf8PrefixLength (msg.take b.writer.messageSize))) := by
  obtain ⟨rest, hrest, -⟩ := ha.rest
  have hstored : IsLongestPrefix (fun p ↦ p.length ≤ b.writer.messageSize) asked msg := by
    refine ⟨⟨rest, hrest.symm⟩, h.messageSize.ge, fun q _ hq ↦ ?_⟩
    exact hq.trans_eq h.messageSize
  exact hstored.trans (cut_longest msg b.writer.messageSize) fun p hp ↦ hp.2

/-- The message of a published build: everything when nothing was lost, and otherwise the longest
well-formed prefix of what was stored that leaves room for the mark. -/
theorem Building.publish_longest (ha : Appending asked b msg) {b' : RecordBuild}
    {record : StoredRecord} (hpublish : b.publish = (b', some record)) :
    Utf8.WellFormed (RecordView.mk b'.slot.storage record.serializedBytes
      record.accountingChargeBytes).message ∧
    (record.truncated = true → IsLongestPrefix (fun p ↦ Utf8.WellFormed p ∧
      p.length ≤ b.writer.messageSize ∧
      b.writer.messageOffset + p.length + truncationMarkBytes ≤ b.writer.fieldTail) asked
      (RecordView.mk b'.slot.storage record.serializedBytes
        record.accountingChargeBytes).message) := by
  have hcut := h.cutMessage (n := b.writer.messageSize) h.messageSize.le
  have hfirst := h.cutMessage_longest ha
  obtain ⟨kept, hkept⟩ :
      ∃ kept, msg.take (validUtf8PrefixLength (msg.take b.writer.messageSize)) = kept := ⟨_, rfl⟩
  rw [hkept] at hcut hfirst
  rw [h.publish_eq] at hpublish
  split at hpublish
  · split at hpublish
    · next marked hmarked =>
      obtain ⟨message, hbuild, hsecond⟩ := hcut.addTruncatedField_longest hfirst.holds.1 hmarked
      rw [hbuild.sealRecord_reads hpublish, h.messageOffset]
      refine ⟨hsecond.holds.1, fun _ ↦ hfirst.trans ?_ fun p hp ↦ ⟨hp.1, hp.2.1⟩⟩
      -- a prefix of the first cut is within the stored bytes already
      refine hsecond.congr fun p hp ↦ and_congr_right fun _ ↦ ?_
      exact (and_iff_right (hp.length_le.trans hfirst.holds.2)).symm
    · cases hpublish
  · rw [hcut.sealRecord_reads hpublish]
    refine ⟨hfirst.holds.1, fun htruncated ↦ ?_⟩
    rw [(hcut.sealRecord hpublish).2.2] at htruncated
    cases htruncated

end

/-- The build as `Publish` finds it. -/
def PublishedRecord.built {conv : Charconv} (r : PublishedRecord conv) : RecordBuild :=
  r.started.calls conv r.calls

/-- A published Record shows the longest message there can be: the whole well-formed text that was
appended, or, when the Record is truncated, the longest of its prefixes that is well-formed, was
stored and ends below the field area with room for the truncation mark. -/
theorem publish_keeps_longest_message {conv : Charconv} (r : PublishedRecord conv) :
    (r.record.truncated = false →
      r.view.message = RecordBuild.appendedBytes conv r.calls ∧
        Utf8.WellFormed (RecordBuild.appendedBytes conv r.calls)) ∧
    (r.record.truncated = true →
      IsLongestPrefix (fun p ↦ Utf8.WellFormed p ∧
          p.length ≤ r.built.writer.messageSize ∧
          r.built.writer.messageOffset + p.length + truncationMarkBytes ≤ r.built.writer.fieldTail)
        (RecordBuild.appendedBytes conv r.calls) r.view.message) := by
  obtain ⟨-, -, hwhole, -⟩ := r.reads_message
  obtain ⟨msg, hcalls, hasked⟩ := building_calls conv r.calls (building_of_begin r.begin_eq)
    (appending_of_begin r.begin_eq)
  obtain ⟨hwell, hlongest⟩ := hcalls.publish_longest hasked r.publish_eq
  refine ⟨fun htruncated ↦ ?_, hlongest⟩
  have hmessage : r.view.message = RecordBuild.appendedBytes conv r.calls := hwhole.mpr htruncated
  exact ⟨hmessage, hmessage ▸ hwell⟩

/-- Both cuts at work: the first drops an unfinished character, and the second one, for the byte
that the mark lacks, the character before it. -/
theorem publish_keeps_longest_message_cut :
    ∃ r : PublishedRecord .blank,
      r.record.truncated = true ∧ r.view.message = [0xC3, 0xA9, 0xC3, 0xA9] ∧
      IsLongestPrefix (fun p ↦ Utf8.WellFormed p ∧
          p.length ≤ r.built.writer.messageSize ∧
          r.built.writer.messageOffset + p.length + truncationMarkBytes ≤ r.built.writer.fieldTail)
        [0xC3, 0xA9, 0xC3, 0xA9, 0xC3, 0xA9, 0xC3] r.view.message := by
  refine ⟨⟨{}, 128, .info, ⟨List.replicate 29 0x61, [], 7, 9⟩, 5,
    [.append (.text [0xC3, 0xA9, 0xC3, 0xA9, 0xC3, 0xA9, 0xC3])], _, _, _, rfl, rfl⟩, rfl, ?_, ?_⟩
  · decide +kernel
  · exact (publish_keeps_longest_message _).2 rfl

end Ulog
