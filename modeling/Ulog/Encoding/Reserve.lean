import Mathlib.Data.Nat.Digits.Lemmas
import Ulog.Encoding.Decode

/-!
# The Raw reserve

`MaximumRawEncodedBytes` gives a buffer two bytes for each byte of the Record bound and eleven for
the fixed text of a frame. Escaping at most doubles a byte of the message, of a key or of a string,
and the metadata of a field, which the frame does not show, pays for its separators and for a
printed number. So every frame of a published Record fits the reserve of its bound.
-/

namespace Ulog

open ByteMemory

/-- How long `std::to_chars` prints a double: at most 46 characters. -/
def Charconv.Bounded (conv : Charconv) : Prop := ∀ bits, (conv.double bits).length ≤ 46

theorem length_rawEscape_le (isKey : Bool) (value : Bytes) :
    (rawEscape isKey value).length ≤ 2 * value.length := by
  induction value with
  | nil => cases isKey <;> exact le_rfl
  | cons byte rest ih =>
    rw [rawEscape_cons, List.length_append, List.length_cons]
    split
    · rw [List.length_cons, List.length_singleton]
      omega
    · rw [List.length_singleton]
      omega

theorem length_decimalText_le {n k : ℕ} (hk : 0 < k) (hn : n < 10 ^ k) :
    (decimalText n).length ≤ k := by
  rw [decimalText]
  split
  · exact hk
  · rw [List.length_map, List.length_reverse]
    exact (Nat.digits_length_le_iff (by decide) n).mpr hn

theorem length_uint64Text_le (value : UInt64) : (uint64Text value).length ≤ 20 := by
  refine length_decimalText_le (by decide) (value.toNat_lt.trans ?_)
  decide

theorem length_int64Text_le (value : Int64) : (int64Text value).length ≤ 20 := by
  have hlow := value.le_toInt
  have hhigh := value.toInt_lt
  have hdigits : (decimalText value.toInt.natAbs).length ≤ 19 := by
    refine length_decimalText_le (by decide) ?_
    omega
  rw [int64Text]
  split
  · rw [List.length_cons]
    omega
  · omega

section Frame

variable {conv : Charconv} (hconv : conv.Bounded)

include hconv

theorem length_rawValue_le (value : FieldValue) :
    (rawValue conv value).length ≤ 46 + 2 * value.payload.length := by
  cases value with
  | string s => exact (length_rawEscape_le false s).trans (Nat.le_add_left _ _)
  | int64 n => exact (length_int64Text_le n).trans (by omega)
  | uint64 n => exact (length_uint64Text_le n).trans (by omega)
  | double bits => exact (hconv bits).trans (Nat.le_add_right _ _)
  | bool value =>
    change 1 ≤ _
    omega
  | null =>
    change 4 ≤ _
    omega

theorem numberFits_of_bounded (value : FieldValue) : numberFits conv value = true := by
  cases value with
  | int64 n => exact decide_eq_true ((length_int64Text_le n).trans (by decide))
  | uint64 n => exact decide_eq_true ((length_uint64Text_le n).trans (by decide))
  | double bits => exact decide_eq_true ((hconv bits).trans (by decide))
  | _ => rfl

/-- A field's text takes at most twice its bytes: the metadata pays for separators and numbers. -/
theorem length_fieldText_le (e : FieldEntry) : (fieldText conv e).length ≤ 2 * e.size := by
  have h24 : serializedFieldMetadataBytes = 24 := rfl
  have hkey := length_rawEscape_le true e.1
  have hvalue := length_rawValue_le hconv e.2
  rw [fieldText, FieldEntry.size, List.length_cons, List.length_append, List.length_cons]
  omega

theorem length_fieldsText_le (es : List FieldEntry) :
    (fieldsText conv es).length ≤ 2 * fieldBytes es := by
  induction es with
  | nil => exact le_rfl
  | cons e es ih =>
    have he := length_fieldText_le hconv e
    rw [fieldsText] at ih ⊢
    rw [List.flatMap_cons, List.length_append, fieldBytes_cons]
    omega

theorem length_rawFrame_le (c : RecordContent) :
    (rawFrame conv c).length ≤ 2 * (c.message.length + fieldBytes c.fields) + 11 := by
  have hfields := length_fieldsText_le hconv c.fields
  have hmessage := length_rawEscape_le false c.message
  have hfixed : rawPrefix.length + textPrefix.length = 10 := rfl
  rw [rawFrame]
  simp only [List.length_append, List.length_singleton]
  omega

/-- The frame of a published Record fits the reserve of any bound of its limit. -/
theorem PublishedRecord.encode_complete (r : PublishedRecord conv) {bound : ℕ}
    (hlimit : r.limit ≤ bound) (hbound : bound ≤ maximumRecordBytes) (output : Mem) :
    (encodeRawRecord conv r.view output (maximumRawEncodedBytes bound)).2.complete = true := by
  have h64 : wordModulus = 2 ^ 64 := rfl
  have hmax : maximumRecordBytes = 16384 := rfl
  have hreserve : maximumRawEncodedBytes bound = 11 + bound * 2 := by
    rw [maximumRawEncodedBytes, if_neg]
    · rfl
    · change ¬(wordModulus - 1 - 11) / 2 < bound
      omega
  have hframe := length_rawFrame_le hconv r.content
  obtain ⟨hreads, -, -, hfits⟩ := r.reads_message
  have hnumbers : r.content.fields.all (numberFits conv ·.2) = true :=
    List.all_eq_true.mpr fun e _ ↦ numberFits_of_bounded hconv e.2
  rw [encodeRawRecord_eq conv hreads, hreserve, if_pos ⟨hnumbers, by omega, by omega⟩]

end Frame

/-! ## The two passes agree -/

section Passes

variable {conv : Charconv}

theorem length_rawValue_of_numberFits {value : FieldValue} (h : numberFits conv value = true) :
    (rawValue conv value).length ≤ 64 + 2 * value.payload.length := by
  cases value with
  | string s => exact (length_rawEscape_le false s).trans (Nat.le_add_left _ _)
  | bool value =>
    change 1 ≤ _
    omega
  | null =>
    change 4 ≤ _
    omega
  | int64 n | uint64 n | double n => exact (of_decide_eq_true h).trans (Nat.le_add_right _ _)

theorem length_fieldsText_of_numberFits {es : List FieldEntry}
    (h : es.all (numberFits conv ·.2) = true) :
    (fieldsText conv es).length ≤ 3 * fieldBytes es := by
  induction es with
  | nil => exact le_rfl
  | cons e es ih =>
    rw [List.all_cons, Bool.and_eq_true] at h
    have h24 : serializedFieldMetadataBytes = 24 := rfl
    have hkey := length_rawEscape_le true e.1
    have hvalue := length_rawValue_of_numberFits h.1
    have he : (fieldText conv e).length ≤ 3 * e.size := by
      rw [fieldText, FieldEntry.size, List.length_cons, List.length_append, List.length_cons]
      omega
    have hes := ih h.2
    rw [fieldsText] at hes ⊢
    rw [List.flatMap_cons, List.length_append, fieldBytes_cons]
    omega

theorem PublishedRecord.length_rawFrame_lt (r : PublishedRecord conv)
    (hnumbers : r.content.fields.all (numberFits conv ·.2) = true) :
    (rawFrame conv r.content).length < wordModulus := by
  obtain ⟨-, -, -, hfits⟩ := r.reads_message
  have hfields := length_fieldsText_of_numberFits hnumbers
  have hmessage := length_rawEscape_le false r.content.message
  have hfixed : rawPrefix.length + textPrefix.length = 10 := rfl
  have hlimit := (building_of_begin r.begin_eq).limit_le
  have hmax : maximumRecordBytes = 16384 := rfl
  have h64 : wordModulus = 2 ^ 64 := rfl
  rw [rawFrame]
  simp only [List.length_append, List.length_singleton]
  omega

theorem PublishedRecord.requiredSize_eq (r : PublishedRecord conv) :
    requiredSize conv r.view = if r.content.fields.all (numberFits conv ·.2) then
      some (rawFrame conv r.content).length else none := by
  rw [Ulog.requiredSize_eq conv r.reads]
  split
  · next hnumbers =>
    have hlength := r.length_rawFrame_lt hnumbers
    rw [addSize, if_neg (by omega), Nat.zero_add]
  · rfl

/-- The sizing pass and the writing pass agree: `EncodeRawRecord` writes nothing where the span is
shorter than the required size, and else exactly that many bytes, the same ones in every span. -/
theorem encodeRawRecord_passes_agree (conv : Charconv) (r : PublishedRecord conv) :
    (requiredSize conv r.view = none → ∀ output size,
      encodeRawRecord conv r.view output size = (output, ⟨0, false⟩)) ∧
    (r.content.fields.all (numberFits conv ·.2) = true → ∃ required,
      requiredSize conv r.view = some required) ∧
    ∀ required, requiredSize conv r.view = some required → ∃ frame : Bytes,
      frame.length = required ∧ ∀ output size,
        (size < required → encodeRawRecord conv r.view output size = (output, ⟨0, false⟩)) ∧
        (required ≤ size →
          (encodeRawRecord conv r.view output size).2 = ⟨required, true⟩ ∧
          read (encodeRawRecord conv r.view output size).1 0 required = frame ∧
          ∀ i, required ≤ i → (encodeRawRecord conv r.view output size).1 i = output i) := by
  refine ⟨fun hnone output size ↦ ?_, fun hnumbers ↦ ?_, fun required hrequired ↦ ?_⟩
  · rw [encodeRawRecord, hnone]
  · rw [r.requiredSize_eq, if_pos hnumbers]
    exact ⟨_, rfl⟩
  · have hsize := hrequired
    rw [r.requiredSize_eq] at hsize
    split_ifs at hsize with hnumbers
    cases hsize
    refine ⟨rawFrame conv r.content, rfl, fun output size ↦ ⟨fun hshort ↦ ?_, fun hlong ↦ ?_⟩⟩
    · rw [encodeRawRecord, hrequired]
      exact if_pos hshort
    · rw [encodeRawRecord_eq conv r.reads,
        if_pos ⟨hnumbers, r.length_rawFrame_lt hnumbers, hlong⟩]
      refine ⟨rfl, read_write_same output 0 (rawFrame conv r.content), fun i hi ↦ ?_⟩
      change write output 0 (rawFrame conv r.content) i = output i
      exact write_apply_of_outside (.inr (by omega))

end Passes

end Ulog
