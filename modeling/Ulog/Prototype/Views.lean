import Ulog.Prototype.Slot
import Ulog.Record.RoundTrip
import Mathlib.Data.List.GetD

/-!
# What the prototype's views show

Readers go through segments and views decode what a reader gives them. Over a storage that stands
for a flat memory both see that memory, so a view shows what lies there: `TextView.Shows` and
`FieldView.Shows` list every accessor. The byte-wise UTF-8 scan of the source agrees with the scan
of the bytes in one piece.
-/

namespace Ulog.Prototype

open ByteMemory

/-! ## Readers of a flat memory -/

/-- Inside the slot the reader sees the memory `m`. -/
structure StorageReader.Reads (r : StorageReader) (m : Mem) : Prop where
  readByte : ∀ {off}, off < maximumSerializedBytes → r.readByte off = m off
  copyOut : ∀ {off n}, off + n ≤ maximumSerializedBytes → r.copyOut off n = read m off n

theorem StorageReader.reads_ofStorage {p : Policy} (s : p.Storage) :
    (StorageReader.ofStorage s).Reads (flat s) :=
  ⟨readByte_eq, copyOut_eq⟩

namespace StorageReader.Reads

variable {r : StorageReader} {m : Mem} {off size : ℕ}

theorem readObject (h : r.Reads m) {widths : List ℕ}
    (hfit : off + widths.sum ≤ maximumSerializedBytes) :
    Prototype.readObject r off widths = readWords m off widths := by
  rw [Prototype.readObject, h.copyOut hfit, readWords_write_read]

theorem readField (h : r.Reads m)
    (hfit : off + serializedFieldMetadataBytes ≤ maximumSerializedBytes) :
    Prototype.readField r off = SerializedField.read m off := by
  rw [Prototype.readField, h.readObject hfit, SerializedField.read]

/-! ## The UTF-8 scan -/

/-- One round of the scan looks at the bytes it would see in one piece. -/
theorem utf8HeadSizeAt (h : r.Reads m) (hfit : off + size ≤ maximumSerializedBytes)
    (hsize : 0 < size) : Prototype.utf8HeadSizeAt r off size = utf8HeadSize (read m off size) := by
  obtain ⟨n, rfl⟩ := Nat.exists_eq_succ_of_ne_zero hsize.ne'
  rw [Prototype.utf8HeadSizeAt, read_succ, utf8HeadSize, h.readByte (by omega), length_read]
  cases utf8SequenceSize (m off) with
  | none => rfl
  | some k =>
    dsimp only
    by_cases hshort : n + 1 < k
    · rw [if_pos hshort, if_pos hshort]
    · have hall : ((List.range (k - 1)).all fun i ↦
          isContinuationByte (r.readByte (off + 1 + i))) =
            ((read m (off + 1) n).take (k - 1)).all isContinuationByte := by
        rw [take_read _ _ (by omega), read_eq_map, List.all_map, Bool.eq_iff_iff,
          List.all_eq_true, List.all_eq_true]
        refine forall₂_congr fun i hi ↦ ?_
        rw [h.readByte (by have := List.mem_range.mp hi; omega)]
        rfl
      have hsecond : (decide (3 ≤ k) && isForbiddenSecondByte (m off) (r.readByte (off + 1))) =
          (isForbiddenSecondByte (m off) ((read m (off + 1) n).headD 0) && decide (3 ≤ k)) := by
        rw [Bool.and_comm]
        by_cases hk : 3 ≤ k
        · obtain ⟨j, rfl⟩ := Nat.exists_eq_succ_of_ne_zero (show n ≠ 0 by omega)
          rw [h.readByte (by omega), read_succ, List.headD_cons]
        · rw [decide_eq_false hk, Bool.and_false, Bool.and_false]
      rw [if_neg hshort, if_neg hshort, hall, hsecond]

theorem validUtf8PrefixScanAt (h : r.Reads m) (fuel : ℕ)
    (hfit : off + size ≤ maximumSerializedBytes) :
    Prototype.validUtf8PrefixScanAt r fuel off size =
      validUtf8PrefixScan fuel (read m off size) := by
  induction fuel generalizing off size with
  | zero => rfl
  | succ fuel ih =>
    rw [Prototype.validUtf8PrefixScanAt, validUtf8PrefixScan]
    by_cases hsize : size = 0
    · rw [if_pos hsize, hsize]
      rfl
    · rw [if_neg hsize, h.utf8HeadSizeAt hfit (by omega)]
      cases hn : utf8HeadSize (read m off size) with
      | none => rfl
      | some n =>
        have hle : n ≤ size := by simpa using utf8HeadSize_le hn
        dsimp only
        rw [ih (by omega), drop_read _ _ hle]

/-- The two versions of `ValidUtf8PrefixLength` agree. -/
theorem validUtf8PrefixLengthAt (h : r.Reads m) (hfit : off + size ≤ maximumSerializedBytes) :
    Prototype.validUtf8PrefixLengthAt r off size = validUtf8PrefixLength (read m off size) := by
  rw [Prototype.validUtf8PrefixLengthAt, h.validUtf8PrefixScanAt _ hfit, validUtf8PrefixLength,
    length_read]

end StorageReader.Reads

/-! ## Texts -/

/-- The view shows the text, through every accessor. -/
structure TextView.Shows (v : TextView) (text : Bytes) : Prop where
  size : v.size = text.length
  bytes : v.bytes = text
  copyTo : ∀ capacity, v.copyTo capacity = text.take capacity
  equals : ∀ value, v.equals value = decide (value = text)

theorem StorageReader.Reads.shows_text {r : StorageReader} {m : Mem} {off : ℕ} {text : Bytes}
    (h : r.Reads m) (hfit : off + text.length ≤ maximumSerializedBytes)
    (hread : read m off text.length = text) : TextView.Shows ⟨r, off, text.length⟩ text := by
  have hbyte : ∀ i ∈ List.range text.length, r.readByte (off + i) = m (off + i) :=
    fun i hi ↦ h.readByte (by have := List.mem_range.mp hi; omega)
  have hbytes : TextView.bytes ⟨r, off, text.length⟩ = text := by
    rw [TextView.bytes, List.map_congr_left hbyte, ← read_eq_map, hread]
  refine ⟨rfl, hbytes, fun capacity ↦ ?_, fun value ↦ ?_⟩
  · have htake : text.take (min text.length capacity) = text.take capacity := by
      rw [min_comm, ← List.take_take, List.take_length]
    rw [TextView.copyTo]
    dsimp only
    split
    · rw [h.copyOut (by omega), ← take_read m off (Nat.min_le_left ..), hread, htake]
    · next hzero =>
      rw [← htake, not_not.mp hzero]
      rfl
  · rw [TextView.equals]
    dsimp only
    by_cases hlength : value.length = text.length
    · have hget : ∀ i (hi : i < text.length), text[i] = m (off + i) := fun i hi ↦ by
        rw [List.getElem_of_eq hread.symm, List.getElem_of_eq (read_eq_map ..), List.getElem_map,
          List.getElem_range]
      rw [if_neg (not_not.mpr hlength), Bool.eq_iff_iff, List.all_eq_true, decide_eq_true_iff]
      refine ⟨fun hall ↦ List.ext_getElem hlength fun i hi hi' ↦ ?_, fun heq i hi ↦ ?_⟩
      · have hmem := List.mem_range.mpr hi'
        rw [← List.getD_eq_getElem value 0 hi, ← beq_iff_eq.mp (hall i hmem), hbyte i hmem,
          hget i hi']
      · have hlt := List.mem_range.mp hi
        rw [hbyte i hi, heq, List.getD_eq_getElem text 0 hlt, hget i hlt, beq_self_eq_true]
    · rw [if_pos hlength, eq_comm, decide_eq_false_iff_not]
      exact fun heq ↦ hlength (congrArg List.length heq)

/-! ## Fields -/

section Values

/-- The value, if it is a string; the other accessors likewise. -/
def stringOf : FieldValue → Option Bytes
  | .string value => some value
  | _ => none

def int64Of : FieldValue → Option Int64
  | .int64 value => some value
  | _ => none

def uint64Of : FieldValue → Option UInt64
  | .uint64 value => some value
  | _ => none

def doubleOf : FieldValue → Option UInt64
  | .double bits => some bits
  | _ => none

def boolOf : FieldValue → Option Bool
  | .bool value => some value
  | _ => none

end Values

/-- The view shows the field, through every accessor. -/
structure FieldView.Shows (v : FieldView) (e : FieldEntry) : Prop where
  key : v.key.Shows e.1
  kind : v.kind = some e.2.kind
  asString : Option.Rel TextView.Shows v.asString (stringOf e.2)
  asInt64 : v.asInt64 = int64Of e.2
  asUInt64 : v.asUInt64 = uint64Of e.2
  asDouble : v.asDouble = doubleOf e.2
  asBool : v.asBool = boolOf e.2
  isNull : v.isNull = decide (e.2 = .null)

theorem payload_of_kind_ne_string {value : FieldValue} (h : value.kind ≠ .string) :
    value.payload = [] := by
  cases value with
  | string => exact absurd rfl h
  | _ => rfl

section Stored

variable {r : StorageReader} {m : Mem} {off next : ℕ} {e : FieldEntry}

theorem kind_metadata : FieldView.kind ⟨r, e.metadata off next⟩ = some e.2.kind :=
  FieldKind.ofByte_toByte _

theorem readScalar_metadata {k : FieldKind} (hstring : k ≠ .string) :
    FieldView.readScalar ⟨r, e.metadata off next⟩ k =
      if e.2.kind = k then some (UInt64.ofNat e.2.scalarBits) else none := by
  rw [FieldView.readScalar, kind_metadata]
  by_cases hk : e.2.kind = k
  · have hempty := payload_of_kind_ne_string (hk ▸ hstring)
    rw [if_neg (not_not.mpr (congrArg some hk)), if_pos hk]
    simp only [FieldEntry.metadata, hempty, List.isEmpty_nil, if_true]
    rw [halves_or e.2.scalarBits_lt]
  · rw [if_pos fun heq ↦ hk (Option.some.inj heq), if_neg hk]

/-- A string is found by offset and size, the empty one at the start of the slot. -/
theorem asString_metadata (h : r.Reads m) (hstored : FieldStored m off next e)
    (hfit : off + e.size ≤ maximumSerializedBytes) :
    Option.Rel TextView.Shows (FieldView.asString ⟨r, e.metadata off next⟩) (stringOf e.2) := by
  have hpayload := hstored.payload
  rw [FieldView.asString, kind_metadata]
  obtain ⟨key, value⟩ := e
  cases value with
  | string value =>
    rw [FieldValue.kind, if_neg (not_not.mpr rfl)]
    refine .some ?_
    by_cases hempty : value = []
    · subst hempty
      simp only [FieldEntry.metadata, FieldValue.payload, FieldValue.scalarBits, List.isEmpty_nil,
        if_true, Nat.zero_mod, Nat.zero_div]
      exact h.shows_text (show 0 + [].length ≤ _ from Nat.zero_le _) rfl
    · simp only [FieldEntry.metadata, FieldValue.payload, List.isEmpty_iff, if_neg hempty]
      refine h.shows_text ?_ hpayload
      rw [FieldEntry.size, FieldValue.payload] at hfit
      dsimp only at hfit
      omega
  | _ =>
    rw [if_pos (by simp [FieldValue.kind])]
    exact .none

theorem StorageReader.Reads.shows_field (h : r.Reads m) (hstored : FieldStored m off next e)
    (hfit : off + e.size ≤ maximumSerializedBytes) :
    FieldView.Shows ⟨r, Prototype.readField r off⟩ e := by
  have hsize := e.size_eq
  rw [h.readField (by omega), hstored.metadata]
  have hkey : off + serializedFieldMetadataBytes + e.1.length ≤ maximumSerializedBytes := by omega
  refine ⟨h.shows_text hkey hstored.key, kind_metadata, asString_metadata h hstored hfit,
    ?_, ?_, ?_, ?_, ?_⟩
  · rw [FieldView.asInt64, readScalar_metadata (by decide)]
    cases e.2 <;> simp [FieldValue.kind, int64Of, FieldValue.scalarBits]
  · rw [FieldView.asUInt64, readScalar_metadata (by decide)]
    cases e.2 <;> simp [FieldValue.kind, uint64Of, FieldValue.scalarBits]
  · rw [FieldView.asDouble, readScalar_metadata (by decide)]
    cases e.2 <;> simp [FieldValue.kind, doubleOf, FieldValue.scalarBits]
  · rw [FieldView.asBool, kind_metadata]
    obtain ⟨key, value⟩ := e
    cases value with
    | bool value =>
      cases value <;> rfl
    | _ => simp [FieldValue.kind, boolOf]
  · rw [FieldView.isNull, kind_metadata]
    cases e.2 <;> simp [FieldValue.kind]

/-- `FieldAt` walks the chain: after `n` links it stands at the `n`-th field. -/
theorem StorageReader.Reads.fieldOffset_of_fieldChain {hi : ℕ} {es : List FieldEntry}
    (h : r.Reads m) (hchain : FieldChain m 0 hi es) (hhi : hi ≤ maximumSerializedBytes)
    (hfit : fieldBytes es ≤ hi) {n : ℕ} (hn : es[n]? = some e) :
    ∃ off next, RecordView.fieldOffset r (chainHead hi 0 es) n = off ∧
      FieldStored m off next e ∧ off + e.size ≤ maximumSerializedBytes := by
  induction es generalizing hi n with
  | nil => cases hn
  | cons e' es ih =>
    rw [fieldBytes_cons] at hfit
    cases n with
    | zero =>
      cases hn
      exact ⟨hi - e.size, _, rfl, hchain.1, by omega⟩
    | succ n =>
      have hsize := e'.metadataBytes_le_size
      have hlink : (Prototype.readField r (hi - e'.size)).nextOffset =
          chainHead (hi - e'.size) 0 es := by
        rw [h.readField (by omega), hchain.1.metadata]
        rfl
      rw [chainHead, RecordView.fieldOffset, hlink]
      exact ih hchain.2 (by omega) (by omega) hn

end Stored

end Ulog.Prototype
