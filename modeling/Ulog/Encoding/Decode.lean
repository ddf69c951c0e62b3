import Ulog.Encoding.Raw
import Ulog.Foundation.Escaping
import Ulog.Record.RoundTrip
import Mathlib.Tactic.IntervalCases

/-!
# Raw frames can be decoded

The bytes of a frame are a function of the Record's content alone, `rawFrame`; that the encoder
writes exactly them is the bridge from the two passes over a view. Keys and values are escaped by
two schemes that differ in the equals sign, and the delimiters of a frame never occur in escaped
text. So a stream is cut at line feeds, a frame at tabs and a pair at its first bare equals sign.
-/

namespace Ulog

open ByteMemory

variable {fields : FieldCursor} {es : List FieldEntry} {c : RecordContent} {v : RecordView}
  {b : UInt8}

/-! ## The two escape schemes -/

theorem escapeCode_eq_zero {value : UInt8} (hge : 0x3e ≤ value) (hne : value ≠ 0x5c)
    (isKey : Bool) : escapeCode value isKey = 0 := by
  have h : ∀ c : UInt8, c < 0x3e → value ≠ c := by
    rintro c hc rfl
    exact absurd hge (by simpa using hc)
  simp only [escapeCode, h 0x00 (by decide), h 0x09 (by decide), h 0x0a (by decide),
    h 0x0d (by decide), h 0x3d (by decide), hne, if_false]

/-- Lower-casing changes letters only, and letters are never escaped. -/
theorem escapeCode_normalizeKeyByte (value : UInt8) (isKey : Bool) :
    escapeCode (normalizeKeyByte value) isKey = escapeCode value isKey := by
  rw [normalizeKeyByte]
  split
  · next h =>
    rw [escapeCode_eq_zero (by grind) (by grind), escapeCode_eq_zero (by grind) (by grind)]
  · rfl

/-- The escape scheme of keys or of values. -/
def rawEscaping (isKey : Bool) : Escaping UInt8 where
  quote := 0x5c
  code value := if escapeCode value isKey = 0 then none else some (escapeCode value isKey)
  letter value :=
    if value = 0x30 then some 0x00
    else if value = 0x74 then some 0x09
    else if value = 0x6e then some 0x0a
    else if value = 0x72 then some 0x0d
    else if value = 0x5c then some 0x5c
    else if value = 0x3d ∧ isKey then some 0x3d
    else none
  letter_code := by
    intro a c h
    simp only [escapeCode] at h
    split_ifs at h <;> simp_all <;> grind
  code_quote := by cases isKey <;> decide

/-- The escaped form of a key, lower-cased, or of a value. -/
def rawEscape (isKey : Bool) (value : Bytes) : Bytes :=
  (rawEscaping isKey).escape (if isKey then value.map normalizeKeyByte else value)

theorem rawEscape_cons (isKey : Bool) (byte : UInt8) (rest : Bytes) :
    rawEscape isKey (byte :: rest) =
      (if escapeCode byte isKey ≠ 0 then [0x5c, escapeCode byte isKey]
        else [if isKey then normalizeKeyByte byte else byte]) ++ rawEscape isKey rest := by
  have hone : ∀ b : UInt8, (rawEscaping isKey).escapeOne b
      = if escapeCode b isKey ≠ 0 then [0x5c, escapeCode b isKey] else [b] := by
    intro b
    by_cases h : escapeCode b isKey = 0 <;> simp [Escaping.escapeOne, rawEscaping, h]
  cases isKey with
  | false => exact congrArg (· ++ _) (hone byte)
  | true =>
    rw [rawEscape, if_pos rfl, List.map_cons, Escaping.escape_cons, hone,
      escapeCode_normalizeKeyByte, if_pos rfl]
    rfl

/-! ## The bytes of a frame -/

/-- The text of a value before escaping. -/
def printedValue (conv : Charconv) : FieldValue → Bytes
  | .string value => value
  | .int64 value => int64Text value
  | .uint64 value => uint64Text value
  | .double bits => conv.double bits
  | .bool value => [if value then 0x31 else 0x30]
  | .null => nullValue

/-- The text of a value in a frame: only strings are escaped. -/
def rawValue (conv : Charconv) : FieldValue → Bytes
  | .string value => rawEscape false value
  | value => printedValue conv value

/-- The text of a number fits the buffer in which its size is measured. -/
def numberFits (conv : Charconv) : FieldValue → Bool
  | .string _ | .bool _ | .null => true
  | value => (printedValue conv value).length ≤ 64

def fieldText (conv : Charconv) (e : FieldEntry) : Bytes :=
  fieldSeparator :: (rawEscape true e.1 ++ keyValueSeparator :: rawValue conv e.2)

def fieldsText (conv : Charconv) (es : List FieldEntry) : Bytes := es.flatMap (fieldText conv)

def rawFrame (conv : Charconv) (c : RecordContent) : Bytes :=
  rawPrefix ++ fieldsText conv c.fields ++ textPrefix ++ rawEscape false c.message
    ++ [recordTerminator]

/-! ### The sizing pass -/

theorem addSize_bind (total a b : ℕ) :
    (addSize total a).bind (addSize · b) = addSize total (a + b) := by
  simp only [addSize]
  split
  · rw [if_pos (by omega), Option.bind_none]
  · rw [Option.bind_some]
    split
    · rw [if_pos (by omega)]
    · rw [if_neg (by omega), Nat.add_assoc]

theorem addEscapedSize_eq (isKey : Bool) (total : ℕ) (value : Bytes) :
    addEscapedSize isKey total value = addSize total (rawEscape isKey value).length := by
  induction value generalizing total with
  | nil =>
    rw [addEscapedSize, show rawEscape isKey [] = [] by cases isKey <;> rfl, List.length_nil,
      addSize, if_neg (Nat.not_lt_zero _), Nat.add_zero]
  | cons byte rest ih =>
    rw [addEscapedSize, rawEscape_cons, List.length_append, ← addSize_bind]
    simp only [ih]
    by_cases h : escapeCode byte isKey = 0 <;> simp [h]

theorem FieldView.of_triple {v : FieldView} {e : FieldEntry} (h : v.triple = e.triple) :
    v.key = e.1 ∧ v.kind = some e.2.kind ∧ v.value = some e.2 :=
  ⟨congrArg Prod.fst h, congrArg (·.2.1) h, congrArg (·.2.2) h⟩

theorem addFieldValueSize_eq (conv : Charconv) (total : ℕ) {v : FieldView} {e : FieldEntry}
    (h : v.triple = e.triple) :
    addFieldValueSize conv total v =
      if numberFits conv e.2 then addSize total (rawValue conv e.2).length else none := by
  obtain ⟨-, hkind, hvalue⟩ := FieldView.of_triple h
  obtain ⟨key, value⟩ := e
  have hnumber : ∀ text : Bytes, (formattedNumberSize text).bind (addSize total)
      = if decide (text.length ≤ 64) then addSize total text.length else none := by
    intro text
    rw [formattedNumberSize, toChars]
    by_cases hfit : text.length ≤ 64 <;> simp [hfit]
  cases value <;> simp only [FieldValue.kind] at hkind <;>
    simp only [FieldView.value, hkind, Option.map_eq_some_iff] at hvalue
  case string s =>
    obtain ⟨_, hs, ⟨⟩⟩ := hvalue
    simp [addFieldValueSize, hkind, hs, addEscapedSize_eq, numberFits, rawValue]
  case int64 n =>
    obtain ⟨_, hs, ⟨⟩⟩ := hvalue
    simp only [addFieldValueSize, hkind, hs, Option.bind_eq_bind, Option.bind_some]
    exact hnumber _
  case uint64 n =>
    obtain ⟨_, hs, ⟨⟩⟩ := hvalue
    simp only [addFieldValueSize, hkind, hs, Option.bind_eq_bind, Option.bind_some]
    exact hnumber _
  case double bits =>
    obtain ⟨_, hs, ⟨⟩⟩ := hvalue
    simp only [addFieldValueSize, hkind, hs, Option.bind_eq_bind, Option.bind_some]
    exact hnumber _
  case bool b =>
    obtain ⟨_, hs, ⟨⟩⟩ := hvalue
    simp [addFieldValueSize, hkind, hs, numberFits, rawValue, printedValue]
  case null =>
    simp [addFieldValueSize, hkind, FieldView.isNull, numberFits, rawValue, printedValue]

/-- The cursor still has to answer exactly the fields `es`. -/
def FieldCursor.Shows (fields : FieldCursor) (es : List FieldEntry) : Prop :=
  ∀ n, (fields.skip n).next.1.map FieldView.triple = es[n]?.map FieldEntry.triple

theorem FieldCursor.Shows.cons {e : FieldEntry} (h : fields.Shows (e :: es)) :
    ∃ v, fields.next.1 = some v ∧ v.triple = e.triple ∧ fields.next.2.Shows es := by
  obtain ⟨v, hv, htriple⟩ := Option.map_eq_some_iff.mp (h 0)
  exact ⟨v, hv, htriple, fun n ↦ h (n + 1)⟩

theorem addFieldsSize_eq (conv : Charconv) {total : ℕ} (h : fields.Shows es) :
    addFieldsSize conv es.length total fields =
      if es.all (numberFits conv ·.2) then addSize total (fieldsText conv es).length else none := by
  induction es generalizing total fields with
  | nil => simp [addFieldsSize, fieldsText, addSize]
  | cons e es ih =>
    obtain ⟨v, hv, htriple, hrest⟩ := h.cons
    obtain ⟨hkey, -, -⟩ := FieldView.of_triple htriple
    have hlen : (fieldsText conv (e :: es)).length =
        1 + ((rawEscape true e.1).length + (1 + ((rawValue conv e.2).length
          + (fieldsText conv es).length))) := by
      simp only [fieldsText, List.flatMap_cons, fieldText, List.length_append, List.length_cons]
      omega
    rw [List.length_cons, addFieldsSize]
    simp only [hv, hkey, addFieldValueSize_eq conv _ htriple, addEscapedSize_eq, ih hrest, hlen,
      ← addSize_bind, List.all_cons, Option.bind_eq_bind, Option.bind_some]
    cases numberFits conv e.2
    · simp
    · cases es.all (numberFits conv ·.2) <;> simp

theorem requiredSize_eq (conv : Charconv) (h : v.Reads c) :
    requiredSize conv v =
      if c.fields.all (numberFits conv ·.2) then addSize 0 (rawFrame conv c).length else none := by
  have hlen : (rawFrame conv c).length = rawPrefix.length + ((fieldsText conv c.fields).length
      + (textPrefix.length + ((rawEscape false c.message).length + 1))) := by
    simp only [rawFrame, List.length_append, List.length_singleton]
    omega
  have hprefix : addSize 0 rawPrefix.length = some rawPrefix.length := by decide
  rw [requiredSize, h.fieldCount, addFieldsSize_eq conv h.cursor, h.message, hlen]
  simp only [← addSize_bind _ rawPrefix.length, hprefix, Option.bind_some, addEscapedSize_eq,
    Option.bind_eq_bind]
  cases c.fields.all (numberFits conv ·.2)
  · simp
  · simp [← addSize_bind]

/-! ### The writing pass -/

namespace RawOutput

theorem writeLiteral_nil (o : RawOutput) : o.writeLiteral [] = o := by
  rw [writeLiteral, write_nil, List.length_nil, Nat.add_zero]

theorem writeLiteral_append (o : RawOutput) (a b : Bytes) :
    (o.writeLiteral a).writeLiteral b = o.writeLiteral (a ++ b) := by
  simp only [writeLiteral, write_append, List.length_append, Nat.add_assoc]

theorem writeEscaped_eq (isKey : Bool) (o : RawOutput) (value : Bytes) :
    o.writeEscaped isKey value = o.writeLiteral (rawEscape isKey value) := by
  induction value generalizing o with
  | nil =>
    rw [writeEscaped, show rawEscape isKey [] = [] by cases isKey <;> rfl, writeLiteral_nil]
  | cons byte rest ih =>
    rw [writeEscaped, rawEscape_cons]
    by_cases h : escapeCode byte isKey = 0
    · rw [if_neg (not_not.mpr h), if_neg (not_not.mpr h), ih, writeByte, writeLiteral_append]
    · rw [if_pos h, if_pos h, ih, writeByte, writeByte, writeLiteral_append, writeLiteral_append]
      rfl

theorem writeFieldValue_eq (conv : Charconv) {o : RawOutput} {v : FieldView} {e : FieldEntry}
    (h : v.triple = e.triple) (hfit : o.cursor + (rawValue conv e.2).length ≤ o.size) :
    o.writeFieldValue conv v = some (o.writeLiteral (rawValue conv e.2)) := by
  obtain ⟨-, hkind, hvalue⟩ := FieldView.of_triple h
  obtain ⟨key, value⟩ := e
  have hnumber : ∀ text : Bytes, o.cursor + text.length ≤ o.size →
      o.writeNumber text = o.writeLiteral text := by
    intro text htext
    rw [writeNumber, toChars, if_pos (by omega)]
  cases value <;> simp only [FieldValue.kind] at hkind <;>
    simp only [FieldView.value, hkind, Option.map_eq_some_iff] at hvalue
  case string s =>
    obtain ⟨_, hs, ⟨⟩⟩ := hvalue
    simp only [writeFieldValue, hkind, hs, Option.map_some, writeEscaped_eq, rawValue]
  case int64 n =>
    obtain ⟨_, hs, ⟨⟩⟩ := hvalue
    simp only [writeFieldValue, hkind, hs, Option.map_some]
    exact congrArg some (hnumber _ hfit)
  case uint64 n =>
    obtain ⟨_, hs, ⟨⟩⟩ := hvalue
    simp only [writeFieldValue, hkind, hs, Option.map_some]
    exact congrArg some (hnumber _ hfit)
  case double bits =>
    obtain ⟨_, hs, ⟨⟩⟩ := hvalue
    simp only [writeFieldValue, hkind, hs, Option.map_some]
    exact congrArg some (hnumber _ hfit)
  case bool b =>
    obtain ⟨_, hs, ⟨⟩⟩ := hvalue
    simp only [writeFieldValue, hkind, hs, Option.map_some, writeByte, rawValue, printedValue]
  case null =>
    simp [writeFieldValue, hkind, FieldView.isNull, rawValue, printedValue]

theorem writeFields_eq (conv : Charconv) {o : RawOutput} (h : fields.Shows es)
    (hfit : o.cursor + (fieldsText conv es).length ≤ o.size) :
    writeFields conv es.length o fields = (o.writeLiteral (fieldsText conv es), true) := by
  induction es generalizing o fields with
  | nil => rw [List.length_nil, writeFields, fieldsText, List.flatMap_nil, writeLiteral_nil]
  | cons e es ih =>
    obtain ⟨v, hv, htriple, hrest⟩ := h.cons
    obtain ⟨hkey, -, -⟩ := FieldView.of_triple htriple
    have hsplit : fieldsText conv (e :: es) = [fieldSeparator] ++ rawEscape true e.1
        ++ [keyValueSeparator] ++ rawValue conv e.2 ++ fieldsText conv es := by
      simp [fieldsText, fieldText]
    have hbefore : ((o.writeByte fieldSeparator).writeEscaped true e.1).writeByte
        keyValueSeparator = o.writeLiteral ([fieldSeparator] ++ rawEscape true e.1
          ++ [keyValueSeparator]) := by
      rw [writeEscaped_eq, writeByte, writeByte, writeLiteral_append, writeLiteral_append,
        List.append_assoc]
    rw [hsplit] at hfit ⊢
    generalize [fieldSeparator] ++ rawEscape true e.1 ++ [keyValueSeparator] = start
      at hbefore hfit ⊢
    rw [List.length_append, List.length_append] at hfit
    rw [List.length_cons, writeFields]
    simp only [hv, hkey, hbefore]
    rw [writeFieldValue_eq conv htriple (by simp only [writeLiteral]; omega)]
    simp only
    rw [ih hrest (by simp only [writeLiteral]; omega), writeLiteral_append, writeLiteral_append,
      List.append_assoc]

end RawOutput

/-- `EncodeRawRecord` writes the whole frame or nothing. -/
theorem encodeRawRecord_eq (conv : Charconv) (h : v.Reads c) (output : Mem) (size : ℕ) :
    encodeRawRecord conv v output size =
      if c.fields.all (numberFits conv ·.2) ∧ (rawFrame conv c).length < wordModulus ∧
          (rawFrame conv c).length ≤ size then
        (write output 0 (rawFrame conv c), ⟨(rawFrame conv c).length, true⟩)
      else (output, {}) := by
  rw [encodeRawRecord, requiredSize_eq conv h]
  by_cases hnumbers : c.fields.all (numberFits conv ·.2) = true
  · rw [if_pos hnumbers, addSize]
    by_cases hword : (rawFrame conv c).length < wordModulus
    · rw [if_neg (by omega), Nat.zero_add]
      by_cases hsize : (rawFrame conv c).length ≤ size
      · have hfields := RawOutput.writeFields_eq conv (o :=
          (RawOutput.mk output size 0).writeLiteral rawPrefix) h.cursor (by
            simp only [rawFrame, List.length_append] at hsize
            simp only [RawOutput.writeLiteral]
            omega)
        rw [if_pos ⟨hnumbers, hword, hsize⟩]
        simp only [if_neg (Nat.not_lt.mpr hsize), h.fieldCount, hfields, h.message,
          RawOutput.writeEscaped_eq, RawOutput.writeByte, RawOutput.writeLiteral_append]
        simp only [RawOutput.writeLiteral, Nat.zero_add, rawFrame, List.append_assoc]
      · simp only [if_pos (Nat.lt_of_not_le hsize), hsize, and_false, if_false]
    · rw [if_pos (by have : 0 < wordModulus := by decide
                     omega)]
      simp only [hword, false_and, and_false, if_false]
  · rw [if_neg hnumbers, if_neg fun hall ↦ hnumbers hall.1]

theorem encodedFrame_eq (conv : Charconv) (h : v.Reads c) {output : Mem} {size : ℕ}
    (hcomplete : (encodeRawRecord conv v output size).2.complete) :
    encodedFrame conv v output size = rawFrame conv c := by
  rw [encodedFrame]
  rw [encodeRawRecord_eq conv h] at hcomplete ⊢
  split at hcomplete
  · next hfit => rw [if_pos hfit, read_write_same]
  · cases hcomplete

/-! ## The decoder -/

/-- Split a pair at its first bare equals sign and undo the escapes of both sides. -/
def decodePair (pair : Bytes) : Option (Bytes × Bytes) := do
  let (key, value) ← (rawEscaping true).splitFirst keyValueSeparator pair
  return (← (rawEscaping true).unescape key, ← (rawEscaping false).unescape value)

/-- The pairs of one frame, given without its line feed. -/
def decodeFrame (frame : Bytes) : Option (List (Bytes × Bytes)) :=
  match frame.splitOn fieldSeparator with
  | [] => none
  | head :: pairs => if head = rawPrefix then pairs.mapM decodePair else none

/-- Cut a stream after each line feed and decode the frames. -/
def decodeFrames (stream : Bytes) : Option (List (List (Bytes × Bytes))) :=
  let parts := stream.splitOn recordTerminator
  if parts.getLast? = some [] then parts.dropLast.mapM decodeFrame else none

/-- What a frame says: a lower-cased key and a printed value per field, and the message. -/
def rawPairs (conv : Charconv) (c : RecordContent) : List (Bytes × Bytes) :=
  c.fields.map (fun e ↦ (e.1.map normalizeKeyByte, printedValue conv e.2))
    ++ [([0x74, 0x65, 0x78, 0x74], c.message)]

/-- A pair as it stands in a frame. -/
def pairText (p : Bytes × Bytes) : Bytes :=
  (rawEscaping true).escape p.1 ++ keyValueSeparator :: (rawEscaping false).escape p.2

theorem decodePair_pairText (p : Bytes × Bytes) : decodePair (pairText p) = some p := by
  rw [decodePair, pairText, Escaping.splitFirst_escape (by decide) (by decide)]
  simp [Escaping.unescape_escape]

/-- No delimiter and no NUL, CR or LF byte occurs in a pair. -/
theorem not_mem_pairText (hb : b ∈ [fieldSeparator, recordTerminator, 0x00, 0x0d])
    (p : Bytes × Bytes) : b ∉ pairText p := by
  have hescaped : ∀ isKey xs, b ∉ (rawEscaping isKey).escape xs := by
    intro isKey xs
    refine Escaping.not_mem_escape ?_ ?_ (fun a ↦ ?_) xs
    · simp only [List.mem_cons, List.not_mem_nil, or_false] at hb
      rcases hb with rfl | rfl | rfl | rfl <;> cases isKey <;> decide
    · change b ≠ 0x5c
      simp only [List.mem_cons, List.not_mem_nil, or_false] at hb
      rcases hb with rfl | rfl | rfl | rfl <;> decide
    · simp only [rawEscaping, escapeCode]
      revert b
      simp only [fieldSeparator, recordTerminator, List.forall_mem_cons]
      refine ⟨?_, ?_, ?_, ?_, by simp⟩ <;> split_ifs <;> simp_all
  intro hmem
  rcases List.mem_append.mp hmem with hkey | hrest
  · exact hescaped true _ hkey
  · rcases List.mem_cons.mp hrest with rfl | hvalue
    · revert hb
      decide
    · exact hescaped false _ hvalue

/-- Every number prints to bytes that stand for themselves; for doubles this is assumed. -/
def Charconv.Plain (conv : Charconv) : Prop :=
  ∀ bits, ∀ b ∈ conv.double bits, escapeCode b false = 0

theorem escapeCode_decimalText {n : ℕ} (h : b ∈ decimalText n) : escapeCode b false = 0 := by
  rw [decimalText] at h
  split at h
  · rw [List.mem_singleton.mp h]
    decide
  · obtain ⟨d, hd, rfl⟩ := List.mem_map.mp h
    have hlt : d < 10 := Nat.digits_lt_base (by decide) (List.mem_reverse.mp hd)
    interval_cases d <;> decide

theorem rawValue_eq {conv : Charconv} (hconv : conv.Plain) (value : FieldValue) :
    rawValue conv value = (rawEscaping false).escape (printedValue conv value) := by
  have hself : ∀ xs : Bytes, (∀ b ∈ xs, escapeCode b false = 0) →
      xs = (rawEscaping false).escape xs := by
    intro xs hxs
    refine (Escaping.escape_eq_self fun b hb ↦ ?_).symm
    exact if_pos (hxs b hb)
  cases value with
  | string s => rfl
  | int64 n =>
    refine hself (int64Text n) fun b hb ↦ ?_
    rw [int64Text] at hb
    split at hb
    · rcases List.mem_cons.mp hb with rfl | hdigit
      · decide
      · exact escapeCode_decimalText hdigit
    · exact escapeCode_decimalText hb
  | uint64 n => exact hself _ fun b hb ↦ escapeCode_decimalText hb
  | double bits => exact hself _ (hconv bits)
  | bool b =>
    refine hself [_] (List.forall_mem_singleton.mpr ?_)
    cases b <;> decide
  | null =>
    have hplain : nullValue.all (fun b ↦ escapeCode b false = 0) = true := by decide
    exact hself nullValue fun b hb ↦ of_decide_eq_true (List.all_eq_true.mp hplain b hb)

theorem rawFrame_eq {conv : Charconv} (hconv : conv.Plain) (c : RecordContent) :
    rawFrame conv c = (rawPrefix ++ (rawPairs conv c).flatMap (fieldSeparator :: pairText ·))
      ++ [recordTerminator] := by
  have hfields : fieldsText conv c.fields = (c.fields.map fun e ↦
      (e.1.map normalizeKeyByte, printedValue conv e.2)).flatMap
        (fieldSeparator :: pairText ·) := by
    rw [fieldsText, List.flatMap_map]
    refine congrArg (c.fields.flatMap ·) (funext fun e ↦ ?_)
    rw [fieldText, rawValue_eq hconv]
    rfl
  have htext : textPrefix ++ rawEscape false c.message
      = fieldSeparator :: pairText ([0x74, 0x65, 0x78, 0x74], c.message) := rfl
  rw [rawFrame, rawPairs, List.flatMap_append, hfields, List.flatMap_singleton, ← htext]
  simp only [List.append_assoc]

theorem splitOn_of_not_mem {sep : UInt8} {xs : Bytes} (h : sep ∉ xs) : xs.splitOn sep = [xs] := by
  refine List.splitOnP_eq_singleton fun x hx ↦ ?_
  rw [beq_eq_false_iff_ne]
  rintro rfl
  exact h hx

theorem splitOn_flatMap_cons {sep : UInt8} {head : Bytes} {xs : List Bytes} (hhead : sep ∉ head)
    (hxs : ∀ x ∈ xs, sep ∉ x) : (head ++ xs.flatMap (sep :: ·)).splitOn sep = head :: xs := by
  induction xs generalizing head with
  | nil => rw [List.flatMap_nil, List.append_nil, splitOn_of_not_mem hhead]
  | cons x xs ih =>
    obtain ⟨hx, hxs'⟩ := List.forall_mem_cons.mp hxs
    rw [List.flatMap_cons, List.cons_append, List.splitOn_append_cons_self, ih hx hxs',
      splitOn_of_not_mem hhead]
    rfl

theorem mapM_map_eq_some {α β γ : Type*} {f : β → Option γ} {g : α → β} {k : α → γ} {xs : List α}
    (h : ∀ x ∈ xs, f (g x) = some (k x)) : (xs.map g).mapM f = some (xs.map k) := by
  induction xs with
  | nil => rfl
  | cons x xs ih =>
    obtain ⟨hx, hxs⟩ := List.forall_mem_cons.mp h
    rw [List.map_cons, List.mapM_cons, hx, ih hxs]
    rfl

/-! ## Decoding what was encoded -/

section Frames

variable {conv : Charconv}

/-- A frame without its line feed. -/
def frameBody (conv : Charconv) (c : RecordContent) : Bytes :=
  rawPrefix ++ (rawPairs conv c).flatMap (fieldSeparator :: pairText ·)

theorem decodeFrame_frameBody (c : RecordContent) :
    decodeFrame (frameBody conv c) = some (rawPairs conv c) := by
  have hflat : (rawPairs conv c).flatMap (fieldSeparator :: pairText ·)
      = ((rawPairs conv c).map pairText).flatMap (fieldSeparator :: ·) := by
    rw [List.flatMap_map]
  have hpairs : ∀ x ∈ (rawPairs conv c).map pairText, fieldSeparator ∉ x := by
    intro x hx
    obtain ⟨p, -, rfl⟩ := List.mem_map.mp hx
    exact not_mem_pairText (by decide) p
  rw [decodeFrame, frameBody, hflat, splitOn_flatMap_cons (by decide) hpairs]
  simp only [if_true]
  rw [mapM_map_eq_some fun p _ ↦ decodePair_pairText p, List.map_id']

theorem not_mem_frameBody (hb : b ∈ [recordTerminator, 0x00, 0x0d]) (c : RecordContent) :
    b ∉ frameBody conv c := by
  intro hmem
  rcases List.mem_append.mp hmem with hhead | hpairs
  · simp only [List.mem_cons, List.not_mem_nil, or_false] at hb
    rcases hb with rfl | rfl | rfl <;> exact absurd hhead (by decide)
  · obtain ⟨p, -, hp⟩ := List.mem_flatMap.mp hpairs
    rcases List.mem_cons.mp hp with rfl | hp
    · revert hb
      decide
    · exact not_mem_pairText (List.mem_cons_of_mem _ hb) p hp

theorem count_fieldSeparator_frameBody (c : RecordContent) :
    (frameBody conv c).count fieldSeparator = c.fields.length + 1 := by
  have hpairs : ∀ ps : List (Bytes × Bytes),
      (ps.flatMap (fieldSeparator :: pairText ·)).count fieldSeparator = ps.length := by
    intro ps
    induction ps with
    | nil => rfl
    | cons p ps ih =>
      have hp := List.count_eq_zero_of_not_mem (not_mem_pairText (by decide : fieldSeparator ∈ _) p)
      rw [List.flatMap_cons, List.cons_append, List.count_cons_self, List.count_append, hp, ih,
        List.length_cons, Nat.zero_add]
  rw [frameBody, List.count_append, hpairs, rawPairs, List.length_append, List.length_map,
    show rawPrefix.count fieldSeparator = 0 from by decide, Nat.zero_add, List.length_singleton]

theorem splitOn_frames (cs : List RecordContent) :
    (cs.flatMap fun c ↦ frameBody conv c ++ [recordTerminator]).splitOn recordTerminator
      = cs.map (frameBody conv) ++ [[]] := by
  induction cs with
  | nil => rfl
  | cons c cs ih =>
    rw [List.flatMap_cons, List.append_assoc, List.singleton_append,
      List.splitOn_append_cons_self, ih, splitOn_of_not_mem (not_mem_frameBody (by decide) c)]
    rfl

theorem decodeFrames_frames (cs : List RecordContent) :
    decodeFrames (cs.flatMap fun c ↦ frameBody conv c ++ [recordTerminator])
      = some (cs.map (rawPairs conv)) := by
  rw [decodeFrames, splitOn_frames, if_pos List.getLast?_concat, List.dropLast_concat]
  exact mapM_map_eq_some fun c _ ↦ decodeFrame_frameBody c

/-- Raw frames are unambiguously decodable, and their delimiters are where they belong. -/
theorem decodeFrames_encodedFrame (hconv : conv.Plain) (rs : List (PublishedRecord conv × Mem × ℕ))
    (hcomplete : ∀ r ∈ rs, (encodeRawRecord conv r.1.view r.2.1 r.2.2).2.complete) :
    decodeFrames (rs.flatMap fun r ↦ encodedFrame conv r.1.view r.2.1 r.2.2)
        = some (rs.map fun r ↦ rawPairs conv r.1.content) ∧
      ∀ r ∈ rs, ∀ frame, encodedFrame conv r.1.view r.2.1 r.2.2 = frame →
        (∃ body, frame = body ++ [recordTerminator] ∧ recordTerminator ∉ body) ∧
        frame.count fieldSeparator = r.1.view.fieldCount + 1 ∧ 0x00 ∉ frame ∧ 0x0d ∉ frame := by
  have hframe : ∀ r ∈ rs, encodedFrame conv r.1.view r.2.1 r.2.2
      = frameBody conv r.1.content ++ [recordTerminator] := by
    intro r hr
    rw [encodedFrame_eq conv r.1.reads (hcomplete r hr), rawFrame_eq hconv]
    rfl
  have habsent : ∀ (c : RecordContent) (b : UInt8), b ∈ [0x00, 0x0d] →
      b ∉ frameBody conv c ++ [recordTerminator] := by
    intro c b hb hmem
    rcases List.mem_append.mp hmem with hbody | hlast
    · exact not_mem_frameBody (List.mem_cons_of_mem _ hb) c hbody
    · rw [List.mem_singleton.mp hlast] at hb
      revert hb
      decide
  refine ⟨?_, fun r hr frame hr' ↦ ?_⟩
  · have hstream : decodeFrames ((rs.map (·.1.content)).flatMap fun c ↦
        frameBody conv c ++ [recordTerminator]) = _ := decodeFrames_frames _
    rw [List.flatMap_map, List.map_map] at hstream
    rw [List.flatMap_congr hframe]
    exact hstream
  · rw [← hr', hframe r hr]
    refine ⟨⟨_, rfl, not_mem_frameBody (by decide) _⟩, ?_, habsent _ _ (by decide),
      habsent _ _ (by decide)⟩
    rw [List.count_append, count_fieldSeparator_frameBody, r.1.reads.fieldCount]
    rfl

/-- A Record with delimiters in a key, a value and the message. -/
def delimiterRecord : PublishedRecord .blank where
  slot := {}
  limit := 128
  level := .info
  source := ⟨[], [], 0, 0⟩
  timestamp := 0
  calls := [.addField [0x4b, 0x3d] (.string [0x09, 0x3d]), .addField [] .null,
    .append (.text [0x0a, 0x5c])]
  started := _
  finished := _
  record := _
  begin_eq := rfl
  publish_eq := rfl

theorem decodeFrames_delimiterRecord :
    (encodeRawRecord .blank delimiterRecord.view (fun _ ↦ 0) 267).2.complete ∧
      decodeFrames ([delimiterRecord, delimiterRecord].flatMap fun r ↦
        encodedFrame .blank r.view (fun _ ↦ 0) 267)
        = some (List.replicate 2 [([0x6b, 0x3d], [0x09, 0x3d]), ([], nullValue),
            ([0x74, 0x65, 0x78, 0x74], [0x0a, 0x5c])]) := by
  have hcomplete : (encodeRawRecord .blank delimiterRecord.view (fun _ ↦ 0)
    267).2.complete := rfl
  have hplain : Charconv.Plain .blank := fun _ _ hb ↦ by cases hb
  refine ⟨hcomplete, (decodeFrames_encodedFrame hplain
    [(delimiterRecord, fun _ ↦ 0, 267), (delimiterRecord, fun _ ↦ 0, 267)] ?_).1⟩
  simpa using hcomplete

end Frames

end Ulog
