import Ulog.Foundation.Segments
import Ulog.Record.Layout

/-!
# The three storages of the prototype Record slot

The benchmark prototype builds a Record in 16384 bytes that are one array, 64 chunks of 256 bytes,
or 512 inline bytes with 15 overflow chunks of 1024 bytes and 512 more at the end. All code above
works through `CopyIn`, `CopyOut` and `ReadByte`; each storage is shown to be the pieces of one
flat memory, so these are block writes and reads of it.

A policy is a storage with the rule for the bytes that a Record is charged with.
-/

namespace Ulog.Prototype

open ByteMemory

def maximumSerializedBytes : ℕ := 16384

/-! ## One array -/

structure ContiguousStorage where
  bytes : Mem := fun _ ↦ 0

namespace ContiguousStorage

instance : Segmented ContiguousStorage where
  segmentSize offset := maximumSerializedBytes - offset
  writeSegment s offset bs := ⟨write s.bytes offset bs⟩
  readSegment s offset := read s.bytes offset (maximumSerializedBytes - offset)

instance : LawfulSegmented ContiguousStorage maximumSerializedBytes where
  flat := bytes
  segmentSize_pos hoff := Nat.sub_pos_of_lt hoff
  flat_writeSegment _ _ := rfl
  readSegment_eq _ := rfl

end ContiguousStorage

/-! ## Equal chunks -/

structure ChunkedStorage where
  chunks : ℕ → Mem := fun _ _ ↦ 0

namespace ChunkedStorage

def chunkBytes : ℕ := 256

instance : Segmented ChunkedStorage where
  segmentSize offset := chunkBytes - offset % chunkBytes
  writeSegment s offset bs :=
    ⟨Function.update s.chunks (offset / chunkBytes)
      (write (s.chunks (offset / chunkBytes)) (offset % chunkBytes) bs)⟩
  readSegment s offset :=
    read (s.chunks (offset / chunkBytes)) (offset % chunkBytes) (chunkBytes - offset % chunkBytes)

instance : LawfulSegmented ChunkedStorage maximumSerializedBytes where
  flat s := chunked chunkBytes s.chunks
  segmentSize_pos _ := Nat.sub_pos_of_lt (Nat.mod_lt _ (by decide))
  flat_writeSegment _ hfit := chunked_update_write (by decide) hfit
  readSegment_eq _ := read_chunk (by decide)

end ChunkedStorage

/-! ## Inline bytes and overflow chunks -/

structure HybridStorage where
  inlineBytes : Mem := fun _ ↦ 0
  overflowChunks : ℕ → Mem := fun _ _ ↦ 0
  tailBytes : Mem := fun _ ↦ 0

namespace HybridStorage

def inlineSize : ℕ := 512

def overflowChunkBytes : ℕ := 1024

def overflowChunkCount : ℕ := 15

def tailSize : ℕ := 512

def tailOffset : ℕ := inlineSize + overflowChunkBytes * overflowChunkCount

instance : Segmented HybridStorage where
  segmentSize offset :=
    if offset < inlineSize then inlineSize - offset
    else if offset < tailOffset then
      overflowChunkBytes - (offset - inlineSize) % overflowChunkBytes
    else tailSize - (offset - tailOffset)
  writeSegment s offset bs :=
    if offset < inlineSize then { s with inlineBytes := write s.inlineBytes offset bs }
    else if offset < tailOffset then
      let chunk := (offset - inlineSize) / overflowChunkBytes
      { s with
        overflowChunks := Function.update s.overflowChunks chunk
          (write (s.overflowChunks chunk) ((offset - inlineSize) % overflowChunkBytes) bs) }
    else { s with tailBytes := write s.tailBytes (offset - tailOffset) bs }
  readSegment s offset :=
    if offset < inlineSize then read s.inlineBytes offset (inlineSize - offset)
    else if offset < tailOffset then
      read (s.overflowChunks ((offset - inlineSize) / overflowChunkBytes))
        ((offset - inlineSize) % overflowChunkBytes)
        (overflowChunkBytes - (offset - inlineSize) % overflowChunkBytes)
    else read s.tailBytes (offset - tailOffset) (tailSize - (offset - tailOffset))

/-- The three parts one after the other. -/
def bytes (s : HybridStorage) : Mem := fun i ↦
  if i < inlineSize then s.inlineBytes i
  else if i < tailOffset then chunked overflowChunkBytes s.overflowChunks (i - inlineSize)
  else s.tailBytes (i - tailOffset)

section

variable {s : HybridStorage} {offset i : ℕ} {bs : Bytes}

theorem bytes_inline (hi : i < inlineSize) : s.bytes i = s.inlineBytes i := if_pos hi

theorem bytes_overflow (hi : inlineSize ≤ i) (hi' : i < tailOffset) :
    s.bytes i = chunked overflowChunkBytes s.overflowChunks (i - inlineSize) := by
  rw [bytes, if_neg (by omega), if_pos hi']

theorem bytes_tail (hi : tailOffset ≤ i) : s.bytes i = s.tailBytes (i - tailOffset) := by
  have htail : tailOffset = 15872 := rfl
  have hinline : inlineSize = 512 := rfl
  rw [bytes, if_neg (by omega), if_neg (by omega)]

theorem overflow_segment_le (hoff : inlineSize ≤ offset) (hoff' : offset < tailOffset) :
    offset + (overflowChunkBytes - (offset - inlineSize) % overflowChunkBytes) ≤ tailOffset := by
  have htail : tailOffset = 15872 := rfl
  have hinline : inlineSize = 512 := rfl
  have hchunk : overflowChunkBytes = 1024 := rfl
  rw [hchunk]
  omega

theorem bytes_writeSegment (hfit : bs.length ≤ Segmented.segmentSize HybridStorage offset) :
    bytes (Segmented.writeSegment s offset bs) = write s.bytes offset bs := by
  have htail : tailOffset = 15872 := rfl
  have hinline : inlineSize = 512 := rfl
  simp only [Segmented.segmentSize] at hfit
  simp only [Segmented.writeSegment]
  funext i
  split at hfit
  · next hoff =>
    rw [if_pos hoff]
    by_cases hi : i < inlineSize
    · rw [bytes_inline hi]
      exact write_sub (Nat.zero_le offset) (Nat.zero_le i) (bytes_inline hi).symm
    · rw [write_apply_of_outside (by omega), bytes, bytes, if_neg hi, if_neg hi]
  · next hoff =>
    split at hfit
    · next hoff' =>
      have hend := overflow_segment_le (by omega) hoff'
      rw [if_neg hoff, if_pos hoff']
      by_cases hi : inlineSize ≤ i ∧ i < tailOffset
      · rw [bytes_overflow hi.1 hi.2, chunked_update_write (by decide) hfit]
        exact write_sub (by omega) hi.1 (bytes_overflow hi.1 hi.2).symm
      · rw [write_apply_of_outside (by omega)]
        by_cases hlow : i < inlineSize
        · rw [bytes_inline hlow, bytes_inline hlow]
        · rw [bytes_tail (by omega), bytes_tail (by omega)]
    · next hoff' =>
      rw [if_neg hoff, if_neg hoff']
      by_cases hi : tailOffset ≤ i
      · rw [bytes_tail hi]
        dsimp only
        exact write_sub (by omega) hi (bytes_tail hi).symm
      · have hi' : i < tailOffset := by omega
        rw [write_apply_of_outside (by omega), bytes, bytes, if_pos hi', if_pos hi']

theorem readSegment_eq :
    Segmented.readSegment s offset =
      read s.bytes offset (Segmented.segmentSize HybridStorage offset) := by
  have htail : tailOffset = 15872 := rfl
  have hinline : inlineSize = 512 := rfl
  simp only [Segmented.readSegment, Segmented.segmentSize]
  split
  · exact read_congr fun i _ hi ↦ (bytes_inline (by omega)).symm
  · split
    · next hlow hhigh =>
      have hend := overflow_segment_le (by omega) hhigh
      rw [read_chunk (by decide)]
      exact read_sub (by omega) fun i hi hi' ↦ (bytes_overflow (by omega) (by omega)).symm
    · exact read_sub (by omega) fun i hi hi' ↦ (bytes_tail (by omega)).symm

end

instance : LawfulSegmented HybridStorage maximumSerializedBytes where
  flat := bytes
  segmentSize_pos {offset} hoff := by
    have htail : tailOffset = 15872 := rfl
    have htailSize : tailSize = 512 := rfl
    have hmax : maximumSerializedBytes = 16384 := rfl
    have hmod := Nat.mod_lt (offset - inlineSize) (show overflowChunkBytes > 0 by decide)
    simp only [Segmented.segmentSize]
    split
    · omega
    · split <;> omega
  flat_writeSegment _ hfit := bytes_writeSegment hfit
  readSegment_eq _ := readSegment_eq

end HybridStorage

/-! ## Policies -/

/-- The storage policies of the benchmark. -/
inductive Policy where
  | contiguous
  | chunked
  | hybrid
  deriving DecidableEq, Repr

namespace Policy

/-- The policy's `Storage`. -/
def Storage : Policy → Type
  | contiguous => ContiguousStorage
  | chunked => ChunkedStorage
  | hybrid => HybridStorage

/-- Storage whose bytes are all zero. -/
def zeroed : (p : Policy) → p.Storage
  | contiguous => { bytes := fun _ ↦ 0 }
  | chunked => { chunks := fun _ _ ↦ 0 }
  | hybrid => { inlineBytes := fun _ ↦ 0, overflowChunks := fun _ _ ↦ 0, tailBytes := fun _ ↦ 0 }

instance : (p : Policy) → Segmented p.Storage
  | contiguous => inferInstanceAs (Segmented ContiguousStorage)
  | chunked => inferInstanceAs (Segmented ChunkedStorage)
  | hybrid => inferInstanceAs (Segmented HybridStorage)

instance : (p : Policy) → LawfulSegmented p.Storage maximumSerializedBytes
  | contiguous => inferInstanceAs (LawfulSegmented ContiguousStorage maximumSerializedBytes)
  | chunked => inferInstanceAs (LawfulSegmented ChunkedStorage maximumSerializedBytes)
  | hybrid => inferInstanceAs (LawfulSegmented HybridStorage maximumSerializedBytes)

def minimumAccountingChargeBytes : Policy → ℕ
  | contiguous => 64
  | chunked => 256
  | hybrid => 512

end Policy

def roundUp (value quantum : ℕ) : ℕ := (value + quantum - 1) / quantum * quantum

namespace Policy

/-- The last charge that is a whole number of overflow chunks. -/
def lastFullOverflowChargeBytes : ℕ := 15872

def accountingCharge (p : Policy) (serializedBytes : ℕ) : ℕ :=
  match p with
  | contiguous => roundUp (max serializedBytes 1) 64
  | chunked => roundUp (max serializedBytes 1) 256
  | hybrid =>
    if serializedBytes ≤ 512 then 512
    else if serializedBytes ≤ lastFullOverflowChargeBytes then
      512 + roundUp (serializedBytes - 512) 1024
    else maximumSerializedBytes

theorem accountingCharge_hybrid (n : ℕ) :
    n ≤ 512 ∧ hybrid.accountingCharge n = 512 ∨
      (512 < n ∧ n ≤ 15872) ∧ hybrid.accountingCharge n = 512 + roundUp (n - 512) 1024 ∨
      15872 < n ∧ hybrid.accountingCharge n = 16384 := by
  rw [accountingCharge]
  by_cases hlow : n ≤ 512
  · exact .inl ⟨hlow, if_pos hlow⟩
  · rw [if_neg hlow]
    by_cases hhigh : n ≤ lastFullOverflowChargeBytes
    · exact .inr (.inl ⟨⟨by omega, hhigh⟩, if_pos hhigh⟩)
    · exact .inr (.inr ⟨Nat.lt_of_not_le hhigh, if_neg hhigh⟩)

/-- The charge covers the bytes, and the slot covers the charge. -/
theorem le_accountingCharge (p : Policy) {n : ℕ} (hn : n ≤ maximumSerializedBytes) :
    n ≤ p.accountingCharge n ∧ p.accountingCharge n ≤ maximumSerializedBytes := by
  have hmax : maximumSerializedBytes = 16384 := rfl
  cases p with
  | contiguous | chunked =>
    simp only [accountingCharge, roundUp]
    omega
  | hybrid =>
    have hcases := accountingCharge_hybrid n
    rw [roundUp] at hcases
    omega

theorem accountingCharge_mono (p : Policy) {m n : ℕ} (hle : m ≤ n)
    (hn : n ≤ maximumSerializedBytes) : p.accountingCharge m ≤ p.accountingCharge n := by
  have hmax : maximumSerializedBytes = 16384 := rfl
  cases p with
  | contiguous | chunked =>
    simp only [accountingCharge, roundUp]
    omega
  | hybrid =>
    have hm := accountingCharge_hybrid m
    have hcases := accountingCharge_hybrid n
    rw [roundUp] at hm hcases
    omega

end Policy

end Ulog.Prototype
