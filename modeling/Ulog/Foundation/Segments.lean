import Ulog.Foundation.ByteMemory

/-!
# Segmented byte storage

Bytes that are addressed as one array but kept in several. A client reaches them through the
segment that holds an address: the rest of one array from that address on. Copying a block goes
from segment to segment until the block is used up.

`LawfulSegmented` says that the arrays are pieces of one flat memory. Then the two copy loops are
a block write and a block read of that memory, wherever the pieces end: `flat_copyIn` and
`copyOut_eq`. A program that uses its storage through these loops only, and stays inside the
capacity, cannot tell how the storage is cut.
-/

namespace ByteMemory

/-- Storage that hands out the segment at an address. -/
class Segmented (σ : Type*) where
  /-- The size of the segment at an address. -/
  segmentSize : ℕ → ℕ
  /-- Overwrite the first bytes of the segment at an address. -/
  writeSegment : σ → ℕ → List UInt8 → σ
  /-- The segment at an address. -/
  readSegment : σ → ℕ → List UInt8

section Loops

variable {σ : Type*} [Segmented σ]

def copyInLoop : ℕ → σ → ℕ → List UInt8 → σ
  | 0, s, _, _ => s
  | fuel + 1, s, off, bs =>
    if bs.isEmpty then s
    else
      let copied := min (Segmented.segmentSize σ off) bs.length
      copyInLoop fuel (Segmented.writeSegment s off (bs.take copied)) (off + copied)
        (bs.drop copied)

/-- Copy a block into the storage. Every round copies at least one byte. -/
def copyIn (s : σ) (off : ℕ) (bs : List UInt8) : σ := copyInLoop bs.length s off bs

def copyOutLoop : ℕ → σ → ℕ → ℕ → List UInt8
  | 0, _, _, _ => []
  | fuel + 1, s, off, n =>
    if n = 0 then []
    else
      let segment := Segmented.readSegment s off
      let copied := min segment.length n
      segment.take copied ++ copyOutLoop fuel s (off + copied) (n - copied)

/-- Copy `n` bytes out of the storage. -/
def copyOut (s : σ) (off n : ℕ) : List UInt8 := copyOutLoop n s off n

/-- The first byte of the segment at an address. -/
def readByte (s : σ) (off : ℕ) : UInt8 := (Segmented.readSegment s off).headD 0

end Loops

/-! ## Pieces of a flat memory

An array that holds the bytes of a memory from `base` on.
-/

theorem write_sub {a m : Mem} {base off i : ℕ} {bs : List UInt8} (hoff : base ≤ off)
    (hi : base ≤ i) (heq : a (i - base) = m i) :
    write a (off - base) bs (i - base) = write m off bs i := by
  have hiff : off - base ≤ i - base ↔ off ≤ i := by omega
  have hindex : i - base - (off - base) = i - off := by omega
  rw [write, write, heq, hindex]
  simp only [hiff]

theorem read_shift {a m : Mem} {base off n : ℕ}
    (heq : ∀ i, off ≤ i → i < off + n → a i = m (base + i)) :
    read a off n = read m (base + off) n := by
  induction n generalizing off with
  | zero => rfl
  | succ n ih =>
    rw [read_succ, read_succ, heq off le_rfl (by omega), Nat.add_assoc,
      ih fun i hi hi' ↦ heq i (by omega) (by omega)]

theorem read_sub {a m : Mem} {base off n : ℕ} (hoff : base ≤ off)
    (heq : ∀ i, off ≤ i → i < off + n → a (i - base) = m i) :
    read a (off - base) n = read m off n := by
  obtain ⟨k, rfl⟩ := Nat.exists_eq_add_of_le hoff
  rw [Nat.add_sub_cancel_left]
  refine read_shift fun i hi hi' ↦ ?_
  rw [← heq (base + i) (by omega) (by omega), Nat.add_sub_cancel_left]

/-! ## Copies

A block copied to the start of another memory reads there as it does in place.
-/

theorem read_eq_map (m : Mem) (off n : ℕ) :
    read m off n = (List.range n).map fun i ↦ m (off + i) := by
  induction n with
  | zero => rfl
  | succ n ih => rw [read_add, ih, List.range_succ, List.map_append, read_succ, read_zero]; rfl

theorem write_read_apply {a m : Mem} {off n i : ℕ} (hi : i < n) :
    write a 0 (read m off n) i = m (off + i) := by
  rw [write, if_pos (Nat.zero_le i), read_eq_map, Nat.sub_zero, List.getD_eq_getElem?_getD,
    List.getElem?_map, List.getElem?_range hi]
  rfl

theorem readWords_shift {a m : Mem} {base off : ℕ} {ws : List ℕ}
    (heq : ∀ i, off ≤ i → i < off + ws.sum → a i = m (base + i)) :
    readWords a off ws = readWords m (base + off) ws := by
  induction ws generalizing off with
  | nil => rfl
  | cons w ws ih =>
    rw [List.sum_cons] at heq
    rw [readWords, readWords, read_shift fun i hi hi' ↦ heq i hi (by omega), Nat.add_assoc,
      ih fun i hi hi' ↦ heq i (by omega) (by omega)]

theorem readWords_write_read {a m : Mem} {off : ℕ} {ws : List ℕ} :
    readWords (write a 0 (read m off ws.sum)) 0 ws = readWords m off ws :=
  readWords_shift fun _ _ hi ↦ write_read_apply (by omega)

theorem drop_read (m : Mem) (off : ℕ) {k n : ℕ} (h : k ≤ n) :
    (read m off n).drop k = read m (off + k) (n - k) := by
  obtain ⟨j, rfl⟩ := Nat.exists_eq_add_of_le h
  rw [read_add, List.drop_left' (length_read ..), Nat.add_sub_cancel_left]

/-! ## Equal chunks -/

/-- Chunks of `w` bytes one after the other. -/
def chunked (w : ℕ) (chunks : ℕ → Mem) : Mem := fun i ↦ chunks (i / w) (i % w)

section Chunked

variable {w : ℕ} {chunks : ℕ → Mem} {off i : ℕ} {bs : List UInt8}

theorem div_eq_of_lt_segment (hw : 0 < w) (hle : off ≤ i) (hlt : i < off + (w - off % w)) :
    i / w = off / w := by
  have hmod := Nat.mod_lt off hw
  have hsplit := Nat.div_add_mod off w
  refine Nat.div_eq_of_lt_le ?_ ?_
  · rw [Nat.mul_comm]
    omega
  · rw [Nat.add_mul, Nat.one_mul, Nat.mul_comm]
    omega

theorem apply_of_div_eq (h : i / w = off / w) :
    chunks (off / w) (i - w * (off / w)) = chunked w chunks i := by
  rw [← h, chunked, Nat.mod_eq_sub_mul_div]

theorem chunked_update_write (hw : 0 < w) (hfit : bs.length ≤ w - off % w) :
    chunked w (Function.update chunks (off / w) (write (chunks (off / w)) (off % w) bs)) =
      write (chunked w chunks) off bs := by
  have hbase : w * (off / w) ≤ off := Nat.mul_div_le ..
  funext i
  rw [chunked]
  by_cases hi : i / w = off / w
  · have hbase' : w * (off / w) ≤ i := hi ▸ Nat.mul_div_le ..
    rw [hi, Function.update_self, Nat.mod_eq_sub_mul_div, Nat.mod_eq_sub_mul_div, hi]
    exact write_sub hbase hbase' (apply_of_div_eq hi)
  · rw [Function.update_of_ne hi, write_apply_of_outside]
    · rfl
    · by_contra hinside
      exact hi (div_eq_of_lt_segment hw (by omega) (by omega))

theorem read_chunk (hw : 0 < w) :
    read (chunks (off / w)) (off % w) (w - off % w) =
      read (chunked w chunks) off (w - off % w) := by
  obtain ⟨n, hn⟩ : ∃ n, w - off % w = n := ⟨_, rfl⟩
  rw [hn, Nat.mod_eq_sub_mul_div]
  refine read_sub (Nat.mul_div_le ..) fun i hi hi' ↦ apply_of_div_eq ?_
  exact div_eq_of_lt_segment hw hi (hn ▸ hi')

end Chunked

/-- The segments are pieces of one flat memory of `capacity` bytes. -/
class LawfulSegmented (σ : Type*) [Segmented σ] (capacity : outParam ℕ) where
  /-- The memory that the storage stands for. -/
  flat : σ → Mem
  segmentSize_pos : ∀ {off}, off < capacity → 0 < Segmented.segmentSize σ off
  flat_writeSegment : ∀ {s : σ} {off bs}, off < capacity →
    bs.length ≤ Segmented.segmentSize σ off →
      flat (Segmented.writeSegment s off bs) = write (flat s) off bs
  readSegment_eq : ∀ {s : σ} {off}, off < capacity →
    Segmented.readSegment s off = read (flat s) off (Segmented.segmentSize σ off)

export LawfulSegmented (flat)

section Flat

variable {σ : Type*} [Segmented σ] {capacity : ℕ} [LawfulSegmented σ capacity]

theorem flat_copyInLoop {fuel : ℕ} {s : σ} {off : ℕ} {bs : List UInt8} (hfuel : bs.length ≤ fuel)
    (hfit : off + bs.length ≤ capacity) :
    flat (copyInLoop fuel s off bs) = write (flat s) off bs := by
  induction fuel generalizing s off bs with
  | zero =>
    rw [List.length_eq_zero_iff.mp (Nat.le_zero.mp hfuel), write_nil]
    rfl
  | succ fuel ih =>
    rw [copyInLoop]
    split
    · next hempty => rw [List.isEmpty_iff.mp hempty, write_nil]
    · next hne =>
      have hlen : 0 < bs.length := List.length_pos_of_ne_nil (by simpa using hne)
      have hpos : 0 < Segmented.segmentSize σ off :=
        LawfulSegmented.segmentSize_pos (by omega)
      obtain ⟨k, hk⟩ : ∃ k, min (Segmented.segmentSize σ off) bs.length = k := ⟨_, rfl⟩
      have htake : (bs.take k).length = k := by
        rw [List.length_take]
        omega
      have hdrop : (bs.drop k).length = bs.length - k := List.length_drop ..
      rw [hk, ih (by omega) (by omega),
        LawfulSegmented.flat_writeSegment (by omega) (by omega)]
      conv_rhs => rw [← List.take_append_drop k bs, write_append, htake]

/-- Copying in is one block write, however the block is cut. -/
theorem flat_copyIn {s : σ} {off : ℕ} {bs : List UInt8} (hfit : off + bs.length ≤ capacity) :
    flat (copyIn s off bs) = write (flat s) off bs :=
  flat_copyInLoop le_rfl hfit

theorem copyOutLoop_eq {fuel : ℕ} {s : σ} {off n : ℕ} (hfuel : n ≤ fuel)
    (hfit : off + n ≤ capacity) : copyOutLoop fuel s off n = read (flat s) off n := by
  induction fuel generalizing off n with
  | zero =>
    rw [Nat.le_zero.mp hfuel]
    rfl
  | succ fuel ih =>
    rw [copyOutLoop]
    split
    · next hzero =>
      rw [hzero]
      rfl
    · next hne =>
      have hpos : 0 < Segmented.segmentSize σ off :=
        LawfulSegmented.segmentSize_pos (by omega)
      obtain ⟨k, hk⟩ : ∃ k, min (Segmented.segmentSize σ off) n = k := ⟨_, rfl⟩
      dsimp only
      rw [LawfulSegmented.readSegment_eq (by omega), length_read, hk, take_read _ _ (by omega),
        ih (by omega) (by omega), ← read_add, Nat.add_sub_cancel' (by omega)]

theorem copyOut_eq {s : σ} {off n : ℕ} (hfit : off + n ≤ capacity) :
    copyOut s off n = read (flat s) off n :=
  copyOutLoop_eq le_rfl hfit

theorem readByte_eq {s : σ} {off : ℕ} (hoff : off < capacity) : readByte s off = flat s off := by
  have hpos : 0 < Segmented.segmentSize σ off := LawfulSegmented.segmentSize_pos hoff
  obtain ⟨n, hn⟩ := Nat.exists_eq_succ_of_ne_zero hpos.ne'
  rw [readByte, LawfulSegmented.readSegment_eq hoff, hn, read_succ]
  rfl

end Flat

end ByteMemory
