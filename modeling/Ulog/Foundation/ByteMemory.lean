import Mathlib.Data.List.Basic
import Mathlib.Tactic.Ring

/-!
# Flat byte memory

A byte array seen as a total map from addresses to bytes, with block writes and block reads, and
the little-endian fixed-width words stored in it. Bounds are not part of the map: a client that
must stay inside an array states its bounds itself, and an out-of-bounds write is then visible as
a change at an address it promised not to touch.

Every reasoning step of a client is one of three facts: a block read back where it was written, a
block read away from a write, and a block split in two. The word layer rests on the same three.
-/

namespace ByteMemory

variable {bs : List UInt8} {m : Mem} {off : ℕ}

/-- A byte array as a map from addresses. -/
abbrev Mem := ℕ → UInt8

/-- Store the block `bs` at address `off`. -/
def write (m : Mem) (off : ℕ) (bs : List UInt8) : Mem := fun i ↦
  if off ≤ i then bs.getD (i - off) (m i) else m i

/-- The `n` bytes from address `off`. -/
def read (m : Mem) (off : ℕ) : ℕ → List UInt8
  | 0 => []
  | n + 1 => m off :: read m (off + 1) n

@[simp] theorem read_zero (m : Mem) (off : ℕ) : read m off 0 = [] := rfl

theorem read_succ (m : Mem) (off n : ℕ) : read m off (n + 1) = m off :: read m (off + 1) n := rfl

@[simp] theorem length_read (m : Mem) (off n : ℕ) : (read m off n).length = n := by
  induction n generalizing off with
  | zero => rfl
  | succ n ih => rw [read_succ, List.length_cons, ih]

@[simp] theorem write_nil (m : Mem) (off : ℕ) : write m off [] = m := by
  funext i
  simp [write]

theorem read_add (m : Mem) (off a b : ℕ) :
    read m off (a + b) = read m off a ++ read m (off + a) b := by
  induction a generalizing off with
  | zero => simp
  | succ a ih =>
    rw [show a + 1 + b = a + b + 1 from by omega, read_succ, read_succ, ih, List.cons_append,
      show off + 1 + a = off + (a + 1) from by omega]

theorem take_read (m : Mem) (off : ℕ) {k n : ℕ} (h : k ≤ n) :
    (read m off n).take k = read m off k := by
  obtain ⟨j, rfl⟩ := Nat.exists_eq_add_of_le h
  rw [read_add, List.take_left' (length_read ..)]

theorem read_append {cs : List UInt8} (h : read m off (bs ++ cs).length = bs ++ cs) :
    read m off bs.length = bs ∧ read m (off + bs.length) cs.length = cs := by
  rw [List.length_append, read_add] at h
  exact List.append_inj h (length_read ..)

theorem read_congr {m' : Mem} {n : ℕ} (h : ∀ i, off ≤ i → i < off + n → m i = m' i) :
    read m off n = read m' off n := by
  induction n generalizing off with
  | zero => rfl
  | succ n ih =>
    rw [read_succ, read_succ, h off le_rfl (by omega),
      ih fun i hi hi' ↦ h i (by omega) (by omega)]

theorem write_apply_of_outside {i : ℕ} (h : i < off ∨ off + bs.length ≤ i) :
    write m off bs i = m i := by
  rw [write]
  split
  · rw [List.getD_eq_getElem?_getD, List.getElem?_eq_none (by omega), Option.getD_none]
  · rfl

theorem read_write_of_disjoint {off' n : ℕ} (h : off' + n ≤ off ∨ off + bs.length ≤ off') :
    read (write m off bs) off' n = read m off' n :=
  read_congr fun i hi hi' ↦ write_apply_of_outside (by omega)

theorem write_cons (m : Mem) (off : ℕ) (b : UInt8) (bs : List UInt8) :
    write m off (b :: bs) = write (write m off [b]) (off + 1) bs := by
  funext i
  rcases lt_trichotomy i off with h | rfl | h
  · rw [write_apply_of_outside (Or.inl h), write_apply_of_outside (Or.inl (by omega)),
      write_apply_of_outside (Or.inl h)]
  · rw [write_apply_of_outside (m := write m i [b]) (Or.inl (by omega))]
    simp [write]
  · obtain ⟨d, rfl⟩ : ∃ d, i = off + 1 + d := ⟨i - (off + 1), by omega⟩
    simp [write, show off + 1 + d - off = d + 1 from by omega, show off ≤ off + 1 + d from by omega]

@[simp] theorem read_write_same (m : Mem) (off : ℕ) (bs : List UInt8) :
    read (write m off bs) off bs.length = bs := by
  induction bs generalizing m off with
  | nil => rfl
  | cons b bs ih =>
    rw [List.length_cons, read_succ, write_cons, ih,
      write_apply_of_outside (Or.inl (by omega))]
    simp [write]

theorem write_append (m : Mem) (off : ℕ) (bs cs : List UInt8) :
    write m off (bs ++ cs) = write (write m off bs) (off + bs.length) cs := by
  induction bs generalizing m off with
  | nil => simp
  | cons b bs ih =>
    rw [List.cons_append, write_cons, ih, write_cons m off b bs, List.length_cons,
      show off + 1 + bs.length = off + (bs.length + 1) from by omega]

/-! ## Little-endian words -/

/-- The `w` low bytes of `n`, least significant first. -/
def leBytes : ℕ → ℕ → List UInt8
  | 0, _ => []
  | w + 1, n => UInt8.ofNat n :: leBytes w (n / 256)

/-- The number stored in a block of bytes, least significant first. -/
def leValue : List UInt8 → ℕ
  | [] => 0
  | b :: bs => b.toNat + 256 * leValue bs

@[simp] theorem length_leBytes (w n : ℕ) : (leBytes w n).length = w := by
  induction w generalizing n with
  | zero => rfl
  | succ w ih => rw [leBytes, List.length_cons, ih]

theorem leValue_leBytes (w n : ℕ) : leValue (leBytes w n) = n % 256 ^ w := by
  induction w generalizing n with
  | zero => simp [leBytes, leValue, Nat.mod_one]
  | succ w ih =>
    have hbyte : (UInt8.ofNat n).toNat = n % 256 := by simp
    rw [leBytes, leValue, ih, hbyte, pow_succ', Nat.mod_mul]

/-! ## Packed words

A trivially copyable structure is the list of its words in declaration order, each with its width.
-/

/-- The memory image of a list of `(width, value)` words. -/
def packWords : List (ℕ × ℕ) → List UInt8
  | [] => []
  | p :: ps => leBytes p.1 p.2 ++ packWords ps

/-- The words of the given widths stored from address `off` on. -/
def readWords (m : Mem) : ℕ → List ℕ → List ℕ
  | _, [] => []
  | off, w :: ws => leValue (read m off w) :: readWords m (off + w) ws

@[simp] theorem length_packWords (ps : List (ℕ × ℕ)) :
    (packWords ps).length = (ps.map Prod.fst).sum := by
  induction ps with
  | nil => rfl
  | cons p ps ih => simp [packWords, ih]

theorem readWords_congr {m' : Mem} {ws : List ℕ}
    (h : ∀ i, off ≤ i → i < off + ws.sum → m i = m' i) :
    readWords m off ws = readWords m' off ws := by
  induction ws generalizing off with
  | nil => rfl
  | cons w ws ih =>
    rw [List.sum_cons] at h
    rw [readWords, readWords, read_congr fun i hi hi' ↦ h i hi (by omega),
      ih fun i hi hi' ↦ h i (by omega) (by omega)]

theorem readWords_write_of_disjoint {off' : ℕ} {ws : List ℕ}
    (h : off' + ws.sum ≤ off ∨ off + bs.length ≤ off') :
    readWords (write m off bs) off' ws = readWords m off' ws :=
  readWords_congr fun i hi hi' ↦ write_apply_of_outside (by omega)

/-- A packed structure reads back word by word, each reduced to its width. -/
theorem readWords_write_packWords (m : Mem) (off : ℕ) (ps : List (ℕ × ℕ)) :
    readWords (write m off (packWords ps)) off (ps.map Prod.fst)
      = ps.map fun p ↦ p.2 % 256 ^ p.1 := by
  induction ps generalizing m off with
  | nil => rfl
  | cons p ps ih =>
    rw [List.map_cons, List.map_cons, readWords, packWords, write_append, length_leBytes, ih,
      read_write_of_disjoint (Or.inl le_rfl)]
    have hword : read (write m off (leBytes p.1 p.2)) off p.1 = leBytes p.1 p.2 := by
      simpa using read_write_same m off (leBytes p.1 p.2)
    rw [hword, leValue_leBytes]

/-! ## Ranges -/

/-- A range of addresses. Empty ranges contain no address, wherever they lie. -/
structure Range where
  offset : ℕ
  size : ℕ
  deriving DecidableEq, Repr

namespace Range

def Contains (r : Range) (i : ℕ) : Prop := r.offset ≤ i ∧ i < r.offset + r.size

def Disjoint (r s : Range) : Prop := ∀ i, ¬(r.Contains i ∧ s.Contains i)

end Range

/-- Ranges without overlap that fill the addresses from `lo` to `hi`. -/
structure Tiles (lo hi : ℕ) (rs : List Range) : Prop where
  le : lo ≤ hi
  disjoint : rs.Pairwise Range.Disjoint
  contains : ∀ i, (∃ r ∈ rs, r.Contains i) ↔ lo ≤ i ∧ i < hi
  size : (rs.map Range.size).sum = hi - lo

namespace Tiles

variable {lo mid hi : ℕ} {rs ss : List Range}

theorem nil (lo : ℕ) : Tiles lo lo [] :=
  ⟨le_rfl, .nil, fun i ↦ ⟨nofun, fun h ↦ absurd h (by omega)⟩, (Nat.sub_self lo).symm⟩

theorem singleton (lo size : ℕ) : Tiles lo (lo + size) [⟨lo, size⟩] := by
  refine ⟨Nat.le_add_right lo size, List.pairwise_singleton _ _, fun i ↦ ?_, ?_⟩
  · simp [Range.Contains]
  · simp

theorem singleton_empty (lo offset : ℕ) : Tiles lo lo [⟨offset, 0⟩] := by
  refine ⟨le_rfl, List.pairwise_singleton _ _, fun i ↦ ?_, ?_⟩
  · simp only [List.mem_singleton, exists_eq_left, Range.Contains]
    omega
  · simp

/-- Ranges that fill two parts of memory without a common address do not overlap. -/
theorem disjoint_append {lo' hi' : ℕ} (h : Tiles lo hi rs) (h' : Tiles lo' hi' ss)
    (hapart : hi ≤ lo' ∨ hi' ≤ lo) : (rs ++ ss).Pairwise Range.Disjoint := by
  refine List.pairwise_append.mpr ⟨h.disjoint, h'.disjoint, fun r hr s hs i ⟨hir, his⟩ ↦ ?_⟩
  have hi₁ := (h.contains i).mp ⟨r, hr, hir⟩
  have hi₂ := (h'.contains i).mp ⟨s, hs, his⟩
  omega

theorem exists_mem_append {P : Range → Prop} :
    (∃ r ∈ rs ++ ss, P r) ↔ (∃ r ∈ rs, P r) ∨ ∃ r ∈ ss, P r := by
  simp only [List.mem_append, or_and_right, exists_or]

theorem append (h : Tiles lo mid rs) (h' : Tiles mid hi ss) : Tiles lo hi (rs ++ ss) := by
  have hle := h.le
  have hle' := h'.le
  refine ⟨hle.trans hle', h.disjoint_append h' (.inl le_rfl), fun i ↦ ?_, ?_⟩
  · rw [exists_mem_append, h.contains, h'.contains]
    omega
  · rw [List.map_append, List.sum_append, h.size, h'.size]
    omega

theorem append_below (h : Tiles mid hi rs) (h' : Tiles lo mid ss) : Tiles lo hi (rs ++ ss) := by
  have hle := h.le
  have hle' := h'.le
  refine ⟨hle'.trans hle, h.disjoint_append h' (.inr le_rfl), fun i ↦ ?_, ?_⟩
  · rw [exists_mem_append, h.contains, h'.contains]
    omega
  · rw [List.map_append, List.sum_append, h.size, h'.size]
    omega

end Tiles

end ByteMemory
