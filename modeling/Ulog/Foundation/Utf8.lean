import Mathlib.Data.List.Forall2

/-!
# Prefix codes and well-formed UTF-8

A text over a code is a concatenation of code words. If a function finds the code word at the head
of a list, the repeated application of it cuts off the longest text there is at the head: no other
way to read the list as code words gets further.

The code of UTF-8 is the table of well-formed byte sequences (Unicode, Table 3-7): each row gives
the ranges of the bytes of a sequence. Overlong forms, surrogates and code points above U+10FFFF
are the ranges that are missing from it.
-/

/-! ## Longest prefixes -/

/-- `p` is the longest prefix of `v` with the property. -/
structure IsLongestPrefix {β : Type*} (P : List β → Prop) (v p : List β) : Prop where
  isPrefix : p <+: v
  holds : P p
  longest : ∀ q, q <+: v → P q → q.length ≤ p.length

namespace IsLongestPrefix

variable {β : Type*} {P Q : List β → Prop} {v p q : List β}

theorem trans (hp : IsLongestPrefix P v p) (hq : IsLongestPrefix Q p q) (himp : ∀ l, Q l → P l) :
    IsLongestPrefix Q v q := by
  refine ⟨hq.isPrefix.trans hp.isPrefix, hq.holds, fun l hl hQ ↦ ?_⟩
  have hle : l.length ≤ p.length := hp.longest l hl (himp l hQ)
  exact hq.longest l (List.prefix_of_prefix_length_le hl hp.isPrefix hle) hQ

theorem congr (hp : IsLongestPrefix P v p) (hiff : ∀ l, l <+: v → (P l ↔ Q l)) :
    IsLongestPrefix Q v p :=
  ⟨hp.isPrefix, (hiff p hp.isPrefix).mp hp.holds,
    fun l hl hQ ↦ hp.longest l hl ((hiff l hl).mpr hQ)⟩

end IsLongestPrefix

/-! ## Texts over a code -/

namespace PrefixCode

variable {β : Type*} {Word : List β → Prop} {head : List β → Option ℕ}

/-- Concatenations of code words. -/
inductive Text (Word : List β → Prop) : List β → Prop
  | nil : Text Word []
  | append {w rest : List β} : Word w → Text Word rest → Text Word (w ++ rest)

/-- The function gives the length of the code word at the head of a list. -/
structure Recognizes (Word : List β → Prop) (head : List β → Option ℕ) : Prop where
  iff : ∀ v n, head v = some n ↔ n ≤ v.length ∧ Word (v.take n)
  ne_nil : ∀ w, Word w → w ≠ []

/-- The length of what repeated recognition cuts off. -/
def scan (head : List β → Option ℕ) : ℕ → List β → ℕ
  | 0, _ => 0
  | fuel + 1, v =>
    match head v with
    | none => 0
    | some n => n + scan head fuel (v.drop n)

/-- What is cut off is a text. -/
theorem text_scan (h : Recognizes Word head) (fuel : ℕ) (v : List β) :
    Text Word (v.take (scan head fuel v)) := by
  induction fuel generalizing v with
  | zero => exact .nil
  | succ fuel ih =>
    rw [scan]
    split
    · exact .nil
    · next n hn =>
      rw [List.take_add]
      exact .append ((h.iff v n).mp hn).2 (ih _)

/-- No text at the head of the list is longer. -/
theorem length_le_scan (h : Recognizes Word head) {p : List β} (hp : Text Word p) {fuel : ℕ}
    {v : List β} (hv : p <+: v) (hfuel : v.length ≤ fuel) : p.length ≤ scan head fuel v := by
  induction hp generalizing fuel v with
  | nil => exact Nat.zero_le _
  | @append w rest hw _ ih =>
    obtain ⟨more, rfl⟩ := hv
    have hpos : 0 < w.length := List.length_pos_of_ne_nil (h.ne_nil w hw)
    rw [List.append_assoc] at hfuel ⊢
    have hhead : head (w ++ (rest ++ more)) = some w.length := by
      refine (h.iff _ _).mpr ⟨by simp, ?_⟩
      rw [List.take_left]
      exact hw
    obtain ⟨fuel, rfl⟩ : ∃ n, fuel = n + 1 := by
      refine Nat.exists_eq_succ_of_ne_zero ?_
      rw [List.length_append] at hfuel
      omega
    rw [scan, hhead]
    dsimp only
    rw [List.drop_left, List.length_append]
    refine Nat.add_le_add_left (ih (List.prefix_append rest more) ?_) _
    rw [List.length_append] at hfuel
    omega

end PrefixCode

/-! ## UTF-8 -/

namespace Utf8

/-- Table 3-7: the ranges of the bytes of a sequence. -/
def table : List (List (ℕ × ℕ)) :=
  [[(0x00, 0x7F)],
    [(0xC2, 0xDF), (0x80, 0xBF)],
    [(0xE0, 0xE0), (0xA0, 0xBF), (0x80, 0xBF)],
    [(0xE1, 0xEC), (0x80, 0xBF), (0x80, 0xBF)],
    [(0xED, 0xED), (0x80, 0x9F), (0x80, 0xBF)],
    [(0xEE, 0xEF), (0x80, 0xBF), (0x80, 0xBF)],
    [(0xF0, 0xF0), (0x90, 0xBF), (0x80, 0xBF), (0x80, 0xBF)],
    [(0xF1, 0xF3), (0x80, 0xBF), (0x80, 0xBF), (0x80, 0xBF)],
    [(0xF4, 0xF4), (0x80, 0x8F), (0x80, 0xBF), (0x80, 0xBF)]]

def InRange (range : ℕ × ℕ) (b : UInt8) : Prop := range.1 ≤ b.toNat ∧ b.toNat ≤ range.2

/-- The bytes of one code point. -/
def Sequence (bs : List UInt8) : Prop := ∃ row ∈ table, List.Forall₂ InRange row bs

def WellFormed : List UInt8 → Prop := PrefixCode.Text Sequence

theorem Sequence.length_mem {bs : List UInt8} (h : Sequence bs) :
    bs.length = 1 ∨ bs.length = 2 ∨ bs.length = 3 ∨ bs.length = 4 := by
  obtain ⟨row, hrow, hforall⟩ := h
  have hrows : ∀ row ∈ table, row.length = 1 ∨ row.length = 2 ∨ row.length = 3 ∨
    row.length = 4 := by
    decide
  rw [← hforall.length_eq]
  exact hrows row hrow

theorem Sequence.ne_nil {bs : List UInt8} (h : Sequence bs) : bs ≠ [] := by
  rintro rfl
  simpa using h.length_mem

/-- A byte that continues a sequence. -/
def IsTail (b : UInt8) : Prop := InRange (0x80, 0xBF) b

theorem sequence_one (a : UInt8) : Sequence [a] ↔ a.toNat ≤ 0x7F := by
  simp [Sequence, table, InRange]

theorem sequence_two (a b : UInt8) :
    Sequence [a, b] ↔ 0xC2 ≤ a.toNat ∧ a.toNat ≤ 0xDF ∧ IsTail b := by
  simp [Sequence, table, InRange, IsTail, and_assoc]

/-- Three bytes: no overlong form and no surrogate. -/
theorem sequence_three (a b c : UInt8) :
    Sequence [a, b, c] ↔ 0xE0 ≤ a.toNat ∧ a.toNat ≤ 0xEF ∧ IsTail b ∧ IsTail c ∧
      ¬(a.toNat = 0xE0 ∧ b.toNat < 0xA0) ∧ ¬(a.toNat = 0xED ∧ 0xA0 ≤ b.toNat) := by
  simp only [Sequence, table, InRange, IsTail, List.mem_cons, List.not_mem_nil, or_false,
    exists_eq_or_imp, exists_eq_left, List.forall₂_cons, List.forall₂_nil_left_iff,
    List.cons_ne_nil, List.forall₂_nil_right_iff, and_false, and_true, false_or]
  omega

/-- Four bytes: no overlong form and nothing above U+10FFFF. -/
theorem sequence_four (a b c d : UInt8) :
    Sequence [a, b, c, d] ↔ 0xF0 ≤ a.toNat ∧ a.toNat ≤ 0xF4 ∧ IsTail b ∧ IsTail c ∧ IsTail d ∧
      ¬(a.toNat = 0xF0 ∧ b.toNat < 0x90) ∧ ¬(a.toNat = 0xF4 ∧ 0x90 ≤ b.toNat) := by
  simp only [Sequence, table, InRange, IsTail, List.mem_cons, List.not_mem_nil, or_false,
    exists_eq_or_imp, exists_eq_left, List.forall₂_cons, List.forall₂_nil_left_iff,
    List.cons_ne_nil, List.forall₂_nil_right_iff, and_false, and_true, false_or]
  omega

end Utf8
