import Mathlib.Data.List.Basic

/-!
# Escaping with a quote symbol

An escape scheme replaces some symbols by a quote followed by a letter. As soon as the quote itself
is replaced and letters determine their symbols, escaping can be undone; a replaced symbol that is
no letter disappears from the output, so it can serve as a delimiter there.
-/

/-- Which symbols are replaced, by which letter, and how letters are read back. -/
structure Escaping (α : Type*) where
  quote : α
  /-- The letter that stands for a replaced symbol. -/
  code : α → Option α
  /-- The symbol a letter stands for. -/
  letter : α → Option α
  letter_code : ∀ {a c : α}, code a = some c → letter c = some a
  code_quote : code quote ≠ none

namespace Escaping

variable {α : Type*} (s : Escaping α)

def escapeOne (a : α) : List α :=
  match s.code a with
  | some c => [s.quote, c]
  | none => [a]

def escape (xs : List α) : List α := xs.flatMap s.escapeOne

theorem escape_cons (a : α) (xs : List α) : s.escape (a :: xs) = s.escapeOne a ++ s.escape xs := rfl

variable {s}

theorem ne_quote_of_code_eq_none {a : α} (h : s.code a = none) : a ≠ s.quote := by
  rintro rfl
  exact s.code_quote h

/-- A replaced symbol that is neither the quote nor a letter does not occur in escaped text. -/
theorem not_mem_escape {b : α} (hcode : s.code b ≠ none) (hquote : b ≠ s.quote)
    (hletter : ∀ a, s.code a ≠ some b) (xs : List α) : b ∉ s.escape xs := by
  intro hmem
  obtain ⟨a, -, ha⟩ := List.mem_flatMap.mp hmem
  rw [escapeOne] at ha
  split at ha
  · next c hc =>
    rcases List.mem_cons.mp ha with rfl | hb
    · exact hquote rfl
    · rw [List.mem_singleton.mp hb] at hletter
      exact hletter a hc
  · next hnone =>
    rw [List.mem_singleton.mp ha] at hcode
    exact hcode hnone

theorem escape_eq_self {xs : List α} (h : ∀ a ∈ xs, s.code a = none) : s.escape xs = xs := by
  induction xs with
  | nil => rfl
  | cons a xs ih =>
    obtain ⟨ha, hxs⟩ := List.forall_mem_cons.mp h
    rw [escape_cons, ih hxs, escapeOne, ha, List.singleton_append]

/-! ## Undoing -/

variable [DecidableEq α]

variable (s) in
/-- Undo the replacements; a quote at the end or before an unknown symbol is an error. -/
def unescape : List α → Option (List α)
  | [] => some []
  | [a] => if a = s.quote then none else some [a]
  | a :: c :: rest =>
    if a = s.quote then (s.letter c).bind fun b ↦ (unescape rest).map (b :: ·)
    else (unescape (c :: rest)).map (a :: ·)

theorem unescape_quote (c : α) (rest : List α) :
    s.unescape (s.quote :: c :: rest)
      = (s.letter c).bind fun b ↦ (s.unescape rest).map (b :: ·) := by
  rw [unescape, if_pos rfl]

theorem unescape_of_ne {a : α} (h : a ≠ s.quote) (rest : List α) :
    s.unescape (a :: rest) = (s.unescape rest).map (a :: ·) := by
  cases rest with
  | nil => simp [unescape, h]
  | cons c rest => rw [unescape, if_neg h]

theorem unescape_escape (xs : List α) : s.unescape (s.escape xs) = some xs := by
  induction xs with
  | nil => rfl
  | cons a xs ih =>
    rw [escape_cons, escapeOne]
    split
    · next c hc =>
      rw [List.cons_append, List.singleton_append, unescape_quote, s.letter_code hc,
        Option.bind_some, ih, Option.map_some]
    · next hnone =>
      rw [List.singleton_append, unescape_of_ne (ne_quote_of_code_eq_none hnone), ih,
        Option.map_some]

/-! ## Splitting at the first separator -/

variable (s) in
/-- Split at the first separator that does not stand behind a quote. -/
def splitFirst (sep : α) : List α → Option (List α × List α)
  | [] => none
  | [a] => if a = sep then some ([], []) else none
  | a :: c :: rest =>
    if a = s.quote then (splitFirst sep rest).map fun p ↦ (a :: c :: p.1, p.2)
    else if a = sep then some ([], c :: rest)
    else (splitFirst sep (c :: rest)).map fun p ↦ (a :: p.1, p.2)

theorem splitFirst_quote (sep c : α) (rest : List α) :
    s.splitFirst sep (s.quote :: c :: rest)
      = (s.splitFirst sep rest).map fun p ↦ (s.quote :: c :: p.1, p.2) := by
  rw [splitFirst, if_pos rfl]

theorem splitFirst_sep {sep : α} (h : sep ≠ s.quote) (rest : List α) :
    s.splitFirst sep (sep :: rest) = some ([], rest) := by
  cases rest with
  | nil => rw [splitFirst, if_pos rfl]
  | cons c rest => rw [splitFirst, if_neg h, if_pos rfl]

theorem splitFirst_of_ne {sep a : α} (hquote : a ≠ s.quote) (hsep : a ≠ sep) {rest : List α}
    (hrest : rest ≠ []) :
    s.splitFirst sep (a :: rest) = (s.splitFirst sep rest).map fun p ↦ (a :: p.1, p.2) := by
  cases rest with
  | nil => exact absurd rfl hrest
  | cons c rest => rw [splitFirst, if_neg hquote, if_neg hsep]

/-- Escaped text ends at the first separator behind it, when the separator is replaced in it. -/
theorem splitFirst_escape {sep : α} (hcode : s.code sep ≠ none) (hquote : sep ≠ s.quote)
    (xs rest : List α) :
    s.splitFirst sep (s.escape xs ++ sep :: rest) = some (s.escape xs, rest) := by
  induction xs with
  | nil => exact splitFirst_sep hquote rest
  | cons a xs ih =>
    rw [escape_cons, escapeOne]
    split
    · next c hc =>
      rw [List.append_assoc, List.cons_append, List.singleton_append, splitFirst_quote, ih]
      rfl
    · next hnone =>
      have hne : a ≠ sep := by
        rintro rfl
        exact hcode hnone
      rw [List.append_assoc, List.singleton_append, splitFirst_of_ne
        (ne_quote_of_code_eq_none hnone) hne (List.append_ne_nil_of_right_ne_nil _
          (List.cons_ne_nil _ _)), ih]
      rfl

end Escaping
