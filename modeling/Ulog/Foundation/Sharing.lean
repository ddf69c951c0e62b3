import Mathlib.Data.Set.Card

/-!
# Who holds what

A table of holders, each with at most one thing in hand. A reference count is the number of holders
of a thing; a role is exclusive if it has at most one holder. Both are followed through changes of
one entry of the table.
-/

namespace Sharing

variable {ω κ : Type*} {f : ω → Option κ} {w w' : ω} {k : κ}

/-- The holders of `k`. -/
def holders (f : ω → Option κ) (k : κ) : Set ω := {w | f w = some k}

@[simp] theorem mem_holders : w ∈ holders f k ↔ f w = some k := Iff.rfl

/-- Everything has finitely many holders. -/
def IsFinite (f : ω → Option κ) : Prop := {w | f w ≠ none}.Finite

/-- Nothing has two holders. -/
def Exclusive (f : ω → Option κ) : Prop := ∀ ⦃w w' k⦄, f w = some k → f w' = some k → w = w'

theorem IsFinite.holders (h : IsFinite f) (k : κ) : (holders f k).Finite :=
  h.subset fun w hw ↦ by
    rw [mem_holders] at hw
    simp [hw]

theorem IsFinite.of_none (h : ∀ w, f w = none) : IsFinite f := by
  simp [IsFinite, h]

theorem Exclusive.of_none (h : ∀ w, f w = none) : Exclusive f := by
  intro w w' k hw
  cases (h w).symm.trans hw

/-- Who holds something is counted. -/
theorem IsFinite.ncard_ne_zero (h : IsFinite f) (hw : f w = some k) :
    (Sharing.holders f k).ncard ≠ 0 :=
  Set.ncard_ne_zero_of_mem (show w ∈ Sharing.holders f k from hw) (h.holders k)

theorem ncard_eq_zero (h : ∀ w, f w ≠ some k) : (holders f k).ncard = 0 := by
  rw [show holders f k = ∅ from Set.eq_empty_of_forall_notMem h, Set.ncard_empty]

variable [DecidableEq ω]

theorem IsFinite.update (h : IsFinite f) (w : ω) (v : Option κ) :
    IsFinite (Function.update f w v) := by
  refine (h.insert w).subset fun w' hw' ↦ ?_
  by_cases heq : w' = w
  · exact .inl heq
  · rw [Set.mem_ofPred_eq, Function.update_of_ne heq] at hw'
    exact .inr hw'

variable [DecidableEq κ]

/-- How the number of holders of `k` moves when one holder changes hands. -/
theorem ncard_holders_update (h : IsFinite f) (w : ω) (v : Option κ) (k : κ) :
    (holders (Function.update f w v) k).ncard + (if f w = some k then 1 else 0) =
      (holders f k).ncard + (if v = some k then 1 else 0) := by
  have hfin : (holders f k \ {w}).Finite := (h.holders k).sdiff
  have hold : (holders f k).ncard = (holders f k \ {w}).ncard + if f w = some k then 1 else 0 := by
    split_ifs with hw
    · have hmem : w ∈ holders f k := hw
      exact (Set.ncard_sdiff_singleton_add_one hmem (h.holders k)).symm
    · have hmem : w ∉ holders f k := hw
      rw [Set.sdiff_singleton_eq_self hmem, Nat.add_zero]
  have hnew : (holders (Function.update f w v) k).ncard =
      (holders f k \ {w}).ncard + if v = some k then 1 else 0 := by
    split_ifs with hv
    · have hinsert : holders (Function.update f w v) k = insert w (holders f k \ {w}) := by
        ext w'
        by_cases heq : w' = w
        · simp [heq, hv]
        · simp [heq]
      rw [hinsert, Set.ncard_insert_of_notMem (by simp) hfin]
    · have hsame : holders (Function.update f w v) k = holders f k \ {w} := by
        ext w'
        by_cases heq : w' = w
        · simp [heq, hv]
        · simp [heq]
      rw [hsame, Nat.add_zero]
  omega

omit [DecidableEq κ] in
theorem Exclusive.update (h : Exclusive f) {v : Option κ}
    (hv : ∀ w' k, w' ≠ w → v = some k → f w' ≠ some k) : Exclusive (Function.update f w v) := by
  intro w₁ w₂ k h₁ h₂
  by_cases hw₁ : w₁ = w <;> by_cases hw₂ : w₂ = w
  · rw [hw₁, hw₂]
  · rw [hw₁, Function.update_self] at h₁
    rw [Function.update_of_ne hw₂] at h₂
    exact absurd h₂ (hv w₂ k hw₂ h₁)
  · rw [hw₂, Function.update_self] at h₂
    rw [Function.update_of_ne hw₁] at h₁
    exact absurd h₁ (hv w₁ k hw₁ h₂)
  · rw [Function.update_of_ne hw₁] at h₁
    rw [Function.update_of_ne hw₂] at h₂
    exact h h₁ h₂

/-- What one holder has in hand goes to a holder with empty hands. -/
def move (f : ω → Option κ) (w w' : ω) : ω → Option κ :=
  Function.update (Function.update f w none) w' (f w)

omit [DecidableEq κ] in
theorem move_apply (f : ω → Option κ) (w w' v : ω) :
    move f w w' v = if v = w' then f w else if v = w then none else f v := by
  rw [move, Function.update_apply, Function.update_apply]

omit [DecidableEq κ] in
theorem eq_some_of_move {v : ω} (h : move f w w' v = some k) : f w = some k ∨ f v = some k := by
  rw [move_apply] at h
  split_ifs at h
  · exact .inl h
  · exact .inr h

omit [DecidableEq κ] in
theorem eq_some_of_update_none (h : Function.update f w none w' = some k) : f w' = some k := by
  rw [Function.update_apply] at h
  split_ifs at h
  exact h

theorem ncard_holders_move (h : IsFinite f) (hw' : f w' = none) (k : κ) :
    (holders (move f w w') k).ncard = (holders f k).ncard := by
  have hleave := ncard_holders_update h w none k
  have htake := ncard_holders_update (h.update w none) w' (f w) k
  have hempty : Function.update f w none w' = none := by
    by_cases heq : w' = w
    · rw [heq, Function.update_self]
    · rw [Function.update_of_ne heq, hw']
  simp only [hempty, reduceCtorEq, if_false] at htake hleave
  rw [move]
  omega

omit [DecidableEq κ] in
theorem IsFinite.move (h : IsFinite f) (w w' : ω) : IsFinite (move f w w') :=
  (h.update w none).update w' (f w)

omit [DecidableEq κ] in
theorem Exclusive.move (h : Exclusive f) (w w' : ω) : Exclusive (move f w w') := by
  refine (h.update fun _ _ _ hnone ↦ by cases hnone).update fun w₁ k hw₁ hk hother ↦ ?_
  by_cases heq : w₁ = w
  · rw [heq, Function.update_self] at hother
    cases hother
  · rw [Function.update_of_ne heq] at hother
    exact heq (h hother hk)

end Sharing
