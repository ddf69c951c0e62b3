import Ulog.Foundation.Sharing

/-!
# Handles on stamped slots

A pool gives out its slots through handles: a handle names a slot and carries the stamp under which
the slot was given out, and the pool can tell under which stamp a slot is out now. Handles live in
variables of a client, which may pass them on and drops each of them once.

`Owning` is what keeps a stamp check from ever failing: every live handle carries the stamp its
slot is out under, and no slot has two handles. The lemmas are the ways a table of variables and
the pool change together.
-/

namespace Handles

variable {ι α κ γ σ : Type*}

section StampIn

variable [DecidableEq σ] {state state' : κ → σ} {stamp stamp' : κ → γ} {st : σ} {k : κ} {g : γ}

/-- The stamp of a slot that is in a certain state. -/
def stampIn (state : κ → σ) (stamp : κ → γ) (st : σ) (k : κ) : Option γ :=
  if state k = st then some (stamp k) else none

theorem stampIn_eq_some : stampIn state stamp st k = some g ↔ state k = st ∧ stamp k = g := by
  unfold stampIn
  split
  · next h => simp [h]
  · next h => simp [h]

theorem stampIn_of_ne (h : state k ≠ st) : stampIn state stamp st k = none := if_neg h

theorem stampIn_congr (hstate : state' k = state k) (hstamp : stamp' k = stamp k) :
    stampIn state' stamp' st k = stampIn state stamp st k := by
  rw [stampIn, hstate, hstamp, stampIn]

end StampIn

section Variables

variable [DecidableEq ι] {t : ι → Option α} {i j : ι} {a : α}

theorem update_none (h : t i = none) : Function.update t i none = t := by
  rw [← h, Function.update_eq_self]

theorem eq_some_of_update_none (h : Function.update t i none j = some a) : t j = some a := by
  by_cases hji : j = i
  · rw [hji, Function.update_self] at h
    cases h
  · rwa [Function.update_of_ne hji] at h

end Variables

section Move

variable [DecidableEq ι] {t : ι → Option α} {i j k k' : ι} {a a' : α}

theorem move_source (h : Sharing.move t i j k = some a) : t (if k = j then i else k) = some a := by
  rw [Sharing.move_apply] at h
  split at h
  · next hk => rwa [if_pos hk]
  · next hk =>
    rw [if_neg hk]
    split at h
    · cases h
    · exact h

theorem move_source_inj (h : Sharing.move t i j k = some a) (h' : Sharing.move t i j k' = some a')
    (heq : (if k = j then i else k) = if k' = j then i else k') : k = k' := by
  rw [Sharing.move_apply] at h h'
  by_cases hk : k = j <;> by_cases hk' : k' = j
  · rw [hk, hk']
  · rw [if_pos hk, if_neg hk'] at heq
    rw [if_neg hk', if_pos heq.symm] at h'
    cases h'
  · rw [if_neg hk, if_pos hk'] at heq
    rw [if_neg hk, if_pos heq] at h
    cases h
  · rwa [if_neg hk, if_neg hk'] at heq

end Move

/-- Each handle holds the slot it names, and it is the only one. -/
structure Owning (key : α → κ) (stamp : α → γ) (t : ι → Option α) (owned : κ → Option γ) :
    Prop where
  owned : ∀ ⦃h a⦄, t h = some a → owned (key a) = some (stamp a)
  unique : ∀ ⦃h h' a a'⦄, t h = some a → t h' = some a' → key a = key a' → h = h'

namespace Owning

variable {key : α → κ} {stamp : α → γ} {t : ι → Option α} {owned owned' : κ → Option γ}

theorem of_none (h : ∀ i, t i = none) : Owning key stamp t owned :=
  ⟨fun i _ hi ↦ (nomatch (h i).symm.trans hi), fun i _ _ _ hi ↦ (nomatch (h i).symm.trans hi)⟩

theorem congr (h : Owning key stamp t owned)
    (hkeep : ∀ i a, t i = some a → owned' (key a) = owned (key a)) :
    Owning key stamp t owned' :=
  ⟨fun i a hi ↦ (hkeep i a hi).trans (h.owned hi), h.unique⟩

/-- A slot that no handle of the table holds changes. -/
theorem elsewhere (h : Owning key stamp t owned) {k : κ} (hfree : owned k = none)
    (hkeep : ∀ k', k' ≠ k → owned' k' = owned k') : Owning key stamp t owned' := by
  refine h.congr fun i a hi ↦ hkeep _ ?_
  rintro rfl
  cases hfree.symm.trans (h.owned hi)

variable [DecidableEq ι] {i j : ι} {a b : α}

theorem grant (h : Owning key stamp t owned) (hfree : owned (key a) = none)
    (hnew : owned' (key a) = some (stamp a)) (hkeep : ∀ k, k ≠ key a → owned' k = owned k) :
    Owning key stamp (Function.update t i (some a)) owned' := by
  have hother : ∀ {j b}, t j = some b → key b ≠ key a := fun hb heq ↦ by
    have := h.owned hb
    rw [heq, hfree] at this
    cases this
  refine ⟨fun j b hb ↦ ?_, fun j j' b b' hb hb' hkey ↦ ?_⟩
  · by_cases hj : j = i
    · rw [hj, Function.update_self] at hb
      cases hb
      exact hnew
    · rw [Function.update_of_ne hj] at hb
      rw [hkeep _ (hother hb), h.owned hb]
  · by_cases hj : j = i <;> by_cases hj' : j' = i
    · rw [hj, hj']
    · rw [hj, Function.update_self] at hb
      rw [Function.update_of_ne hj'] at hb'
      cases hb
      exact absurd hkey.symm (hother hb')
    · rw [hj', Function.update_self] at hb'
      rw [Function.update_of_ne hj] at hb
      cases hb'
      exact absurd hkey (hother hb)
    · rw [Function.update_of_ne hj] at hb
      rw [Function.update_of_ne hj'] at hb'
      exact h.unique hb hb' hkey

theorem release (h : Owning key stamp t owned) (hi : t i = some a)
    (hkeep : ∀ k, k ≠ key a → owned' k = owned k) :
    Owning key stamp (Function.update t i none) owned' := by
  have hold : ∀ {j b}, Function.update t i none j = some b → j ≠ i ∧ t j = some b := by
    intro j b hb
    by_cases hj : j = i
    · rw [hj, Function.update_self] at hb
      cases hb
    · rw [Function.update_of_ne hj] at hb
      exact ⟨hj, hb⟩
  refine ⟨fun j b hb ↦ ?_, fun j j' b b' hb hb' hkey ↦ h.unique (hold hb).2 (hold hb').2 hkey⟩
  obtain ⟨hj, hb⟩ := hold hb
  rw [hkeep _ fun heq ↦ hj (h.unique hb hi heq), h.owned hb]

/-- What a handle carries besides its slot may change. -/
theorem modify (h : Owning key stamp t owned) (hi : t i = some a) (hkey : key b = key a)
    (hstamp : stamp b = stamp a) : Owning key stamp (Function.update t i (some b)) owned := by
  have hold : ∀ {j c}, Function.update t i (some b) j = some c →
      ∃ c', t j = some c' ∧ key c = key c' ∧ stamp c = stamp c' := by
    intro j c hc
    by_cases hj : j = i
    · rw [hj, Function.update_self] at hc
      cases hc
      exact ⟨a, hj ▸ hi, hkey, hstamp⟩
    · rw [Function.update_of_ne hj] at hc
      exact ⟨c, hc, rfl, rfl⟩
  refine ⟨fun j c hc ↦ ?_, fun j j' c c' hc hc' heq ↦ ?_⟩
  · obtain ⟨c', hc', hk, hs⟩ := hold hc
    rw [hk, hs, h.owned hc']
  · obtain ⟨d, hd, hk, -⟩ := hold hc
    obtain ⟨d', hd', hk', -⟩ := hold hc'
    exact h.unique hd hd' (hk.symm.trans (heq.trans hk'))

theorem move (h : Owning key stamp t owned) (i j : ι) :
    Owning key stamp (Sharing.move t i j) owned :=
  ⟨fun _ _ hb ↦ h.owned (move_source hb),
    fun _ _ _ _ hb hb' hkey ↦
      move_source_inj hb hb' (h.unique (move_source hb) (move_source hb') hkey)⟩

end Owning

end Handles
