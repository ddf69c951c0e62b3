import Mathlib.Algebra.BigOperators.Group.Finset.Basic

variable {ι : Type*} {w : ι → ℕ} {i : ι}

/-!
# Machines, runs and tallies

A machine has one initial state and a partial step function; which thread moves next, and every
choice of the environment, is part of the action. `Reach ok` are the states of all runs whose steps
meet the condition `ok`; the unconditional runs are `Reachable`. A property of every state of every
run is proved from the initial state and one step, and a run of one machine can be followed in
another through a projection.

The last section is about tables: functions on indices that a step changes at one place. A sum over
a table moves by the difference of the two entries.
-/

/-- An initial state and a partial step function. -/
structure Machine (σ α : Type*) where
  init : σ
  step : σ → α → Option σ

namespace Machine

variable {σ α τ β : Type*} {m : Machine σ α}

/-- The states of all runs whose steps meet `ok`. -/
inductive Reach (m : Machine σ α) (ok : σ → α → Prop) : σ → Prop
  | init : Reach m ok m.init
  | step {s s' : σ} {a : α} : Reach m ok s → ok s a → m.step s a = some s' → Reach m ok s'

/-- The states of all runs. -/
def Reachable (m : Machine σ α) : σ → Prop := m.Reach fun _ _ ↦ True

/-- What holds initially and survives every step holds in every reached state. -/
theorem Reach.invariant {ok : σ → α → Prop} {I : σ → Prop} {s : σ} (h : m.Reach ok s)
    (hinit : I m.init) (hstep : ∀ s a s', I s → ok s a → m.step s a = some s' → I s') : I s := by
  induction h with
  | init => exact hinit
  | step _ hok hs ih => exact hstep _ _ _ ih hok hs

/-- An invariant may use what is known of reached states. -/
theorem Reach.invariant_of_reach {ok : σ → α → Prop} {I : σ → Prop} {s : σ} (h : m.Reach ok s)
    (hinit : I m.init)
    (hstep : ∀ s a s', m.Reach ok s → I s → ok s a → m.step s a = some s' → I s') : I s := by
  induction h with
  | init => exact hinit
  | step hs hok hs' ih => exact hstep _ _ _ hs ih hok hs'

theorem Reachable.invariant {I : σ → Prop} {s : σ} (h : m.Reachable s) (hinit : I m.init)
    (hstep : ∀ s a s', I s → m.step s a = some s' → I s') : I s :=
  Reach.invariant h hinit fun s a s' hs _ ↦ hstep s a s' hs

theorem Reach.mono {ok ok' : σ → α → Prop} {s : σ} (h : m.Reach ok s)
    (himp : ∀ s a, ok s a → ok' s a) : m.Reach ok' s := by
  induction h with
  | init => exact .init
  | step _ hok hs ih => exact .step ih (himp _ _ hok) hs

/-- The machine with another initial state. -/
def startingAt (m : Machine σ α) (s : σ) : Machine σ α := { m with init := s }

/-- A projection under which every step is a step of `n` or invisible carries runs to runs. -/
theorem Reach.project {n : Machine τ β} {ok : σ → α → Prop} {ok' : τ → β → Prop} {f : σ → τ}
    {s : σ} (h : m.Reach ok s) (hinit : f m.init = n.init)
    (hstep : ∀ s a s', m.Reach ok s → ok s a → m.step s a = some s' →
      f s' = f s ∨ ∃ b, ok' (f s) b ∧ n.step (f s) b = some (f s')) : n.Reach ok' (f s) := by
  induction h with
  | init =>
    rw [hinit]
    exact .init
  | step hs hok hstep' ih =>
    rcases hstep _ _ _ hs hok hstep' with heq | ⟨b, hok', hb⟩
    · rw [heq]
      exact ih
    · exact .step ih hok' hb

/-! ## Executed runs -/

section Run

variable (m) in
/-- Execute a list of actions; `none` where a step is not enabled or does not meet `ok`. -/
def run (ok : σ → α → Prop) [∀ s a, Decidable (ok s a)] : σ → List α → Option σ
  | s, [] => some s
  | s, a :: as => if ok s a then (m.step s a).bind (run ok · as) else none

variable {ok : σ → α → Prop} [∀ s a, Decidable (ok s a)]

theorem run_append (s : σ) (as bs : List α) :
    m.run ok s (as ++ bs) = (m.run ok s as).bind (m.run ok · bs) := by
  induction as generalizing s with
  | nil => rfl
  | cons a as ih =>
    rw [List.cons_append, run, run]
    split
    · rw [Option.bind_assoc]
      exact congrArg _ (funext ih)
    · rfl

theorem Reach.of_run {s s' : σ} (h : m.Reach ok s) {as : List α} (hrun : m.run ok s as = some s') :
    m.Reach ok s' := by
  induction as generalizing s with
  | nil =>
    cases hrun
    exact h
  | cons a as ih =>
    rw [run] at hrun
    split at hrun
    · next hok =>
      obtain ⟨t, ht, hrest⟩ := Option.bind_eq_some_iff.mp hrun
      exact ih (h.step hok ht) hrest
    · cases hrun

omit [∀ s a, Decidable (ok s a)] in
theorem Reach.of_run_of_forall {s s' : σ} (h : m.Reach ok s) {as : List α}
    (hok : ∀ a ∈ as, ∀ s, ok s a) (hrun : m.run (fun _ _ ↦ True) s as = some s') :
    m.Reach ok s' := by
  induction as generalizing s with
  | nil =>
    cases hrun
    exact h
  | cons a as ih =>
    rw [run, if_pos trivial] at hrun
    obtain ⟨t, ht, hrest⟩ := Option.bind_eq_some_iff.mp hrun
    rw [List.forall_mem_cons] at hok
    exact ih (h.step (hok.1 s) ht) hok.2 hrest

variable (m ok) in
/-- A test that a run ends with passing holds of some reached state. -/
theorem Reach.exists_of_run (test : σ → Bool) (as : List α)
    (hrun : (m.run ok m.init as).any test = true) : ∃ s, m.Reach ok s ∧ test s = true := by
  obtain ⟨s, hs, htest⟩ := (Option.any_eq_true test _).mp hrun
  exact ⟨s, Reach.init.of_run hs, htest⟩

end Run

end Machine

/-! ## Tallies over tables -/

theorem update_eq_cases {γ : Type*} [DecidableEq ι] {f : ι → γ} {j : ι} {v w : γ}
    (h : Function.update f i v j = w) : j = i ∧ w = v ∨ j ≠ i ∧ f j = w := by
  by_cases hj : j = i
  · subst hj
    rw [Function.update_self] at h
    exact .inl ⟨rfl, h.symm⟩
  · rw [Function.update_of_ne hj] at h
    exact .inr ⟨hj, h⟩

/-- Two tables that differ at one place have the rest of their sums in common. -/
theorem exists_sum_rest [DecidableEq ι] {t : Finset ι} (hi : i ∈ t) {f g : ι → ℕ}
    (h : ∀ j ∈ t, j ≠ i → g j = f j) :
    ∃ rest, ∑ j ∈ t, f j = rest + f i ∧ ∑ j ∈ t, g j = rest + g i := by
  have hrest : ∑ j ∈ t.erase i, g j = ∑ j ∈ t.erase i, f j :=
    Finset.sum_congr rfl fun j hj ↦ h j (Finset.mem_of_mem_erase hj) (Finset.ne_of_mem_erase hj)
  refine ⟨∑ j ∈ t.erase i, f j, (Finset.sum_erase_add t f hi).symm, ?_⟩
  rw [← Finset.sum_erase_add t g hi, hrest]

theorem sum_update_add {γ : Type*} [DecidableEq ι] {t : Finset ι} (hi : i ∈ t) (f : ι → γ)
    (w : γ → ℕ) (v : γ) :
    ∑ j ∈ t, w (Function.update f i v j) + w (f i) = ∑ j ∈ t, w (f j) + w v := by
  obtain ⟨rest, hf, hg⟩ := exists_sum_rest (f := fun j ↦ w (f j))
    (g := fun j ↦ w (Function.update f i v j)) hi fun j _ hj ↦ by rw [Function.update_of_ne hj]
  rw [hf, hg, Function.update_self]
  omega

/-- Finitely many entries of a table weigh anything, and together they weigh `n`. -/
def Tallies {ι : Type*} (w : ι → ℕ) (n : ℕ) : Prop :=
  ∃ t : Finset ι, (∀ i ∉ t, w i = 0) ∧ ∑ i ∈ t, w i = n

theorem Tallies.zero (h : ∀ i, w i = 0) : Tallies w 0 :=
  ⟨∅, fun i _ ↦ h i, rfl⟩

theorem Tallies.eq_zero {n : ℕ} (h : Tallies w n) (hw : ∀ i, w i = 0) : n = 0 := by
  obtain ⟨t, -, rfl⟩ := h
  exact Finset.sum_eq_zero fun i _ ↦ hw i

theorem Tallies.move [DecidableEq ι] {v : ι → ℕ} {n : ℕ} (h : Tallies w n) (i : ι)
    (hw : ∀ j, j ≠ i → v j = w j) : ∃ n', Tallies v n' ∧ n' + w i = n + v i := by
  obtain ⟨t, hzero, rfl⟩ := h
  have hsum : ∑ j ∈ insert i t, w j = ∑ j ∈ t, w j := by
    refine (Finset.sum_subset (Finset.subset_insert i t) fun j _ hj ↦ ?_).symm
    exact hzero j hj
  obtain ⟨rest, hold, hnew⟩ := exists_sum_rest (Finset.mem_insert_self i t)
    fun j _ hj ↦ hw j hj
  refine ⟨_, ⟨insert i t, fun j hj ↦ ?_, rfl⟩, by omega⟩
  rw [Finset.mem_insert, not_or] at hj
  rw [hw j hj.1, hzero j hj.2]
