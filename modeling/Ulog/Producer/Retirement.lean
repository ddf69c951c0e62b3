import Ulog.Producer.Consuming

/-!
# Retirement of producer slots

`TryFinishRetirement` tests that the lane is drained and then exchanges the state of the slot from
retiring to reconciling; whoever wins the exchange owns the slot until it is free again. The test
and the exchange are separate steps. A publication can claim the lane between them, find the slot
still active, and then lose it to a retirement that starts afterwards: `slot_recycled_under_writer`
is such a run.

`CleanRetirement` are the runs in which the exchange finds the lane as the test left it, not
claimed, and in which the store that undoes a registration finds the slot as the registration left
it, active. In these runs a publication that has passed its second check keeps its slot:
reconciliation never runs beside it, and its generation stays current until it returns.
-/

namespace Ulog

variable {conv : Charconv} {config : ValidConfig} {k k' : Kernel} {m m' : KernelMemory} {t : ℕ}
  {choice : StepChoice} {p : ℕ}

/-! ## Owners of a slot -/

/-- The call has won the exchange and has not yet given the slot back. -/
def RetirePc.Owns : RetirePc → Prop
  | .drained _ | .exchange => False
  | .reconcile _ | .restore | .bumpGeneration | .storeFree => True

/-- The retirement that a call is busy with. -/
def KernelCall.retirement : KernelCall → Option (ℕ × RetirePc)
  | .consume ⟨_, .retire lane pc⟩ => some (lane, pc)
  | .retire ⟨slot, _, .finish pc⟩ => some (slot, pc)
  | .quiescent ⟨slot, _, .finish pc, _⟩ => some (slot, pc)
  | .register (.finish slot pc) => some (slot, pc)
  | _ => none

def Kernel.Owns (k : Kernel) (t p : ℕ) : Prop :=
  ∃ pc, (k.calls t).retirement = some (p, pc) ∧ pc.Owns

/-- What a retirement does to its slot, by whether it owned it before and owns it after. -/
inductive ControlMove : Prop → Prop → ProducerControl → ProducerControl → Prop
  | keep {P Q : Prop} (c : ProducerControl) : (Q → P) → ControlMove P Q c c
  | acquire {P Q : Prop} (generation : ℕ) : ¬P →
      ControlMove P Q ⟨generation, .retiring⟩ ⟨generation, .reconciling⟩
  | bump {P Q : Prop} (c : ProducerControl) : P → ControlMove P Q c ⟨c.generation + 1, c.state⟩
  | release {P Q : Prop} (c : ProducerControl) (state : ProducerSlotState) : P → ¬Q →
      ControlMove P Q c ⟨c.generation, state⟩

theorem retireStep_controls (slot : ℕ) (choice : StepChoice) (pc : RetirePc) :
    (∀ q ≠ slot, (retireStep m slot choice pc).1.controls q = m.controls q) ∧
      ControlMove pc.Owns (∃ pc', (retireStep m slot choice pc).2 = some pc' ∧ pc'.Owns)
        (m.controls slot) ((retireStep m slot choice pc).1.controls slot) := by
  have hset : ∀ c, ∀ q ≠ slot, (m.setControl slot c).controls q = m.controls q :=
    fun _ q hq ↦ Function.update_of_ne hq ..
  have hself : ∀ c, (m.setControl slot c).controls slot = c := fun _ ↦ Function.update_self ..
  cases pc with
  | drained pc =>
    rw [retireStep]
    split <;> refine ⟨fun _ _ ↦ rfl, .keep _ ?_⟩ <;> rintro ⟨_, ⟨⟩, howns⟩ <;> exact howns
  | exchange =>
    rw [retireStep]
    split
    · next hretiring =>
      refine ⟨hset _, ?_⟩
      have hold : m.controls slot = ⟨(m.controls slot).generation, .retiring⟩ := by
        rw [← hretiring]
      have hnew : (m.setState slot .reconciling).controls slot =
          ⟨(m.controls slot).generation, .reconciling⟩ := hself _
      rw [hnew, hold]
      exact .acquire _ id
    · exact ⟨fun _ _ ↦ rfl, .keep _ (by simp)⟩
  | reconcile pc =>
    rw [retireStep]
    split <;> exact ⟨fun _ _ ↦ rfl, .keep _ fun _ ↦ trivial⟩
  | restore =>
    refine ⟨hset _, ?_⟩
    have hnew : (m.setState slot .retiring).controls slot = _ := hself _
    rw [retireStep, hnew]
    exact .release _ _ trivial (by simp)
  | bumpGeneration =>
    refine ⟨hset _, ?_⟩
    rw [retireStep, hself]
    exact .bump _ trivial
  | storeFree =>
    refine ⟨hset _, ?_⟩
    have hnew : (m.setState slot .free).controls slot = _ := hself _
    rw [retireStep, hnew]
    exact .release _ _ trivial (by simp)

theorem retireStep_drained (slot : ℕ) (choice : StepChoice) (pc : DrainPc) :
    (retireStep m slot choice (.drained pc)).1 = m := by
  rw [retireStep]
  split <;> rfl

/-! ## Publications past their second check -/

/-- The second `IsActive` check has passed, and the flag is not yet cleared. -/
def PublishPc.Passed : PublishPc → Prop
  | .reserve _ | .begin | .building | .publishRecord | .commit | .finishCommit | .storeRecord
  | .emplace | .finishEmplace | .fetchSequence | .writeEnvelope | .publishPosition | .clear => True
  | .unwind stages outcome => stages ≠ [] ∧ outcome ≠ some .noProducerSlot
  | _ => False

/-- The state has been checked a second time, and perhaps the generation too. -/
def PublishPc.Checked (pc : PublishPc) : Prop := pc = .recheckGeneration ∨ pc.Passed

theorem PublishPc.Checked.holds {pc : PublishPc} (h : pc.Checked) : pc.Holds := by
  rcases h with rfl | h
  · trivial
  · cases pc with
    | unwind stages outcome => exact h.1
    | activeState | activeGeneration | testAndSet | loadPositions | clearFull | admission
    | recheckState | recheckGeneration | done _ => exact h.elim
    | _ => trivial

section Publish

variable {f f' : PublishFrame}

/-- What a step of `TryPublishSlot` does to the slots, and how a call comes to have passed its
checks. -/
structure PublishChecks (m m' : KernelMemory) (f f' : PublishFrame) : Prop where
  controls : m'.controls = m.controls
  generation : f'.generation = f.generation
  checked : f'.pc.Checked → f.pc.Checked ∨ (m.controls f.slot).state = .active
  passed : f'.pc.Passed → f.pc.Passed ∨
    f.pc = .recheckGeneration ∧ (m.controls f.slot).generation = f.generation

theorem PublishChecks.stay (hpassed : f.pc.Passed) (hcontrols : m'.controls = m.controls)
    (hgeneration : f'.generation = f.generation) : PublishChecks m m' f f' :=
  ⟨hcontrols, hgeneration, fun _ ↦ .inl (.inr hpassed), fun _ ↦ .inl hpassed⟩

theorem PublishChecks.outside (hnot : ¬f'.pc.Checked) (hcontrols : m'.controls = m.controls)
    (hgeneration : f'.generation = f.generation) : PublishChecks m m' f f' :=
  ⟨hcontrols, hgeneration, fun h ↦ absurd h hnot, fun h ↦ absurd (.inr h) hnot⟩

theorem not_checked_reject {stages : List Unwind} :
    ¬(PublishPc.unwind stages (some .noProducerSlot)).Checked := by
  rintro (h | h)
  · cases h
  · exact h.2 rfl

theorem publishChecks (hstep : publishStep conv config m f choice = some (m', f')) :
    PublishChecks m m' f f' := by
  have hnot : ∀ {pc : PublishPc}, pc ≠ .recheckGeneration → ¬pc.Passed → ¬pc.Checked :=
    fun hne hpassed hchecked ↦ hchecked.elim hne hpassed
  cases hpc : f.pc with
  | activeState | activeGeneration | testAndSet | loadPositions =>
    rw [publishStep, hpc] at hstep
    simp only at hstep
    split at hstep <;> cases hstep <;> exact .outside (hnot (by rintro ⟨⟩) id) rfl rfl
  | clearFull =>
    rw [publishStep, hpc] at hstep
    cases hstep
    exact .outside (hnot (by rintro ⟨⟩) id) rfl rfl
  | admission =>
    rw [publishStep, hpc] at hstep
    simp only at hstep
    split at hstep <;> cases hstep
    · exact .outside (hnot (by rintro ⟨⟩) id) rfl rfl
    · exact .outside not_checked_reject rfl rfl
  | recheckState =>
    rw [publishStep, hpc] at hstep
    simp only at hstep
    split at hstep
    · next hactive =>
      cases hstep
      exact ⟨rfl, rfl, fun _ ↦ .inr hactive.2, fun h ↦ h.elim⟩
    · cases hstep
      exact .outside not_checked_reject rfl rfl
  | recheckGeneration =>
    rw [publishStep, hpc] at hstep
    simp only at hstep
    split at hstep
    · cases hstep
      exact .outside not_checked_reject rfl rfl
    · next hgeneration =>
      have hpassed : ∀ {m' f'}, m'.controls = m.controls → f'.generation = f.generation →
          PublishChecks m m' f f' := fun hcontrols hf' ↦
        ⟨hcontrols, hf', fun _ ↦ .inl (.inl hpc), fun _ ↦ .inr ⟨hpc, not_not.mp hgeneration⟩⟩
      repeat' split at hstep
      all_goals cases hstep
      all_goals exact hpassed rfl rfl
  | unwind stages outcome =>
    rw [publishStep.eq_def, hpc] at hstep
    cases stages with
    | nil =>
      cases hstep
      exact .outside (hnot (by rintro ⟨⟩) id) rfl rfl
    | cons stage stages =>
      have hleave : ∀ {m' f'}, m'.controls = m.controls → f'.generation = f.generation →
          f'.pc = .unwind stages outcome → PublishChecks m m' f f' := by
        intro m' f' hcontrols hgeneration hpc'
        have hpassed : f'.pc.Passed → f.pc.Passed := by
          rw [hpc, hpc']
          exact fun h ↦ ⟨List.cons_ne_nil _ _, h.2⟩
        refine ⟨hcontrols, hgeneration, ?_, fun h ↦ .inl (hpassed h)⟩
        rintro (h | h)
        · cases hpc'.symm.trans h
        · exact .inl (.inr (hpassed h))
      cases hstep
      cases stage <;> exact hleave rfl rfl rfl
  | done result =>
    rw [publishStep, hpc] at hstep
    cases hstep
  | _ =>
    have hpassed : f.pc.Passed := by
      rw [hpc]
      trivial
    rw [publishStep, hpc] at hstep
    simp only at hstep
    repeat' split at hstep
    all_goals cases hstep
    all_goals exact .stay hpassed rfl rfl

end Publish

/-! ## Clean runs -/

/-- The step would win the exchange on this slot. -/
def Kernel.Exchanges (k : Kernel) (t p : ℕ) : Prop :=
  (k.calls t).retirement = some (p, .exchange) ∧ (k.memory.controls p).state = .retiring

/-- The registration that a call is about to undo. -/
def KernelCall.undone : KernelCall → Option ℕ
  | .register (.storeRetiring slot) => some slot
  | _ => none

/-- The exchange finds the lane not claimed, and the store that undoes a registration finds the slot
active. -/
def Kernel.CleanRetirement (k : Kernel) : KernelAction → Prop
  | .advance t _ =>
    (∀ x ∈ (k.calls t).retirement, x.2 = .exchange →
      (k.memory.controls x.1).state = .retiring → (k.memory.lanes x.1).publishing = false) ∧
    ∀ p ∈ (k.calls t).undone, (k.memory.controls p).state = .active
  | _ => True

instance (k : Kernel) (action : KernelAction) : Decidable (k.CleanRetirement action) :=
  match action with
  | .advance _ _ => inferInstanceAs (Decidable (_ ∧ _))
  | .publish .. | .consume _ | .retire .. | .quiescent _ | .register _ | .closeAdmission
  | .return _ => inferInstanceAs (Decidable True)

/-- What holds of the slots in clean runs. -/
structure Kernel.SlotInv (k : Kernel) : Prop where
  checked : ∀ t f, k.calls t = .publish f → f.pc.Checked →
    (k.memory.controls f.slot).state = .active ∨ (k.memory.controls f.slot).state = .retiring
  passed : ∀ t f, k.calls t = .publish f → f.pc.Passed →
    (k.memory.controls f.slot).generation = f.generation
  owner : ∀ t p, k.Owns t p → (k.memory.controls p).state = .reconciling
  unique : ∀ t t' p, k.Owns t p → k.Owns t' p → t = t'

namespace Kernel

variable {call : KernelCall}

/-- No publication is past its check on an owned slot. -/
theorem SlotInv.not_checked (h : k.SlotInv) (howns : k.Owns t p) {t' : ℕ} {f : PublishFrame}
    (hf : k.calls t' = .publish f) (hchecked : f.pc.Checked) : f.slot ≠ p := by
  rintro rfl
  have hstate := h.owner t f.slot howns
  rcases h.checked t' f hf hchecked with hactive | hretiring
  · cases hstate.symm.trans hactive
  · cases hstate.symm.trans hretiring

theorem SlotInv.update (h : k.SlotInv) (m' : KernelMemory) (admissions' : List Admission)
    (consumptions' : List Consumption) (returned' : List (ℕ × Admission))
    (hpublish : ∀ f, call = .publish f → f.pc = .activeState)
    (hcontrols : ∀ q ≠ p, m'.controls q = k.memory.controls q)
    (hslot : m'.controls p = k.memory.controls p ∨ ∀ t' f, k.calls t' = .publish f → f.pc.Checked →
      f.slot = p → (m'.controls p).generation = (k.memory.controls p).generation ∧
      ((m'.controls p).state = .active ∨ (m'.controls p).state = .retiring))
    (howner : ∀ t', t' ≠ t → k.Owns t' p → (m'.controls p).state = .reconciling)
    (hself : ∀ q pc, call.retirement = some (q, pc) → pc.Owns → q = p ∧
      (m'.controls p).state = .reconciling ∧ ∀ t', t' ≠ t → ¬k.Owns t' p) :
    SlotInv ⟨m', Function.update k.calls t call, admissions', consumptions', returned'⟩ := by
  have hpub : ∀ t' f, Function.update k.calls t call t' = .publish f → f.pc.Checked →
      k.calls t' = .publish f := by
    intro t' f hf hchecked
    rcases update_eq_cases hf with ⟨-, heq⟩ | ⟨-, hf⟩
    · rw [hpublish f heq.symm] at hchecked
      rcases hchecked with hne | hpassed
      · cases hne
      · exact hpassed.elim
    · exact hf
  have howns : ∀ t' q, Owns ⟨m', Function.update k.calls t call, admissions', consumptions',
      returned'⟩ t' q → t' = t ∧ (∃ pc, call.retirement = some (q, pc) ∧ pc.Owns) ∨
        t' ≠ t ∧ k.Owns t' q := by
    rintro t' q ⟨pc, hcall, hpc⟩
    by_cases ht : t' = t
    · subst ht
      change (Function.update k.calls t' call t').retirement = _ at hcall
      rw [Function.update_self] at hcall
      exact .inl ⟨rfl, pc, hcall, hpc⟩
    · change (Function.update k.calls t call t').retirement = _ at hcall
      rw [Function.update_of_ne ht] at hcall
      exact .inr ⟨ht, pc, hcall, hpc⟩
  refine ⟨fun t' f hf hchecked ↦ ?_, fun t' f hf hpassed ↦ ?_, fun t' q ho ↦ ?_,
    fun t₁ t₂ q h₁ h₂ ↦ ?_⟩
  · have hf := hpub t' f hf hchecked
    have hold := h.checked t' f hf hchecked
    change (m'.controls f.slot).state = _ ∨ (m'.controls f.slot).state = _
    by_cases hp : f.slot = p
    · rcases hslot with hsame | hnew
      · rw [hp, hsame, ← hp]
        exact hold
      · rw [hp]
        exact (hnew t' f hf hchecked hp).2
    · rw [hcontrols _ hp]
      exact hold
  · have hf := hpub t' f hf (.inr hpassed)
    have hold := h.passed t' f hf hpassed
    change (m'.controls f.slot).generation = _
    by_cases hp : f.slot = p
    · rcases hslot with hsame | hnew
      · rw [hp, hsame, ← hp]
        exact hold
      · rw [hp, (hnew t' f hf (.inr hpassed) hp).1, ← hp]
        exact hold
    · rw [hcontrols _ hp]
      exact hold
  · change (m'.controls q).state = _
    rcases howns t' q ho with ⟨-, pc, hcall, hpc⟩ | ⟨ht, ho⟩
    · obtain ⟨rfl, hstate, -⟩ := hself q pc hcall hpc
      exact hstate
    · by_cases hq : q = p
      · subst hq
        exact howner t' ht ho
      · rw [hcontrols q hq]
        exact h.owner t' q ho
  · rcases howns t₁ q h₁ with ⟨rfl, pc, hcall, hpc⟩ | ⟨ht₁, ho₁⟩ <;>
      rcases howns t₂ q h₂ with ⟨ht, pc', hcall', hpc'⟩ | ⟨ht₂, ho₂⟩
    · exact ht.symm
    · obtain ⟨rfl, -, hnone⟩ := hself q pc hcall hpc
      exact absurd ho₂ (hnone t₂ ht₂)
    · subst ht
      obtain ⟨rfl, -, hnone⟩ := hself q pc' hcall' hpc'
      exact absurd ho₁ (hnone t₁ ht₁)
    · exact h.unique t₁ t₂ q ho₁ ho₂

/-- A step of `TryFinishRetirement`, inside whatever call. -/
theorem SlotInv.retire (h : k.SlotInv) (hinv : k.Inv conv config) {pc : RetirePc}
    (ht : (k.calls t).retirement = some (p, pc))
    (hclean : ∀ q, k.Exchanges t q → (k.memory.lanes q).publishing = false)
    (hpublish : ∀ f, call = .publish f → f.pc = .activeState)
    (hcall : ∀ q pc', call.retirement = some (q, pc') → pc'.Owns → q = p ∧
      (retireStep k.memory p choice pc).2 = some pc')
    (consumptions' : List Consumption) :
    SlotInv ⟨(retireStep k.memory p choice pc).1, Function.update k.calls t call, k.admissions,
      consumptions', k.returned⟩ := by
  obtain ⟨hcontrols, hmove⟩ := retireStep_controls (m := k.memory) p choice pc
  have hnone : ∀ {t'}, k.Owns t p → t' ≠ t → ¬k.Owns t' p :=
    fun howns hne ho ↦ hne (h.unique _ _ p ho howns)
  -- on a slot that this call owns there is no checked publication
  have hfree : k.Owns t p → ∀ t' f, k.calls t' = .publish f → f.pc.Checked → f.slot = p → False :=
    fun howns t' f hf hchecked hp ↦ h.not_checked howns hf hchecked hp
  have hpc' : ∀ q pc', call.retirement = some (q, pc') → pc'.Owns →
      q = p ∧ ∃ pc', (retireStep k.memory p choice pc).2 = some pc' ∧ pc'.Owns :=
    fun q pc' hq hpc' ↦ ⟨(hcall q pc' hq hpc').1, pc', (hcall q pc' hq hpc').2, hpc'⟩
  have howns : pc.Owns → k.Owns t p := fun hpc ↦ ⟨pc, ht, hpc⟩
  revert hmove hpc'
  generalize (∃ pc', (retireStep k.memory p choice pc).2 = some pc' ∧ pc'.Owns) = Q
  generalize hold : k.memory.controls p = c
  generalize hnew : (retireStep k.memory p choice pc).1.controls p = c'
  intro hmove hpc'
  cases hmove with
  | keep _ hkeep =>
    refine h.update _ _ _ _ hpublish hcontrols (.inl (hnew.trans hold.symm)) ?_ ?_
    · intro t' _ ho
      rw [hnew, ← hold]
      exact h.owner t' p ho
    · intro q pc' hq hpc
      obtain ⟨hqp, hQ⟩ := hpc' q pc' hq hpc
      have ho := howns (hkeep hQ)
      rw [hnew, ← hold]
      exact ⟨hqp, h.owner t p ho, fun t' hne ↦ hnone ho hne⟩
  | acquire generation hnot =>
    have hretiring : (k.memory.controls p).state = .retiring := by rw [hold]
    have hnoOwner : ∀ t', ¬k.Owns t' p :=
      fun t' ho ↦ nomatch (h.owner t' p ho).symm.trans hretiring
    refine h.update _ _ _ _ hpublish hcontrols (.inr fun t' f hf hchecked hp ↦ ?_)
      (fun t' _ ho ↦ absurd ho (hnoOwner t')) ?_
    · -- it would hold the flag that the exchange found clear
      have hpc : pc = .exchange := by
        cases pc with
        | exchange => rfl
        | drained pc =>
          rw [retireStep_drained, hold] at hnew
          cases hnew
        | _ => exact absurd trivial hnot
      subst hpc
      have hclear := hclean p ⟨ht, hretiring⟩
      rw [← hp, hinv.holds t' f hf hchecked.holds] at hclear
      cases hclear
    · intro q pc' hq hpc
      rw [hnew]
      exact ⟨(hpc' q pc' hq hpc).1, rfl, fun t' _ ↦ hnoOwner t'⟩
  | bump _ hP =>
    have ho := howns hP
    refine h.update _ _ _ _ hpublish hcontrols
      (.inr fun t' f hf hchecked hp ↦ (hfree ho t' f hf hchecked hp).elim)
      (fun t' hne ho' ↦ absurd ho' (hnone ho hne)) ?_
    intro q pc' hq hpc
    rw [hnew]
    refine ⟨(hpc' q pc' hq hpc).1, ?_, fun t' hne ↦ hnone ho hne⟩
    rw [← hold]
    exact h.owner t p ho
  | release _ state hP hQ =>
    have ho := howns hP
    refine h.update _ _ _ _ hpublish hcontrols
      (.inr fun t' f hf hchecked hp ↦ (hfree ho t' f hf hchecked hp).elim)
      (fun t' hne ho' ↦ absurd ho' (hnone ho hne)) ?_
    exact fun q pc' hq hpc ↦ absurd (hpc' q pc' hq hpc).2 hQ

theorem SlotInv.other (h : k.SlotInv) (hcontrols : m'.controls = k.memory.controls)
    (hpublish : ∀ f, call = .publish f → f.pc = .activeState)
    (hcall : ∀ q pc, call.retirement = some (q, pc) → ¬pc.Owns) (admissions' : List Admission)
    (consumptions' : List Consumption) (returned' : List (ℕ × Admission)) :
    SlotInv ⟨m', Function.update k.calls t call, admissions', consumptions', returned'⟩ := by
  refine h.update _ _ _ _ hpublish (fun q _ ↦ congrFun hcontrols q)
    (.inl (congrFun hcontrols 0)) (fun t' _ ho ↦ ?_) fun q pc hq hpc ↦ absurd hpc (hcall q pc hq)
  rw [hcontrols]
  exact h.owner t' 0 ho

theorem SlotInv.setState (h : k.SlotInv) {state : ProducerSlotState}
    (hstate : (k.memory.controls p).state = .active ∧ state = .retiring ∨
      (k.memory.controls p).state = .free ∧ state = .active)
    (hpublish : ∀ f, call = .publish f → f.pc = .activeState)
    (hcall : ∀ q pc, call.retirement = some (q, pc) → ¬pc.Owns) :
    SlotInv (k.after t (k.memory.setState p state) call) := by
  have hself : (k.memory.setState p state).controls p = ⟨(k.memory.controls p).generation, state⟩ :=
    Function.update_self ..
  have hnoOwner : ∀ t', ¬k.Owns t' p := by
    intro t' ho
    rcases hstate with ⟨hs, -⟩ | ⟨hs, -⟩
    · cases (h.owner t' p ho).symm.trans hs
    · cases (h.owner t' p ho).symm.trans hs
  refine h.update (p := p) _ _ _ _ hpublish (fun q hq ↦ Function.update_of_ne hq ..) (.inr ?_)
    (fun t' _ ho ↦ absurd ho (hnoOwner t')) fun q pc hq hpc ↦ absurd hpc (hcall q pc hq)
  intro t' f hf hchecked hp
  rw [hself]
  refine ⟨rfl, ?_⟩
  rcases hstate with ⟨-, rfl⟩ | ⟨-, rfl⟩
  · exact .inr rfl
  · exact .inl rfl

theorem SlotInv.publish (h : k.SlotInv) {f f' : PublishFrame} (hf : k.calls t = .publish f)
    (hslot : f'.slot = f.slot)
    (hstep : publishStep conv config k.memory f choice = some (m', f')) :
    (k.afterPublish t f m' f').SlotInv := by
  obtain ⟨hcontrols, hgeneration, hchecked, hpassed⟩ := publishChecks hstep
  have howns : ∀ t' p, (k.afterPublish t f m' f').Owns t' p → k.Owns t' p := by
    rintro t' p ⟨pc, hcall, hpc⟩
    refine ⟨pc, ?_, hpc⟩
    change (Function.update k.calls t (.publish f') t').retirement = _ at hcall
    by_cases ht : t' = t
    · subst ht
      rw [Function.update_self] at hcall
      cases hcall
    · rwa [Function.update_of_ne ht] at hcall
  refine ⟨fun t' g hg hg' ↦ ?_, fun t' g hg hg' ↦ ?_, fun t' p ho ↦ ?_,
    fun t₁ t₂ p h₁ h₂ ↦ h.unique t₁ t₂ p (howns t₁ p h₁) (howns t₂ p h₂)⟩
  · change (m'.controls g.slot).state = _ ∨ (m'.controls g.slot).state = _
    rw [hcontrols]
    rcases update_eq_cases hg with ⟨-, heq⟩ | ⟨-, hg⟩
    · cases heq
      rw [hslot]
      exact (hchecked hg').elim (h.checked t f hf) .inl
    · exact h.checked t' g hg hg'
  · change (m'.controls g.slot).generation = _
    rw [hcontrols]
    rcases update_eq_cases hg with ⟨-, heq⟩ | ⟨-, hg⟩
    · cases heq
      rw [hslot, hgeneration]
      exact (hpassed hg').elim (h.passed t f hf) And.right
    · exact h.passed t' g hg hg'
  · change (m'.controls p).state = _
    rw [hcontrols]
    exact h.owner t' p (howns t' p ho)

section Calls

variable (h : k.SlotInv) (hinv : k.Inv conv config)
  (hclean : ∀ q, k.Exchanges t q → (k.memory.lanes q).publishing = false)

include h hinv hclean

theorem SlotInv.consumeStep {f : ConsumeFrame} {pc' : ConsumePc} (hf : k.calls t = .consume f)
    (hstep : consumeStep config k.memory f choice = some (m', pc')) :
    (k.afterConsume t f m' pc').SlotInv := by
  have hother : ∀ {m'}, m'.controls = k.memory.controls →
    (∀ lane pc, pc' = .retire lane pc → ¬pc.Owns) →
      (k.afterConsume t f m' pc').SlotInv := by
    intro m' hcontrols hpc'
    refine h.other hcontrols (fun g hg ↦ ?_) (fun q pc hq ↦ ?_) _ _ _
    · cases hg
    · cases pc' with
      | retire lane pc =>
        cases hq
        exact hpc' _ _ rfl
      | _ => cases hq
  cases hpc : f.pc with
  | scan lane later =>
    rw [Ulog.consumeStep, hpc] at hstep
    simp only at hstep
    split_ifs at hstep <;> cases hstep <;> exact hother rfl fun _ _ ↦ (by simp)
  | readEnvelope lane position later =>
    rw [Ulog.consumeStep, hpc] at hstep
    simp only at hstep
    split_ifs at hstep <;> cases hstep <;> exact hother rfl fun _ _ ↦ (by intros; contradiction)
  | validate claim =>
    rw [Ulog.consumeStep, hpc] at hstep
    simp only at hstep
    split_ifs at hstep <;> cases hstep <;> exact hother rfl fun _ _ ↦ (by simp)
  | loadSequence later | callback claim view | releaseOwnership claim | finishOwnership claim
  | clearCell claim =>
    rw [Ulog.consumeStep, hpc] at hstep
    cases hstep
    exact hother rfl fun _ _ ↦ (by intros; contradiction)
  | acknowledge claim =>
    rw [Ulog.consumeStep, hpc] at hstep
    cases hstep
    refine hother rfl fun lane pc hq ↦ ?_
    rw [startRetirement] at hq
    split_ifs at hq
    cases hq
    exact id
  | retire lane pc =>
    have ht : (k.calls t).retirement = some (lane, pc) := by
      obtain ⟨hasConsumer, fpc⟩ := f
      cases hpc
      rw [hf]
      rfl
    rw [Ulog.consumeStep, hpc] at hstep
    simp only at hstep
    obtain ⟨rfl, hcall⟩ : m' = (retireStep k.memory lane choice pc).1 ∧
        ∀ q pc₁, KernelCall.retirement (.consume ⟨f.hasConsumer, pc'⟩) = some (q, pc₁) →
          q = lane ∧ (retireStep k.memory lane choice pc).2 = some pc₁ := by
      revert hstep
      rcases retireStep k.memory lane choice pc with ⟨m₁, _ | pc₁⟩ <;> rintro ⟨⟩
      · exact ⟨rfl, fun q pc₁ hq ↦ (by cases hq)⟩
      · refine ⟨rfl, fun q pc₂ hq ↦ ?_⟩
        cases hq
        exact ⟨rfl, rfl⟩
    refine h.retire hinv ht hclean (fun g hg ↦ ?_) (fun q pc₁ hq _ ↦ hcall q pc₁ hq) _
    cases hg
  | done status =>
    rw [Ulog.consumeStep, hpc] at hstep
    cases hstep

theorem SlotInv.retireProducerStep {f : RetireFrame} {pc' : RetireProducerPc}
    (hf : k.calls t = .retire f)
    (hstep : retireProducerStep config k.memory f choice = some (m', pc')) :
    (k.after t m' (.retire { f with pc := pc' })).SlotInv := by
  obtain ⟨slot, generation, pc⟩ := f
  cases pc with
  | loadGeneration =>
    simp only [Ulog.retireProducerStep] at hstep
    split_ifs at hstep <;> cases hstep <;>
      exact h.other rfl (fun _ hg ↦ by cases hg) (fun _ _ hq ↦ by cases hq) _ _ _
  | exchange =>
    simp only [Ulog.retireProducerStep] at hstep
    split_ifs at hstep with hactive <;> cases hstep
    · refine h.setState (.inl ⟨hactive, rfl⟩) (fun _ hg ↦ by cases hg) fun q pc hq ↦ ?_
      cases hq
      exact id
    · exact h.other rfl (fun _ hg ↦ by cases hg) (fun _ _ hq ↦ by cases hq) _ _ _
  | finish pc =>
    have ht : (k.calls t).retirement = some (slot, pc) := by
      rw [hf]
      rfl
    simp only [Ulog.retireProducerStep] at hstep
    obtain ⟨rfl, hcall⟩ : m' = (retireStep k.memory slot choice pc).1 ∧
        ∀ q pc₁, KernelCall.retirement (.retire ⟨slot, generation, pc'⟩) = some (q, pc₁) →
          q = slot ∧ (retireStep k.memory slot choice pc).2 = some pc₁ := by
      revert hstep
      rcases retireStep k.memory slot choice pc with ⟨m₁, _ | pc₁⟩ <;> rintro ⟨⟩
      · exact ⟨rfl, fun q pc₁ hq ↦ (by cases hq)⟩
      · refine ⟨rfl, fun q pc₂ hq ↦ ?_⟩
        cases hq
        exact ⟨rfl, rfl⟩
    exact h.retire hinv ht hclean (fun _ hg ↦ by cases hg) (fun q pc₁ hq _ ↦ hcall q pc₁ hq) _
  | done => cases hstep

omit h hinv hclean in
/-- The loop of `IsQuiescent` goes on with a slot it does not own. -/
theorem not_owns_next {f : QuiescentFrame} {quiescent : Bool} {q : ℕ} {pc : RetirePc}
    (hq : KernelCall.retirement (.quiescent (f.next config quiescent)) = some (q, pc)) :
    ¬pc.Owns := by
  rw [QuiescentFrame.next, startRetirement] at hq
  split_ifs at hq
  · cases hq
    exact id
  · cases hq

theorem SlotInv.quiescentStep {f f' : QuiescentFrame} (hf : k.calls t = .quiescent f)
    (hstep : quiescentStep config k.memory f choice = some (m', f')) :
    (k.after t m' (.quiescent f')).SlotInv := by
  obtain ⟨slot, quiescent, pc, closed⟩ := f
  cases pc with
  | finish pc =>
    have ht : (k.calls t).retirement = some (slot, pc) := by
      rw [hf]
      rfl
    simp only [Ulog.quiescentStep] at hstep
    obtain ⟨rfl, hcall⟩ : m' = (retireStep k.memory slot choice pc).1 ∧
        ∀ q pc₁, KernelCall.retirement (.quiescent f') = some (q, pc₁) → pc₁.Owns →
          q = slot ∧ (retireStep k.memory slot choice pc).2 = some pc₁ := by
      revert hstep
      rcases retireStep k.memory slot choice pc with ⟨m₁, _ | pc₁⟩ <;> intro hstep
      · simp only at hstep
        split_ifs at hstep <;> cases hstep
        · exact ⟨rfl, fun q pc₁ hq ↦ (by cases hq)⟩
        · exact ⟨rfl, fun q pc₁ hq hpc₁ ↦ absurd hpc₁ (not_owns_next hq)⟩
      · cases hstep
        refine ⟨rfl, fun q pc₂ hq _ ↦ ?_⟩
        cases hq
        exact ⟨rfl, rfl⟩
    exact h.retire hinv ht hclean (fun _ hg ↦ by cases hg) hcall _
  | drained pc =>
    simp only [Ulog.quiescentStep] at hstep
    split at hstep <;> cases hstep
    · exact h.other rfl (fun _ hg ↦ by cases hg) (fun _ _ hq ↦ by cases hq) _ _ _
    · exact h.other rfl (fun _ hg ↦ by cases hg) (fun _ _ hq ↦ by cases hq) _ _ _
    · exact h.other rfl (fun _ hg ↦ by cases hg) (fun _ _ hq ↦ not_owns_next hq) _ _ _
  | loadState =>
    cases hstep
    exact h.other rfl (fun _ hg ↦ by cases hg) (fun _ _ hq ↦ not_owns_next hq) _ _ _
  | done => cases hstep

theorem SlotInv.registerStep {pc pc' : RegisterPc} (hf : k.calls t = .register pc)
    (hstore : ∀ p, k.calls t = .register (.storeRetiring p) →
      (k.memory.controls p).state = .active)
    (hstep : registerStep config k.memory choice pc = some (m', pc')) :
    (k.after t m' (.register pc')).SlotInv := by
  cases pc with
  | admission =>
    cases hstep
    refine h.other rfl (fun _ hg ↦ by cases hg) (fun q pc hq ↦ ?_) _ _ _
    split_ifs at hq <;> cases hq
  | exchange slot =>
    simp only [Ulog.registerStep] at hstep
    split_ifs at hstep with hslot hfree <;> cases hstep
    · exact h.setState (.inr ⟨hfree, rfl⟩) (fun _ hg ↦ by cases hg) fun _ _ hq ↦ by cases hq
    · exact h.other rfl (fun _ hg ↦ by cases hg) (fun _ _ hq ↦ by cases hq) _ _ _
    · exact h.other rfl (fun _ hg ↦ by cases hg) (fun _ _ hq ↦ by cases hq) _ _ _
  | recheck slot =>
    cases hstep
    refine h.other rfl (fun _ hg ↦ by cases hg) (fun q pc hq ↦ ?_) _ _ _
    split_ifs at hq <;> cases hq
  | storeRetiring slot =>
    cases hstep
    refine h.setState (.inl ⟨hstore slot hf, rfl⟩) (fun _ hg ↦ by cases hg) fun q pc hq ↦ ?_
    cases hq
    exact id
  | finish slot pc =>
    have ht : (k.calls t).retirement = some (slot, pc) := by
      rw [hf]
      rfl
    simp only [Ulog.registerStep] at hstep
    obtain ⟨rfl, hcall⟩ : m' = (retireStep k.memory slot choice pc).1 ∧
        ∀ q pc₁, KernelCall.retirement (.register pc') = some (q, pc₁) →
          q = slot ∧ (retireStep k.memory slot choice pc).2 = some pc₁ := by
      revert hstep
      rcases retireStep k.memory slot choice pc with ⟨m₁, _ | pc₁⟩ <;> rintro ⟨⟩
      · exact ⟨rfl, fun q pc₁ hq ↦ nomatch hq⟩
      · refine ⟨rfl, fun q pc₂ hq ↦ ?_⟩
        cases hq
        exact ⟨rfl, rfl⟩
    exact h.retire hinv ht hclean (fun _ hg ↦ by cases hg) (fun q pc₁ hq _ ↦ hcall q pc₁ hq) _
  | loadGeneration slot =>
    cases hstep
    exact h.other rfl (fun _ hg ↦ by cases hg) (fun _ _ hq ↦ by cases hq) _ _ _
  | done registration => cases hstep

end Calls

/-! ## The result -/

theorem slotInv_init : (init config).SlotInv := by
  have hidle : ∀ t, (init config).calls t = .idle := fun _ ↦ rfl
  have howns : ∀ t p, ¬(init config).Owns t p := by
    rintro t p ⟨pc, hcall, -⟩
    cases hcall
  exact ⟨fun t f hf ↦ (nomatch (hidle t).symm.trans hf), fun t f hf ↦
    (nomatch (hidle t).symm.trans hf), fun t p ho ↦ absurd ho (howns t p),
    fun t _ p ho ↦ absurd ho (howns t p)⟩

theorem SlotInv.step (h : k.SlotInv) (hinv : k.Inv conv config) {action : KernelAction}
    (hclean : k.CleanRetirement action) (hstep : k.step conv config action = some k') :
    k'.SlotInv := by
  have hexchange : ∀ {t choice}, action = .advance t choice →
      ∀ p, k.Exchanges t p → (k.memory.lanes p).publishing = false := by
    rintro t choice rfl p hp
    exact hclean.1 (p, .exchange) hp.1 rfl hp.2
  cases Move.of_step hstep with
  | enter _ hcall =>
    refine h.other rfl (fun f hf ↦ ?_) (fun q pc hq ↦ ?_) _ _ _
    · cases hcall <;> cases hf
      rfl
    · cases hcall with
      | quiescent =>
        cases hq
        exact id
      | consume =>
        split_ifs at hq <;> cases hq
      | _ => cases hq
  | closeAdmission => exact { h with }
  | publish hf hcall =>
    obtain ⟨admissions', e⟩ := hinv.stepEffect hf hcall
    exact h.publish hf e.slot hcall
  | consume hf hcall => exact h.consumeStep hinv (hexchange rfl) hf hcall
  | retire hf hcall => exact h.retireProducerStep hinv (hexchange rfl) hf hcall
  | quiescent hf hcall => exact h.quiescentStep hinv (hexchange rfl) hf hcall
  | register hf hcall =>
    refine h.registerStep hinv (hexchange rfl) hf (fun p hp ↦ hclean.2 p ?_) hcall
    rw [hp]
    rfl
  | returnPublish | «return» =>
    exact h.other rfl (fun _ hg ↦ by cases hg) (fun _ _ hq ↦ by cases hq) _ _ _

/-- What slot reuse owes to a publication that has passed its second check. -/
structure KeepsOpenWriters (k : Kernel) : Prop where
  /-- its slot is neither reconciled nor freed, and its generation is the current one -/
  current : ∀ t f, k.calls t = .publish f → f.pc.Passed →
    (k.memory.controls f.slot).generation = f.generation ∧
      ((k.memory.controls f.slot).state = .active ∨ (k.memory.controls f.slot).state = .retiring)
  /-- nobody is between winning the slot and giving it back -/
  unowned : ∀ t f, k.calls t = .publish f → f.pc.Passed → ∀ t', ¬k.Owns t' f.slot
  /-- reconciliation of a slot does not run beside a reservation on it -/
  exclusive : ∀ t t' f call p pc, k.calls t = .publish f → f.pc = .reserve call →
    (k.calls t').retirement = some (p, .reconcile pc) → f.slot ≠ p

/-- In clean runs a slot is never recycled under an open writer. -/
theorem keepsOpenWriters (h : (machine conv config).Reach CleanRetirement k) :
    k.KeepsOpenWriters := by
  have hinv : k.Inv conv config ∧ k.SlotInv := by
    refine Machine.Reach.invariant (I := fun k ↦ k.Inv conv config ∧ k.SlotInv) h
      ⟨inv_init, slotInv_init⟩ fun k action k' hk hclean hstep ↦ ?_
    exact ⟨hk.1.step hstep, hk.2.step hk.1 hclean hstep⟩
  obtain ⟨-, hslot⟩ := hinv
  have hunowned : ∀ t f, k.calls t = .publish f → f.pc.Passed → ∀ t', ¬k.Owns t' f.slot :=
    fun t f hf hpassed t' ho ↦ hslot.not_checked ho hf (.inr hpassed) rfl
  refine ⟨fun t f hf hpassed ↦ ⟨hslot.passed t f hf hpassed,
    hslot.checked t f hf (.inr hpassed)⟩, hunowned, ?_⟩
  rintro t t' f call p pc hf hpc hretire rfl
  refine hunowned t f hf ?_ t' ⟨_, hretire, trivial⟩
  rw [hpc]
  trivial

/-- A clean run with a publication past its check while its slot is being retired. -/
theorem keepsOpenWriters_retiring :
    ∃ k, (machine .blank .singleCell).Reach CleanRetirement k ∧
      (k.memory.controls 0).state = .retiring ∧
      (∃ f, k.calls 1 = .publish f ∧ f.pc.Passed ∧ f.slot = 0) ∧ k.KeepsOpenWriters := by
  have hrun : (machine .blank .singleCell).run CleanRetirement
      (init .singleCell)
      (List.flatten [[.register 1], advances 1 4, [.return 1],
        [.publish 1 0 1 .info ⟨[0x61], [0x62], 7, 9⟩ true], advances 1 7, [.retire 2 0 1],
        advances 2 3]) = some _ := rfl
  have hreach := Machine.Reach.of_run .init hrun
  exact ⟨_, hreach, rfl, ⟨_, rfl, trivial, rfl⟩, keepsOpenWriters hreach⟩

/-- The consumer finds the lane of an active slot drained. Before its exchange a publication passes
both checks, and the slot is made retiring. -/
def recyclingRun : List KernelAction :=
  List.flatten
    [[.register 1], advances 1 4, [.return 1],
      -- the first Record, published and consumed; the consumer stops before its exchange
      [.publish 1 0 1 .info ⟨[0x61], [0x62], 7, 9⟩ true], advances 1 25, [.return 1],
      [.consume true], advances consumerThread 11,
      -- the second Record passes its checks, and the slot is retired under it
      [.publish 1 0 1 .info ⟨[0x61], [0x62], 7, 9⟩ true], advances 1 7,
      [.retire 2 0 1], advances 2 3, [.return 2]]

/-- The publication of this thread is reserving on slot 0 through generation 1. -/
def reserving (k : Kernel) (t : ℕ) : Bool :=
  match k.calls t with
  | .publish ⟨0, 1, _, _, _, .reserve _, _, _, _, _, _, _, _, _, _, _⟩ => true
  | _ => false

/-- The retirement of this thread is reconciling slot 0. -/
def reconciling (k : Kernel) (t : ℕ) : Bool :=
  match (k.calls t).retirement with
  | some (0, .reconcile _) => true
  | _ => false

theorem exists_of_reserving (h : k.reserving t = true) :
    ∃ f call, k.calls t = .publish f ∧ f.slot = 0 ∧ f.generation = 1 ∧ f.pc = .reserve call := by
  rw [reserving] at h
  split at h
  · next hf => exact ⟨_, _, hf, rfl, rfl, rfl⟩
  · cases h

theorem exists_of_reconciling (h : k.reconciling t = true) :
    ∃ pc, (k.calls t).retirement = some (0, .reconcile pc) := by
  rw [reconciling] at h
  split at h
  · next pc hcall => exact ⟨pc, hcall⟩
  · cases h

/-- The exchange succeeds: the slot is reconciled beside the reservation, and the Record is accepted
through generation 1 after the slot has been freed with generation 2. -/
theorem slot_recycled_under_writer :
    (∃ k, (machine .blank .singleCell).Reachable k ∧
      (∃ f call, k.calls 1 = .publish f ∧ f.slot = 0 ∧ f.generation = 1 ∧
        f.pc = .reserve call) ∧
      ∃ pc, (k.calls consumerThread).retirement = some (0, .reconcile pc)) ∧
    ∃ k, (machine .blank .singleCell).Reachable k ∧
      k.memory.controls 0 = ⟨2, .free⟩ ∧
      (∃ f call, k.calls 1 = .publish f ∧ f.slot = 0 ∧ f.generation = 1 ∧
        f.pc = .reserve call) ∧
      ∃ k', (machine .blank .singleCell).run (fun _ _ ↦ True) k
          (advances 1 18 ++ [.return 1]) = some k' ∧
        k'.returned.map (·.1) = [0, 1] ∧ k'.memory.controls 0 = ⟨2, .free⟩ := by
  constructor
  · obtain ⟨k, hreach, htest⟩ := Machine.Reach.exists_of_run
      (machine .blank .singleCell) (fun _ _ ↦ True)
      (fun k ↦ k.reserving 1 && k.reconciling consumerThread)
      (recyclingRun ++ [.advance consumerThread {}]) (by decide +kernel)
    rw [Bool.and_eq_true] at htest
    exact ⟨k, hreach, exists_of_reserving htest.1, exists_of_reconciling htest.2⟩
  · obtain ⟨k, hreach, htest⟩ := Machine.Reach.exists_of_run
      (machine .blank .singleCell) (fun _ _ ↦ True)
      (fun k ↦ k.memory.controls 0 = ⟨2, .free⟩ && k.reserving 1 &&
        ((machine .blank .singleCell).run (fun _ _ ↦ True) k
          (advances 1 18 ++ [.return 1])).any fun k' ↦
            k'.returned.map (·.1) = [0, 1] && k'.memory.controls 0 = ⟨2, .free⟩)
      (recyclingRun ++ advances consumerThread 7) (by decide +kernel)
    rw [Bool.and_eq_true, Bool.and_eq_true, Option.any_eq_true] at htest
    obtain ⟨⟨hfree, hreserving⟩, k', hrun, hend⟩ := htest
    rw [Bool.and_eq_true] at hend
    exact ⟨k, hreach, of_decide_eq_true hfree, exists_of_reserving hreserving, k', hrun,
      of_decide_eq_true hend.1, of_decide_eq_true hend.2⟩

end Kernel

end Ulog
