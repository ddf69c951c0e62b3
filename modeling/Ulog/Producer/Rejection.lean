import Ulog.Producer.Acceptance
import Ulog.Producer.Credit

/-!
# Rejected publications

`TryPublishSlot` can leave early at about ten places. Until the Record is committed a call changes
four things only: the flag of its lane, the slot of the cell it has claimed, the credit of its
producer slot, and counters. Leaving clears the flag, resets the slot and returns the credit, and
once the Record is committed the call is accepted. So a call that was not accepted has left the
kernel as it was, up to where the slot's own credit is kept.

The builder and the clock are called only after the last of the early checks; a call that reaches
them is not rejected for want of a slot, of room or of credit any more.
-/

namespace Ulog

variable {conv : Charconv} {config : ValidConfig} {m m' m₀ : KernelMemory}
  {admissions : List Admission} {f f' : PublishFrame} {choice : StepChoice} {t : ℕ}

/-! ## TryPublish -/

/-- `IsLevelEnabled`. -/
def Level.isEnabled (message threshold : Level) : Bool :=
  message.toByte < Level.none.toByte && threshold.toByte ≤ Level.none.toByte &&
    threshold.toByte ≤ message.toByte

/-- `TryPublish` up to its call of `TryPublishSlot`: it returns at once when the level is filtered
or the registration belongs to another kernel. -/
def KernelMemory.tryPublish (m : KernelMemory) (threshold level : Level) (owned : Bool) :
    Option (KernelMemory × PublishResult) :=
  if !level.isEnabled threshold then some (m, { outcome := .filtered })
  else if !owned then some (m.countMissing, { outcome := .noProducerSlot })
  else none

/-! ## Before the Record is committed -/

/-- The call has not committed a Record. -/
def PublishPc.Early (pc : PublishPc) : Prop := pc.stepsLeft = none ∨ pc = .publishRecord

/-- What a call leaves alone until it commits: everything but the flag of lane `p`, the slots of
the cells in `C`, the ledger and the counters. -/
structure KernelMemory.Kept (p : ℕ) (C : ℕ → Prop) (m m' : KernelMemory) : Prop where
  controls : m'.controls = m.controls
  admissionOpen : m'.admissionOpen = m.admissionOpen
  nextAdmissionSequence : m'.nextAdmissionSequence = m.nextAdmissionSequence
  nextSequence : m'.nextSequence = m.nextSequence
  claimActive : m'.claimActive = m.claimActive
  consumedRecords : m'.consumedRecords = m.consumedRecords
  validationErrors : m'.validationErrors = m.validationErrors
  lanes : ∀ q, q ≠ p → m'.lanes q = m.lanes q
  lane : m'.lanes p = ⟨(m.lanes p).readPosition, (m.lanes p).publishedPosition,
    (m.lanes p).writePosition, (m'.lanes p).publishing⟩
  cells : ∀ i, m'.cells i = ⟨(m.cells i).envelope, (m'.cells i).slot, (m.cells i).generation,
    (m.cells i).record, (m.cells i).ownership⟩
  slots : ∀ i, ¬C i → (m'.cells i).slot = (m.cells i).slot

namespace KernelMemory.Kept

variable {p : ℕ} {C : ℕ → Prop}

theorem refl (m : KernelMemory) : Kept p C m m :=
  ⟨rfl, rfl, rfl, rfl, rfl, rfl, rfl, fun _ _ ↦ rfl, rfl, fun _ ↦ rfl, fun _ _ ↦ rfl⟩

theorem trans {m₁ m₂ m₃ : KernelMemory} (h : Kept p C m₁ m₂) (h' : Kept p C m₂ m₃) :
    Kept p C m₁ m₃ := by
  refine ⟨h'.controls.trans h.controls, h'.admissionOpen.trans h.admissionOpen,
    h'.nextAdmissionSequence.trans h.nextAdmissionSequence, h'.nextSequence.trans h.nextSequence,
    h'.claimActive.trans h.claimActive, h'.consumedRecords.trans h.consumedRecords,
    h'.validationErrors.trans h.validationErrors,
    fun q hq ↦ (h'.lanes q hq).trans (h.lanes q hq), ?_, fun i ↦ ?_,
    fun i hi ↦ (h'.slots i hi).trans (h.slots i hi)⟩
  · rw [h'.lane, h.lane]
  · rw [h'.cells i, h.cells i]

theorem of_eq {l : CreditLedger} {counters : ℕ → ProducerCounters} {missing : ℕ} :
    Kept p C m { m with ledger := l, counters := counters, missingProducers := missing } :=
  ⟨rfl, rfl, rfl, rfl, rfl, rfl, rfl, fun _ _ ↦ rfl, rfl, fun _ ↦ rfl, fun _ _ ↦ rfl⟩

theorem setPublishing (publishing : Bool) : Kept p C m (m.setPublishing p publishing) := by
  refine ⟨rfl, rfl, rfl, rfl, rfl, rfl, rfl, fun q hq ↦ Function.update_of_ne hq .., ?_,
    fun _ ↦ rfl, fun _ _ ↦ rfl⟩
  simp only [KernelMemory.setPublishing, KernelMemory.setLane, Function.update_self]

theorem setSlot {c : ℕ} (hc : C c) (slot : RecordSlot) : Kept p C m (m.setSlot c slot) := by
  refine ⟨rfl, rfl, rfl, rfl, rfl, rfl, rfl, fun _ _ ↦ rfl, rfl, fun i ↦ ?_, fun i hi ↦ ?_⟩
  · by_cases hi : i = c
    · subst hi
      simp only [KernelMemory.setSlot, KernelMemory.setCell, Function.update_self]
    · simp only [KernelMemory.setSlot, KernelMemory.setCell, Function.update_of_ne hi]
  · have hne : i ≠ c := by
      rintro rfl
      exact hi hc
    simp only [KernelMemory.setSlot, KernelMemory.setCell, Function.update_of_ne hne]

end KernelMemory.Kept

section Early

variable {C : ℕ → Prop} (hok : f.Ok conv config m admissions) (htidy : f.Tidy config m)
  (hearly : f.pc.Early) (hC : f.pc.OwnsCell → C (f.cell config))
  (hstep : publishStep conv config m f choice = some (m', f'))

include htidy hC hstep in
theorem publishStep_unwind {stages : List Unwind} {outcome : Option PublishOutcome}
    (hpc : f.pc = .unwind stages outcome) : m.Kept f.slot C m' ∧ f'.pc.Early := by
  rw [publishStep.eq_def, hpc] at hstep
  rw [PublishFrame.Tidy, hpc] at htidy
  rw [hpc] at hC
  rcases htidy with ⟨rfl, -⟩ | ⟨rfl, -⟩ | ⟨rfl, -⟩ | ⟨rfl, -⟩ | ⟨rfl, -⟩ <;> cases hstep
  · refine ⟨.refl m, .inl ?_⟩
    cases outcome with
    | none => rfl
    | some o => cases o <;> rfl
  · exact ⟨.setPublishing false, .inl rfl⟩
  · exact ⟨.of_eq, .inl rfl⟩
  · exact ⟨.of_eq, .inl rfl⟩
  · exact ⟨.setSlot (hC (List.cons_ne_nil _ _)) _, .inl rfl⟩

include hok htidy hearly hC hstep in
theorem publishStep_early :
    m.Kept f.slot C m' ∧ (f'.pc.Early ∨ f'.pc = .commit) := by
  cases hpc : f.pc with
  | publishRecord =>
    have hcell := hC (by rw [hpc]; trivial)
    rcases publishStep_publishRecord hok hpc choice with
      ⟨-, b, -, -, heq⟩ | ⟨-, b, record, -, heq⟩ <;> rw [heq] at hstep <;> cases hstep
    · exact ⟨(KernelMemory.Kept.setSlot hcell _).trans .of_eq, .inl (.inl rfl)⟩
    · exact ⟨.setSlot hcell _, .inr rfl⟩
  | commit | finishCommit | storeRecord | emplace | fetchSequence | writeEnvelope
  | publishPosition | clear =>
    rw [hpc] at hearly
    rcases hearly with h | h <;> cases h
  | finishEmplace =>
    rw [PublishFrame.Tidy, hpc] at htidy
    exact htidy.elim
  | done result =>
    rw [publishStep, hpc] at hstep
    cases hstep
  | unwind stages outcome =>
    obtain ⟨hkept, hearly'⟩ := publishStep_unwind htidy hC hstep hpc
    exact ⟨hkept, .inl hearly'⟩
  | testAndSet =>
    rw [publishStep, hpc] at hstep
    dsimp only at hstep
    split at hstep <;> cases hstep
    · exact ⟨.of_eq, .inl (.inl rfl)⟩
    · exact ⟨.setPublishing true, .inl (.inl rfl)⟩
  | clearFull =>
    rw [publishStep, hpc] at hstep
    cases hstep
    exact ⟨(KernelMemory.Kept.setPublishing false).trans .of_eq, .inl (.inl rfl)⟩
  | begin =>
    have hcell := hC (by rw [hpc]; trivial)
    rw [publishStep, hpc] at hstep
    dsimp only at hstep
    split at hstep
    · cases hstep
      exact ⟨.of_eq, .inl (.inl rfl)⟩
    · split at hstep <;> cases hstep
      · exact ⟨.setSlot hcell _, .inl (.inl rfl)⟩
      · exact ⟨(KernelMemory.Kept.setSlot hcell _).trans .of_eq, .inl (.inl rfl)⟩
  | building =>
    have hcell := hC (by rw [hpc]; trivial)
    rw [publishStep, hpc] at hstep
    dsimp only at hstep
    split at hstep <;> cases hstep
    · exact ⟨.setSlot hcell _, .inl (.inl rfl)⟩
    · exact ⟨.refl m, .inl (.inr rfl)⟩
    · exact ⟨.of_eq, .inl (.inl rfl)⟩
    · exact ⟨.of_eq, .inl (.inl rfl)⟩
  | _ =>
    rw [publishStep, hpc] at hstep
    dsimp only at hstep
    repeat' split at hstep
    all_goals cases hstep
    all_goals exact ⟨.of_eq, .inl (.inl rfl)⟩

end Early

/-! ## The calls of a builder -/

/-- The outcomes of the checks before the clock is read. -/
def PublishOutcome.IsEarly (o : PublishOutcome) : Prop :=
  o = .noProducerSlot ∨ o = .laneFull ∨ o = .budgetExhausted

/-- The call has come to the clock and the builder, and is not leaving by an early check. -/
def PublishPc.Late : PublishPc → Prop
  | .activeState | .activeGeneration | .testAndSet | .loadPositions | .clearFull | .admission
  | .recheckState | .recheckGeneration | .reserve _ => False
  | .unwind _ outcome => ∀ o, outcome = some o → ¬o.IsEarly
  | .done result => ∀ r, result = some r → ¬r.outcome.IsEarly
  | _ => True

theorem not_isEarly_invalidRecord : ¬PublishOutcome.IsEarly .invalidRecord := by
  rintro (h | h | h) <;> cases h

theorem PublishPc.Late.publishStep (h : f.pc.Late)
    (hstep : publishStep conv config m f choice = some (m', f')) : f'.pc.Late := by
  have hreject : ∀ stages, PublishPc.Late (.unwind stages (some .invalidRecord)) := by
    rintro stages o ⟨⟩
    exact not_isEarly_invalidRecord
  cases hpc : f.pc with
  | activeState | activeGeneration | testAndSet | loadPositions | clearFull | admission
  | recheckState | recheckGeneration | reserve _ =>
    rw [hpc] at h
    exact h.elim
  | unwind stages outcome =>
    rw [hpc] at h
    rw [Ulog.publishStep.eq_def, hpc] at hstep
    cases stages with
    | nil =>
      cases hstep
      rintro r hr
      obtain ⟨o, rfl, rfl⟩ := Option.map_eq_some_iff.mp hr
      exact h o rfl
    | cons stage stages =>
      cases hstep
      exact h
  | clear =>
    rw [Ulog.publishStep, hpc] at hstep
    cases hstep
    rintro r ⟨⟩ (h | h | h) <;> cases h
  | done result =>
    rw [Ulog.publishStep, hpc] at hstep
    cases hstep
  | building =>
    rw [hpc] at h
    rw [Ulog.publishStep, hpc] at hstep
    dsimp only at hstep
    split at hstep <;> cases hstep
    · exact h
    · trivial
    · exact hreject _
    · rintro o ⟨⟩
  | _ =>
    rw [Ulog.publishStep, hpc] at hstep
    dsimp only at hstep
    repeat' split at hstep
    all_goals cases hstep
    all_goals first | trivial | exact hreject _

/-! ## A call alone -/

/-- The cell that a publication on this lane claims: the one at the write position, if the lane is
not full. -/
def KernelMemory.Claimable (config : ValidConfig) (m : KernelMemory) (p i : ℕ) : Prop :=
  (m.lanes p).writePosition - (m.lanes p).readPosition < config.laneCapacity p ∧
    i = config.cellIndex p (m.lanes p).writePosition

theorem PublishFrame.Ok.claimed (hok : f.Ok conv config m admissions) (hearly : f.pc.Early)
    (howns : f.pc.OwnsCell) : f.Claimed config m := by
  unfold Ok at hok
  cases hpc : f.pc with
  | activeState | activeGeneration | testAndSet | loadPositions | clearFull | clear | done _ =>
    rw [hpc] at howns
    exact howns.elim
  | admission | recheckState | recheckGeneration | reserve _ | begin =>
    rw [hpc] at hok
    exact hok
  | building | publishRecord | finishEmplace =>
    rw [hpc] at hok
    exact hok.1
  | unwind stages _ =>
    rw [hpc] at hok howns
    exact (hok.resolve_left howns).1
  | _ =>
    rw [hpc] at hearly
    rcases hearly with h | h <;> cases h

/-- What a call has changed since it started in `m₀`, while nobody else moved. -/
structure PublishFrame.Alone (config : ValidConfig) (m₀ m : KernelMemory) (f : PublishFrame) :
    Prop where
  early : f.pc.Early
  kept : m₀.Kept f.slot (m₀.Claimable config f.slot) m
  held : f.pc.Holds → (m₀.lanes f.slot).publishing = false
  released : ¬f.pc.Holds → (m.lanes f.slot).publishing = (m₀.lanes f.slot).publishing
  move : SlotMove f.slot m₀.ledger m.ledger
  credit : Balanced (m₀.ledger.available f.slot) (m.ledger.available f.slot + f.hand)
  logical : (m.ledger.slots f.slot).logicalCharge
    ≡ (m₀.ledger.slots f.slot).logicalCharge + f.handLogical [MOD wordModulus]
  reserving : ∀ call, f.pc = .reserve call →
    call.pc.Ok (m.ledger.slots f.slot).localCredit call.chargeBytes

namespace PublishFrame.Alone

theorem claimable (h : f.Alone config m₀ m) (hok : f.Ok conv config m admissions)
    (howns : f.pc.OwnsCell) : m₀.Claimable config f.slot (f.cell config) := by
  obtain ⟨-, hwrite, -, hroom⟩ := hok.claimed h.early howns
  have hpos := config.laneCapacity_pos f.slot
  rw [h.kept.lane] at hwrite hroom
  dsimp only at hwrite hroom
  refine ⟨by omega, ?_⟩
  rw [cell, ← hwrite]

/-- The call makes a step: it is still alone, or it has committed its Record. -/
theorem step (h : f.Alone config m₀ m) (hok : f.Ok conv config m admissions)
    (htidy : f.Tidy config m) (hfits : m.ledger.Fits config)
    (hon : f.OnLane config m admissions)
    (hstep : publishStep conv config m f choice = some (m', f')) :
    f'.Alone config m₀ m' ∨ f'.pc = .commit := by
  obtain ⟨hkept, hnext⟩ := publishStep_early hok htidy h.early (h.claimable hok) hstep
  obtain ⟨_, e⟩ := publishEffect hok hon hstep
  have hearly := h.early
  have hcredit := publishCredit hok htidy hfits h.reserving hstep (by
    rintro hpc
    rw [hpc] at hearly
    rcases hearly with h | h <;> cases h)
  refine hnext.imp_left fun hearly' ↦ ?_
  refine { early := hearly', kept := ?_, held := ?_, released := ?_, move := ?_, credit := ?_,
           logical := ?_, reserving := ?_ } <;> rw [e.slot]
  · exact h.kept.trans hkept
  · intro hholds'
    by_cases hholds : f.pc.Holds
    · exact h.held hholds
    · exact (h.released hholds).symm.trans (e.acquire hholds hholds')
  · intro hnot
    by_cases hholds : f.pc.Holds
    · rw [publishStep_release hok hholds hnot hstep, h.held hholds]
    · rw [e.idle hholds hnot, h.released hholds]
  · exact ⟨hcredit.move.capacityBytes.trans h.move.capacityBytes,
      hcredit.move.producerCount.trans h.move.producerCount,
      fun i hi ↦ (hcredit.move.slots i hi).trans (h.move.slots i hi)⟩
  · exact h.credit.trans hcredit.credit
  · have hsum := hcredit.logical.trans (h.logical.add_right f'.handLogical)
    rw [Nat.add_right_comm] at hsum
    exact Nat.ModEq.add_right_cancel' _ hsum
  · exact hcredit.reserving

theorem start (hpc : f.pc = .activeState) (hempty : f.Empty) : f.Alone config m m := by
  obtain ⟨hhand, hlogical⟩ := hempty.hand (by rw [hpc]; rfl)
  refine ⟨.inl (by rw [hpc]; rfl), .refl m, fun hholds ↦ ?_, fun _ ↦ rfl,
    CreditLedger.slotMove_refl .., .of_eq (by rw [hhand]; rfl), by rw [hlogical]; rfl,
    fun call hcall ↦ ?_⟩
  · rw [hpc] at hholds
    exact hholds.elim
  · cases hpc.symm.trans hcall

end PublishFrame.Alone

/-! ## Whole calls -/

/-- The memory after a call on lane `p` that was not accepted. -/
structure KernelMemory.Restored (config : ValidConfig) (p : ℕ) (m m' : KernelMemory) : Prop
    extends Kept p (m.Claimable config p) m m' where
  publishing : (m'.lanes p).publishing = (m.lanes p).publishing
  claimed : ∀ i, m.Claimable config p i → (m'.cells i).slot.state = .reset
  otherSlots : ∀ q, q ≠ p → m'.ledger.slots q = m.ledger.slots q
  logicalCharge : ∀ q, (m'.ledger.slots q).logicalCharge = (m.ledger.slots q).logicalCharge
  credit : Balanced (m.ledger.available p) (m'.ledger.available p)

namespace Kernel

variable {k k' : Kernel}

/-- Without a call in progress, the cell at the write position of a lane is free. -/
theorem claimable_free (hk : (machine conv config).Reachable k)
    (hcalls : ∀ t f, k.calls t = .publish f → ¬f.pc.Holds) {p i : ℕ}
    (hi : k.memory.Claimable config p i) : (k.memory.cells i).Free := by
  have hinv : k.Inv conv config := Inv.of_reach hk
  obtain ⟨hroom, rfl⟩ := hi
  have hlane := hinv.lanes p
  have hflag : (k.memory.lanes p).publishing = false := by
    by_contra hset
    obtain ⟨t, f, hf, hholds, -⟩ := FlagsHeld.of_reach hk p (by simpa using hset)
    exact hcalls t f hf hholds
  have hwrite := hlane.write hflag
  have hread := hlane.read
  refine ((Tidy.of_reach hk).free p _ hwrite.ge (by omega)).resolve_left ?_
  rintro ⟨t, f, hf, howns, -⟩
  exact hcalls t f hf howns.holds

/-- The call of thread `t` has kept the memory, or will be accepted. -/
def Undecided (conv : Charconv) (config : ValidConfig) (m₀ : KernelMemory) (p t : ℕ) (k : Kernel) :
    Prop :=
  (machine conv config).Reachable k ∧ ∃ f, k.calls t = .publish f ∧ f.slot = p ∧
    (f.Alone config m₀ k.memory ∨ ∃ n, f.pc.stepsLeft = some n ∧ f.pc ≠ .publishRecord)

theorem Undecided.entry (hk : (machine conv config).Reachable k) (hidle : k.calls t = .idle)
    {slot generation : ℕ} {level : Level} {source : SourceLocation} {hasOperation : Bool}
    (hstep : k.step conv config (.publish t slot generation level source hasOperation) =
      some k') : k'.Undecided conv config k.memory slot t := by
  refine ⟨.step (a := .publish t slot generation level source hasOperation) hk trivial hstep, ?_⟩
  rw [step, start, hidle] at hstep
  cases hstep
  exact ⟨_, Function.update_self .., rfl, .inl (.start rfl ⟨rfl, rfl⟩)⟩

theorem Undecided.step {p : ℕ} (h : k.Undecided conv config m₀ p t)
    (hstep : k.step conv config (.advance t choice) = some k') :
    k'.Undecided conv config m₀ p t := by
  obtain ⟨hk, f, hf, hslot, hcase⟩ := h
  have hinv : k.Inv conv config := Inv.of_reach hk
  have hok := hinv.frames t f hf
  have htidy := (Tidy.of_reach hk).frames t f hf
  refine ⟨.step (a := .advance t choice) hk trivial hstep, ?_⟩
  obtain ⟨m', f', hcall, rfl⟩ := advance_publish hf hstep
  obtain ⟨_, e⟩ := hinv.stepEffect hf hcall
  refine ⟨f', Function.update_self .., e.slot.trans hslot, ?_⟩
  rcases hcase with halone | ⟨n, hleft, hnot⟩
  · refine (halone.step hok htidy (fits_of_reach hk) (hinv.onLane hf) hcall).imp_right fun hpc ↦ ?_
    rw [hpc]
    exact ⟨8, rfl, nofun⟩
  · -- a committed call only comes nearer to its end
    cases n with
    | zero =>
      obtain ⟨s, truncated, hpc⟩ := PublishPc.stepsLeft_eq_zero hleft
      rw [publishStep, hpc] at hcall
      cases hcall
    | succ n =>
      obtain ⟨m₁, f₁, hcall', hleft', hnot'⟩ :=
        stepsLeft_publishStep hok htidy (fun hpc ↦ absurd hpc hnot) hleft choice
      cases hcall.symm.trans hcall'
      exact .inr ⟨n, hleft', hnot'⟩

theorem Undecided.run {p : ℕ} (h : k.Undecided conv config m₀ p t) {choices : List StepChoice}
    (hrun : (machine conv config).run (fun _ _ ↦ True) k (choices.map (.advance t)) = some k') :
    k'.Undecided conv config m₀ p t := by
  induction choices generalizing k with
  | nil =>
    cases hrun
    exact h
  | cons choice choices ih =>
    rw [List.map_cons, Machine.run, if_pos trivial] at hrun
    obtain ⟨k₁, hstep, hrest⟩ := Option.bind_eq_some_iff.mp hrun
    exact ih (h.step hstep) hrest

/-- A call that has come to the builder is not rejected by an early check. -/
theorem late_of_run {g : PublishFrame} (hg : k.calls t = .publish g) (hlate : g.pc.Late)
    {choices : List StepChoice}
    (hrun : (machine conv config).run (fun _ _ ↦ True) k (choices.map (.advance t)) = some k') :
    ∃ f, k'.calls t = .publish f ∧ f.pc.Late := by
  induction choices generalizing k g with
  | nil =>
    cases hrun
    exact ⟨g, hg, hlate⟩
  | cons choice choices ih =>
    rw [List.map_cons, Machine.run, if_pos trivial] at hrun
    obtain ⟨k₁, hstep, hrest⟩ := Option.bind_eq_some_iff.mp hrun
    obtain ⟨m', g', hcall, rfl⟩ := advance_publish hg hstep
    exact ih (Function.update_self ..) (hlate.publishStep hcall) hrest

/-- The run of one `TryPublishSlot` call, up to its return. -/
def callPublish (t slot generation : ℕ) (level : Level) (source : SourceLocation)
    (hasOperation : Bool) (choices : List StepChoice) : List KernelAction :=
  .publish t slot generation level source hasOperation :: choices.map (.advance t)

/-- A call that returns without being accepted has left the memory as it was. -/
theorem restored_of_undecided {p : ℕ} (hk : k.Undecided conv config m₀ p t)
    (hcalls : ∀ t f, k.calls t = .publish f → ¬f.pc.Holds) (hf : k.calls t = .publish f)
    {result : Option PublishResult} (hpc : f.pc = .done result)
    (hrejected : ∀ r, result = some r → r.outcome ≠ .accepted)
    (hlogical : ∀ q, (m₀.ledger.slots q).logicalCharge < wordModulus) :
    m₀.Restored config p k.memory := by
  obtain ⟨hreach, g, hg, rfl, hcase⟩ := hk
  cases hf.symm.trans hg
  have halone : f.Alone config m₀ k.memory := by
    refine hcase.resolve_right ?_
    rintro ⟨n, hleft, -⟩
    rw [hpc] at hleft
    rcases result with _ | ⟨outcome, _ | s, truncated⟩
    · cases hleft
    · cases outcome <;> cases hleft
    · cases outcome with
      | accepted => exact hrejected _ rfl rfl
      | _ => cases hleft
  have hempty : f.Empty := by
    have htidy := (Tidy.of_reach hreach).frames t f hf
    rw [PublishFrame.Tidy, hpc] at htidy
    exact htidy
  obtain ⟨hhand, hbytes⟩ := hempty.hand (by rw [hpc]; rfl)
  refine ⟨halone.kept, halone.released (by rw [hpc]; exact id), fun i hi ↦ ?_, halone.move.slots,
    fun q ↦ ?_, ?_⟩
  · -- the write position is where it was, and nobody owns its cell
    refine (claimable_free hreach hcalls (p := f.slot) ?_).state
    rw [KernelMemory.Claimable, halone.kept.lane]
    exact hi
  · by_cases hq : q = f.slot
    · have hmod := halone.logical
      rw [hbytes, Nat.add_zero] at hmod
      rw [hq]
      exact hmod.eq_of_lt_of_lt ((fits_of_reach hreach).logical_lt _) (hlogical _)
    · rw [halone.move.slots q hq]
  · have hcredit := halone.credit
    rwa [hhand, Nat.add_zero] at hcredit

/-- While one thread moves, the others stay where they are. -/
theorem calls_of_run {actions : List KernelAction}
    (hrun : (machine conv config).run (fun _ _ ↦ True) k actions = some k')
    (hactions : ∀ a ∈ actions, a.thread = some t) {t' : ℕ} (ht' : t' ≠ t) :
    k'.calls t' = k.calls t' := by
  induction actions generalizing k with
  | nil =>
    cases hrun
    rfl
  | cons action actions ih =>
    rw [Machine.run, if_pos trivial] at hrun
    obtain ⟨k₁, hstep, hrest⟩ := Option.bind_eq_some_iff.mp hrun
    rw [ih hrest fun a ha ↦ hactions a (List.mem_cons_of_mem _ ha)]
    refine (Move.of_step hstep).calls_of_ne ?_
    rw [hactions action (List.mem_cons_self ..)]
    exact fun heq ↦ ht' (Option.some_inj.mp heq).symm

/-- A `TryPublish` call that is made while no other call is in progress and is not accepted leaves
the kernel as it was; for the early outcomes it has come neither to the clock nor to the builder. -/
theorem rejected_publication_restores (conv : Charconv) (config : ValidConfig)
    (hk : (machine conv config).Reachable k) (hidle : ∀ t, k.calls t = .idle) :
    (∀ threshold level owned m' result,
      k.memory.tryPublish threshold level owned = some (m', result) →
      result.outcome ≠ .accepted ∧ ∀ p, k.memory.Restored config p m') ∧
    ∀ t slot generation level source hasOperation choices k₁ f result k₂,
      (machine conv config).run (fun _ _ ↦ True) k
        (callPublish t slot generation level source hasOperation choices) = some k₁ →
      k₁.calls t = .publish f → f.pc = .done result →
      (∀ r, result = some r → r.outcome ≠ .accepted) →
      k₁.step conv config (.return t) = some k₂ →
      k.memory.Restored config slot k₂.memory ∧ (∀ t, k₂.calls t = .idle) ∧
        ∀ r, result = some r → r.outcome.IsEarly → ∀ before after k' g,
          choices = before ++ after →
          (machine conv config).run (fun _ _ ↦ True) k
            (callPublish t slot generation level source hasOperation before) = some k' →
          k'.calls t = .publish g → g.pc ≠ .begin ∧ g.pc ≠ .building := by
  have hnotHolds : ∀ t f, k.calls t = .publish f → ¬f.pc.Holds := fun t f hf ↦
    nomatch (hidle t).symm.trans hf
  constructor
  · intro threshold level owned m' result htry
    have hsame : ∀ {p : ℕ} {m' : KernelMemory}, k.memory.Kept p (k.memory.Claimable config p) m' →
        m'.lanes = k.memory.lanes → m'.cells = k.memory.cells → m'.ledger = k.memory.ledger →
        k.memory.Restored config p m' := by
      intro p m' hkept hlanes hcells hledger
      refine ⟨hkept, by rw [hlanes], fun i hi ↦ ?_, fun q _ ↦ by rw [hledger],
        fun q ↦ by rw [hledger], .of_eq (by rw [hledger])⟩
      rw [hcells]
      exact (claimable_free hk hnotHolds hi).state
    rw [KernelMemory.tryPublish] at htry
    split_ifs at htry <;> cases htry
    · exact ⟨nofun, fun p ↦ hsame (.refl _) rfl rfl rfl⟩
    · exact ⟨nofun, fun p ↦ hsame .of_eq rfl rfl rfl⟩
  · intro t slot generation level source hasOperation choices k₁ f result k₂ hrun hf hpc hrejected
      hreturn
    have hothers : ∀ t', t' ≠ t → k₁.calls t' = .idle := by
      intro t' ht'
      refine (calls_of_run hrun (fun a ha ↦ ?_) ht').trans (hidle t')
      rcases List.mem_cons.mp ha with rfl | ha
      · rfl
      · obtain ⟨choice, -, rfl⟩ := List.mem_map.mp ha
        rfl
    have hcalls : ∀ t' g, k₁.calls t' = .publish g → ¬g.pc.Holds := by
      intro t' g hg
      by_cases ht' : t' = t
      · subst ht'
        cases hf.symm.trans hg
        rw [hpc]
        exact id
      · cases (hothers t' ht').symm.trans hg
    have hundecided : k₁.Undecided conv config k.memory slot t := by
      rw [callPublish, Machine.run, if_pos trivial] at hrun
      obtain ⟨k₀, hstep, hrest⟩ := Option.bind_eq_some_iff.mp hrun
      exact (Undecided.entry hk (hidle t) hstep).run hrest
    have hmemory₂ : k₂.memory = k₁.memory ∧ ∀ t, k₂.calls t = .idle := by
      rw [step, finish, hf] at hreturn
      dsimp only at hreturn
      rw [hpc] at hreturn
      cases hreturn
      refine ⟨rfl, fun t' ↦ ?_⟩
      by_cases ht' : t' = t
      · subst ht'
        exact Function.update_self ..
      · exact (Function.update_of_ne ht' ..).trans (hothers t' ht')
    refine ⟨?_, hmemory₂.2, ?_⟩
    · rw [hmemory₂.1]
      exact restored_of_undecided hundecided hcalls hf hpc hrejected (fits_of_reach hk).logical_lt
    · -- a call that is in the builder leaves with no early outcome
      rintro r rfl hearly before after k' g rfl hrun' hg
      have hafter : (machine conv config).run (fun _ _ ↦ True) k' (after.map (.advance t)) =
          some k₁ := by
        rw [callPublish, List.map_append, ← List.cons_append, Machine.run_append] at hrun
        obtain ⟨k'', hbefore, hafter⟩ := Option.bind_eq_some_iff.mp hrun
        cases hrun'.symm.trans hbefore
        exact hafter
      have hnot : ¬g.pc.Late := by
        intro hlate
        obtain ⟨f', hf', hlate'⟩ := late_of_run hg hlate hafter
        cases hf.symm.trans hf'
        rw [hpc] at hlate'
        exact hlate' r rfl hearly
      constructor <;> intro hbuilder <;> rw [hbuilder] at hnot <;> exact hnot trivial

/-- The builder of this thread's publication has thrown, and the call is over. -/
def threw (k : Kernel) (t : ℕ) : Bool :=
  match k.calls t with
  | .publish ⟨_, _, _, _, _, .done none, _, _, _, _, _, _, _, _, _, _⟩ => true
  | _ => false

theorem exists_of_threw (h : k.threw t = true) :
    ∃ f, k.calls t = .publish f ∧ f.pc = .done none := by
  rw [threw] at h
  split at h
  · next hf => exact ⟨_, hf, rfl⟩
  · cases h

/-- A registered thread publishes, and its builder throws after it has written a part of the
message. -/
theorem rejected_publication_restores_thrown :
    ∃ k k₁ k₂ : Kernel, (machine .blank .singleCell).Reachable k ∧
      (∀ t, k.calls t = .idle) ∧ k₁.threw 1 = true ∧
      k₁.step .blank .singleCell (.return 1) = some k₂ ∧
      k.memory.Restored .singleCell 0 k₂.memory := by
  let choices : List StepChoice := List.flatten [List.replicate 15 {},
    [{ build := .call (.append (.text [0x2e])) }, { build := .finish .thrown }],
    List.replicate 5 {}]
  let actions := callPublish 1 0 1 .info ⟨[0x61], [0x62], 7, 9⟩ true choices
  let registering : List KernelAction := List.flatten [[.register 1], advances 1 4, [.return 1]]
  have hrun : ((machine .blank .singleCell).run (fun _ _ ↦ True)
      (init .singleCell) registering).any (fun k ↦ k.isIdle 1 &&
        ((machine .blank .singleCell).run (fun _ _ ↦ True) k
          actions).any fun k₁ ↦ k₁.threw 1 &&
            (k₁.step .blank .singleCell (.return 1)).isSome) = true := by
    decide +kernel
  obtain ⟨k, hk, htest⟩ := (Option.any_eq_true _ _).mp hrun
  rw [Bool.and_eq_true, Option.any_eq_true] at htest
  obtain ⟨hcall, k₁, hrun₁, htest₁⟩ := htest
  rw [Bool.and_eq_true, Option.isSome_iff_exists] at htest₁
  obtain ⟨hthrew, k₂, hreturn⟩ := htest₁
  obtain ⟨f, hf, hpc⟩ := exists_of_threw hthrew
  have hreach := Machine.Reach.init.of_run hk
  have hidle : ∀ t, k.calls t = .idle := by
    intro t
    by_cases ht : t = 1
    · rw [ht]
      exact calls_of_isIdle hcall
    · exact (calls_of_run hk (by simp [registering, advances, KernelAction.thread]) ht)
  exact ⟨k, k₁, k₂, hreach, hidle, hthrew, hreturn,
    ((rejected_publication_restores _ _ hreach hidle).2 1 0 1 .info _ true choices k₁ f
      none k₂ hrun₁ hf hpc (by decide) hreturn).1⟩

end Kernel

end Ulog
