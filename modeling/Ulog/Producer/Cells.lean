import Ulog.Producer.Consuming
import Ulog.Record.Extent

/-!
# The cells between two Records

A cell outside the window of its lane holds nothing: its slot is reset, and there is neither a
Record nor an ownership beside it. The publication that owns the cell fills it step by step;
`Tidy` says, for each program counter, what is in the cell and which handle the call has in hand.
The consumer empties the cells again before it reads on.

Two rejections of `TryPublishSlot` are never taken because of this: the committed ownership always
fits the Record, and the handle of a stored Record is always valid.
-/

namespace Ulog

variable {conv : Charconv} {config : ValidConfig} {m m' : KernelMemory}
  {admissions admissions' : List Admission} {f f' : PublishFrame} {choice : StepChoice}

/-! ## The configured bound -/

namespace ValidConfig

variable {pc' : ConsumePc}

theorem maximumRecordBytes_bounds : 128 ≤ config.maximumRecordBytes ∧
    config.maximumRecordBytes ≤ Ulog.maximumRecordBytes ∧
    config.maximumRecordBytes % accountingQuantumBytes = 0 ∧
    config.maximumRecordBytes ≤ config.payloadCapacityBytes := by
  have hvalid := config.valid
  unfold validateConfiguration at hvalid
  split at hvalid
  · cases hvalid
  split at hvalid
  · cases hvalid
  next hrecord =>
  split at hvalid
  · cases hvalid
  next hpayload => omega

/-- A whole Record is charged as it is: the bound is a multiple of the quantum. -/
theorem accountingCharge_maximumRecordBytes :
    accountingCharge config.maximumRecordBytes = config.maximumRecordBytes := by
  obtain ⟨hmin, hmax, hquantum, -⟩ := config.maximumRecordBytes_bounds
  obtain ⟨-, hle, hge⟩ := accountingCharge_le hquantum (by omega) hmax le_rfl
  exact Nat.le_antisymm hge hle

end ValidConfig

/-- A published Record takes at least its header and at most the configured bound. -/
theorem Admission.Builds.sized {a : Admission} {slot : RecordSlot} {record : StoredRecord}
    (h : a.Builds conv config slot record) :
    slot.state = .published ∧ ∃ bytes, serializedRecordMetadataBytes ≤ bytes ∧
      record.Sized config.maximumRecordBytes bytes := by
  obtain ⟨-, -, hquantum, -⟩ := config.maximumRecordBytes_bounds
  obtain ⟨started, finished, hbegin, hpublish, rfl⟩ := h
  obtain ⟨msg, hbuilding, happending⟩ := building_calls conv a.calls (building_of_begin hbegin)
    (appending_of_begin hbegin)
  have hfits : (started.calls conv a.calls).MarkFits := by
    by_contra hnot
    cases hpublish.symm.trans (hbuilding.publish_of_not_markFits hnot)
  obtain ⟨b', record', hpublish', hpublished⟩ := hbuilding.publish_of_markFits
    ((counted_of_begin hbegin).calls conv a.calls) happending hquantum hfits
  cases hpublish.symm.trans hpublish'
  obtain ⟨message, -, -, -, hsized⟩ := hpublished.reads
  refine ⟨?_, _, ?_, hsized⟩
  · obtain ⟨-, -, hstate, -⟩ := hbuilding.publish happending hpublish
    exact hstate
  · rw [RecordContent.serializedBytes, messageStart]
    omega

/-! ## What a call has in hand -/

/-- The cell has neither a Record nor an ownership, and its slot is in this state. -/
structure KernelCell.Bare (state : SlotState) (c : KernelCell) : Prop where
  state : c.slot.state = state
  record : c.record = none
  ownership : c.ownership = .empty

/-- The cell holds nothing. -/
def KernelCell.Free (c : KernelCell) : Prop := c.Bare .reset

/-- An ownership of one Record of a lane. -/
def Handle.OwnsRecord (config : ValidConfig) (p : ℕ) (h : Handle) : Prop :=
  ∃ retained ≤ config.maximumRecordBytes, h = .ownership p retained (accountingCharge retained)

namespace PublishFrame

/-- The call has a reservation for a whole Record. -/
def Reserves (config : ValidConfig) (f : PublishFrame) : Prop :=
  f.reservation = .reservation f.slot config.maximumRecordBytes config.maximumRecordBytes ∧
    f.ownership = .empty

/-- The call has neither a reservation nor an ownership. -/
def Empty (f : PublishFrame) : Prop := f.reservation = .empty ∧ f.ownership = .empty

/-- The call has not begun a Record yet. -/
def Fresh (f : PublishFrame) : Prop := f.Empty ∧ f.writer.attached = false

/-- The ownership of the call's own Record. -/
def recordOwnership (f : PublishFrame) : Handle :=
  .ownership f.slot f.record.serializedBytes (accountingCharge f.record.serializedBytes)

/-- What is in the call's cell and in its hands. -/
def Tidy (config : ValidConfig) (m : KernelMemory) (f : PublishFrame) : Prop :=
  match f.pc with
  | .activeState | .activeGeneration | .testAndSet | .loadPositions | .clearFull => f.Fresh
  | .admission | .recheckState | .recheckGeneration =>
    (m.cells (f.cell config)).Free ∧ f.Fresh
  | .reserve call =>
    (m.cells (f.cell config)).Free ∧ f.Fresh ∧ call.producer = f.slot ∧
      call.worstCaseBytes = config.maximumRecordBytes ∧
      call.chargeBytes = config.maximumRecordBytes
  | .begin => (m.cells (f.cell config)).Free ∧ f.writer.attached = false ∧ f.Reserves config
  | .building | .publishRecord =>
    (m.cells (f.cell config)).Bare .building ∧ f.writer.attached = true ∧ f.Reserves config
  | .commit => (m.cells (f.cell config)).Bare .published ∧ f.Reserves config
  | .finishCommit =>
    (m.cells (f.cell config)).Bare .published ∧ f.ownership = .empty ∧
      f.reservation = .committing f.slot config.maximumRecordBytes f.record.serializedBytes
        (accountingCharge f.record.serializedBytes)
  | .storeRecord =>
    (m.cells (f.cell config)).Bare .published ∧ f.reservation = .empty ∧
      f.ownership = f.recordOwnership
  | .emplace =>
    (m.cells (f.cell config)).ownership = .empty ∧ f.reservation = .empty ∧
      f.ownership = f.recordOwnership
  | .finishEmplace => False
  | .fetchSequence | .writeEnvelope | .publishPosition =>
    (m.cells (f.cell config)).ownership = f.recordOwnership ∧ f.Empty
  | .unwind stages _ =>
    stages = [] ∧ f.Empty ∨
    stages = [.clear] ∧ (m.cells (f.cell config)).Free ∧ f.Empty ∨
    stages = [.finishReservation, .clear] ∧ (m.cells (f.cell config)).Free ∧
      f.ownership = .empty ∧ f.reservation = .releasing f.slot config.maximumRecordBytes ∨
    stages = [.dropReservation, .finishReservation, .clear] ∧
      (m.cells (f.cell config)).Free ∧ f.Reserves config ∨
    stages = dropAll ∧ f.Reserves config ∧
      (m.cells (f.cell config)).Bare (if f.writer.attached then .building else .reset)
  | .clear | .done _ => f.Empty

theorem Tidy.congr (h : f.Tidy config m)
    (hcell : f.pc.OwnsCell → m'.cells (f.cell config) = m.cells (f.cell config)) :
    f.Tidy config m' := by
  unfold Tidy at h ⊢
  revert h hcell
  cases f.pc with
  | activeState | activeGeneration | testAndSet | loadPositions | clearFull | clear
  | finishEmplace | done _ => exact fun h _ ↦ h
  | unwind stages _ =>
    intro h hcell
    rcases h with h | h
    · exact .inl h
    · refine .inr ?_
      rw [hcell]
      · exact h
      · rcases h with ⟨rfl, -⟩ | ⟨rfl, -⟩ | ⟨rfl, -⟩ | ⟨rfl, -⟩ <;> exact List.cons_ne_nil _ _
  | _ =>
    intro h hcell
    rw [hcell trivial]
    exact h

end PublishFrame

/-! ## The steps of a publication -/

/-- While the builder runs, the slot is open and the writer attached. -/
theorem PublishFrame.Building.attached (h : f.Building conv config m) :
    (m.cells (f.cell config)).slot.state = .building ∧ f.writer.attached = true := by
  obtain ⟨started, hbegin, hbuild⟩ := h
  obtain ⟨msg, hbuilding, -⟩ := building_calls conv f.calls (building_of_begin hbegin)
    (appending_of_begin hbegin)
  rw [← hbuild] at hbuilding
  exact ⟨hbuilding.state, hbuilding.attached⟩

/-- The build that `Publish` closes. -/
def PublishFrame.build (config : ValidConfig) (m : KernelMemory) (f : PublishFrame) : RecordBuild :=
  ⟨(m.cells (f.cell config)).slot, f.writer⟩

/-- `Publish` succeeds exactly when the truncation mark fits, and its Record is never too large. -/
theorem publishStep_publishRecord (hok : f.Ok conv config m admissions)
    (hpc : f.pc = .publishRecord) (choice : StepChoice) :
    (¬(f.build config m).MarkFits ∧
      ∃ b : RecordBuild, b.slot.state = .reset ∧ b.writer.attached = false ∧
      publishStep conv config m f choice = some (rejectInvalid (m.setSlot (f.cell config) b.slot)
        { f with writer := b.writer } dropAll)) ∨
    ((f.build config m).MarkFits ∧
      ∃ (b : RecordBuild) (record : StoredRecord), b.slot.state = .published ∧
      publishStep conv config m f choice = some (m.setSlot (f.cell config) b.slot,
        { f with writer := b.writer, record := record, pc := .commit })) := by
  rw [PublishFrame.Ok, hpc] at hok
  obtain ⟨-, started, hbegin, hbuild⟩ := hok
  obtain ⟨-, -, hquantum, -⟩ := config.maximumRecordBytes_bounds
  obtain ⟨msg, hbuilding, happending⟩ := building_calls conv f.calls (building_of_begin hbegin)
    (appending_of_begin hbegin)
  have hcounted := (counted_of_begin hbegin).calls conv f.calls
  rw [← hbuild] at hbuilding happending hcounted
  rw [publishStep, hpc, PublishFrame.build]
  dsimp only
  by_cases hfits : RecordBuild.MarkFits ⟨(m.cells (f.cell config)).slot, f.writer⟩
  · obtain ⟨b, record, hpublish, -⟩ :=
      hbuilding.publish_of_markFits hcounted happending hquantum hfits
    have hbuilds : f.admission.Builds conv config b.slot record := by
      refine ⟨started, b, hbegin, ?_, rfl⟩
      rw [← hpublish, hbuild]
      rfl
    obtain ⟨hstate, bytes, -, hsized⟩ := hbuilds.sized
    have hcharge := hsized.charge_le
    have hserialized := hsized.serialized_le
    have heq := hsized.serialized
    refine .inr ⟨hfits, b, record, hstate, ?_⟩
    rw [hpublish]
    dsimp only
    rw [if_neg (by omega)]
  · have hpublish := hbuilding.publish_of_not_markFits hfits
    obtain ⟨hreset, hdetached⟩ := hbuilding.abandon_publish hcounted happending hquantum hpublish
    refine .inl ⟨hfits, _, hreset, hdetached, ?_⟩
    rw [hpublish]

/-- What a step of `TryPublishSlot` does to its cell. -/
structure PublishTidy (config : ValidConfig) (m m' : KernelMemory) (f f' : PublishFrame) :
    Prop where
  tidy : f'.Tidy config m'
  leave : f.pc.OwnsCell → ¬f'.pc.OwnsCell →
    f.pc = .publishPosition ∨ (m'.cells (f.cell config)).Free

section Steps

variable (hok : f.Ok conv config m admissions) (htidy : f.Tidy config m)
  (hfree : f.pc = .loadPositions →
    ¬config.laneCapacity f.slot ≤
      (m.lanes f.slot).writePosition - (m.lanes f.slot).readPosition →
    (m.cells (config.cellIndex f.slot (m.lanes f.slot).writePosition)).Free)
  (hstep : publishStep conv config m f choice = some (m', f'))

theorem PublishTidy.outside (hfresh : f'.Fresh) (hnot : ¬f.pc.OwnsCell)
    (hpc : f'.pc = .activeGeneration ∨ f'.pc = .testAndSet ∨ f'.pc = .loadPositions ∨
      f'.pc = .clearFull ∨ ∃ result, f'.pc = .done result) : PublishTidy config m m' f f' := by
  refine ⟨?_, fun howns ↦ absurd howns hnot⟩
  unfold PublishFrame.Tidy
  rcases hpc with hpc | hpc | hpc | hpc | ⟨result, hpc⟩ <;> rw [hpc]
  all_goals first | exact hfresh | exact hfresh.1

theorem PublishTidy.inside (htidy : f'.Tidy config m') (howns : f'.pc.OwnsCell) :
    PublishTidy config m m' f f' := ⟨htidy, fun _ hnot ↦ absurd howns hnot⟩

/-- The call leaves an empty cell with empty hands. -/
theorem PublishTidy.reject (hcell : (m.cells (f.cell config)).Free) (hfresh : f.Fresh)
    (hcells : m'.cells = m.cells) {outcome : PublishOutcome} :
    PublishTidy config m m' f (f.reject [.clear] outcome) := by
  rw [← hcells] at hcell
  exact .inside (.inr (.inl ⟨rfl, hcell, hfresh.1⟩)) (List.cons_ne_nil _ _)

include htidy hfree hstep

theorem publishTidy_enter
    (hpc : f.pc = .activeState ∨ f.pc = .activeGeneration ∨ f.pc = .testAndSet ∨
      f.pc = .loadPositions ∨ f.pc = .clearFull) : PublishTidy config m m' f f' := by
  have hnot : ¬f.pc.OwnsCell := by
    rcases hpc with hpc | hpc | hpc | hpc | hpc <;> rw [hpc] <;> exact id
  have hfresh : f.Fresh := by
    unfold PublishFrame.Tidy at htidy
    rcases hpc with hpc | hpc | hpc | hpc | hpc <;> rw [hpc] at htidy <;> exact htidy
  rcases hpc with hpc | hpc | hpc | hpc | hpc <;> rw [publishStep, hpc] at hstep <;>
    dsimp only at hstep
  · split at hstep <;> cases hstep
    · exact .outside hfresh hnot (.inl rfl)
    · exact .outside hfresh hnot (.inr (.inr (.inr (.inr ⟨_, rfl⟩))))
  · split at hstep <;> cases hstep
    · exact .outside hfresh hnot (.inr (.inl rfl))
    · exact .outside hfresh hnot (.inr (.inr (.inr (.inr ⟨_, rfl⟩))))
  · split at hstep <;> cases hstep
    · exact .outside hfresh hnot (.inr (.inr (.inr (.inr ⟨_, rfl⟩))))
    · exact .outside hfresh hnot (.inr (.inr (.inl rfl)))
  · split at hstep
    · cases hstep
      exact .outside hfresh hnot (.inr (.inr (.inr (.inl rfl))))
    · next hroom =>
      cases hstep
      exact .inside ⟨hfree hpc hroom, hfresh⟩ trivial
  · cases hstep
    exact .outside hfresh hnot (.inr (.inr (.inr (.inr ⟨_, rfl⟩))))

omit hfree

theorem publishTidy_claim
    (hpc : f.pc = .admission ∨ f.pc = .recheckState ∨ f.pc = .recheckGeneration ∨
      ∃ call, f.pc = .reserve call) : PublishTidy config m m' f f' := by
  have hcharge := config.accountingCharge_maximumRecordBytes
  unfold PublishFrame.Tidy at htidy
  rcases hpc with hpc | hpc | hpc | ⟨call, hpc⟩ <;> rw [publishStep, hpc] at hstep <;>
    rw [hpc] at htidy <;> dsimp only at hstep htidy
  · split at hstep <;> cases hstep
    · exact .inside htidy trivial
    · exact .reject htidy.1 htidy.2 (by rfl)
  · split at hstep <;> cases hstep
    · exact .inside htidy trivial
    · exact .reject htidy.1 htidy.2 (by rfl)
  · split at hstep
    · cases hstep
      exact .reject htidy.1 htidy.2 (by rfl)
    split at hstep
    · cases hstep
      exact .reject htidy.1 htidy.2 (by rfl)
    split at hstep
    · cases hstep
      exact .reject htidy.1 htidy.2 (by rfl)
    · next call hcall =>
      cases hstep
      rw [CreditLedger.startReserve] at hcall
      split at hcall <;> cases hcall
      exact .inside ⟨htidy.1, htidy.2, rfl, rfl, hcharge⟩ trivial
  · obtain ⟨hcell, hfresh, hproducer, hworst, hbytes⟩ := htidy
    split at hstep
    · next l call' hreserve =>
      cases hstep
      have hcall' : call'.producer = call.producer ∧
          call'.worstCaseBytes = call.worstCaseBytes ∧ call'.chargeBytes = call.chargeBytes := by
        rw [CreditLedger.reserveStep] at hreserve
        split at hreserve
        all_goals try split at hreserve
        all_goals try split at hreserve
        all_goals cases hreserve
        all_goals exact ⟨rfl, rfl, rfl⟩
      refine .inside ⟨hcell, hfresh, hcall'.1.trans hproducer, ?_, ?_⟩ trivial
      · exact hcall'.2.1.trans hworst
      · exact hcall'.2.2.trans hbytes
    · cases hstep
      exact .reject hcell hfresh (by rfl)
    · cases hstep
      refine .inside ⟨hcell, hfresh.2, ?_, hfresh.1.2⟩ trivial
      dsimp only
      rw [hworst, hbytes]

include hok

theorem publishTidy_build
    (hpc : f.pc = .begin ∨ f.pc = .building ∨ f.pc = .publishRecord) :
    PublishTidy config m m' f f' := by
  have hself : ∀ slot : RecordSlot, ((m.setSlot (f.cell config) slot).cells (f.cell config)) =
      ⟨(m.cells (f.cell config)).envelope, slot, (m.cells (f.cell config)).generation,
        (m.cells (f.cell config)).record, (m.cells (f.cell config)).ownership⟩ :=
    fun _ ↦ Function.update_self ..
  -- the slot changes, what is beside it does not
  have hbare : ∀ {state state' : SlotState} {slot : RecordSlot},
      (m.cells (f.cell config)).Bare state → slot.state = state' →
      ((m.setSlot (f.cell config) slot).cells (f.cell config)).Bare state' := by
    intro state state' slot h hslot
    rw [hself]
    exact ⟨hslot, h.record, h.ownership⟩
  have hdrop : ∀ {m' f'}, f'.Reserves config →
      (m'.cells (f'.cell config)).Bare (if f'.writer.attached then .building else .reset) →
      ∀ {outcome}, f'.pc = .unwind dropAll outcome → PublishTidy config m m' f f' := by
    intro m' f' hres hcell outcome hpc'
    refine .inside ?_ ?_
    · rw [PublishFrame.Tidy, hpc']
      exact .inr (.inr (.inr (.inr ⟨rfl, hres, hcell⟩)))
    · rw [hpc']
      exact List.cons_ne_nil _ _
  unfold PublishFrame.Tidy at htidy
  rcases hpc with hpc | hpc | hpc
  · rw [publishStep, hpc] at hstep
    rw [hpc] at htidy
    dsimp only at hstep
    obtain ⟨hcell, hdetached, hres⟩ := htidy
    split at hstep
    · cases hstep
      refine hdrop hres ?_ rfl
      change (m.cells (f.cell config)).Bare (if f.writer.attached then _ else _)
      rw [if_neg (by rw [hdetached]; decide)]
      exact hcell
    · next b hbegin =>
      have hbuilding := building_of_begin hbegin
      split at hstep <;> cases hstep
      · exact .inside ⟨hbare hcell hbuilding.state, hbuilding.attached, hres⟩ trivial
      · refine hdrop hres ?_ rfl
        change ((m.setSlot (f.cell config) b.slot).cells (f.cell config)).Bare
          (if b.writer.attached then _ else _)
        rw [if_pos hbuilding.attached]
        exact hbare hcell hbuilding.state
  · rw [publishStep, hpc] at hstep
    rw [PublishFrame.Ok, hpc] at hok
    rw [hpc] at htidy
    dsimp only at hstep
    obtain ⟨hcell, hattached, hres⟩ := htidy
    obtain ⟨hclaimed, hbuild⟩ := hok
    have hkept : (m.cells (f.cell config)).Bare
        (if f.writer.attached then .building else .reset) := by
      rw [if_pos hattached]
      exact hcell
    split at hstep
    · next call _ =>
      have hnext : PublishFrame.Building conv config
          (m.setSlot (f.cell config)
            (RecordBuild.call conv ⟨(m.cells (f.cell config)).slot, f.writer⟩ call).slot)
          { f with
            writer := (RecordBuild.call conv ⟨(m.cells (f.cell config)).slot, f.writer⟩ call).writer
            calls := f.calls ++ [call] } := by
        obtain ⟨started, hbegin, hcalls⟩ := hbuild
        refine ⟨started, hbegin, ?_⟩
        refine (congrArg (RecordBuild.mk · _) (congrArg KernelCell.slot (hself _))).trans ?_
        rw [hcalls, RecordBuild.calls, RecordBuild.calls, List.foldl_append]
        rfl
      cases hstep
      exact .inside ⟨hbare hcell ((congrArg (·.slot.state) (hself _)).symm.trans hnext.attached.1),
        hnext.attached.2, hres⟩ trivial
    · cases hstep
      exact .inside ⟨hcell, hattached, hres⟩ trivial
    · cases hstep
      exact hdrop hres hkept rfl
    · cases hstep
      exact hdrop hres hkept rfl
  · rw [hpc] at htidy
    obtain ⟨hcell, -, hres⟩ := htidy
    rcases publishStep_publishRecord hok hpc choice with
      ⟨-, b, hreset, hdetached, heq⟩ | ⟨-, b, record, hstate, heq⟩ <;> rw [heq] at hstep <;>
      cases hstep
    · refine hdrop hres ?_ rfl
      change ((m.setSlot (f.cell config) b.slot).cells (f.cell config)).Bare
        (if b.writer.attached then _ else _)
      rw [if_neg (by rw [hdetached]; decide)]
      exact hbare hcell hreset
    · exact .inside ⟨hbare hcell hstate, hres⟩ trivial

omit htidy hstep in
theorem PublishFrame.Ok.sized (hpc : f.pc = .commit ∨ f.pc = .finishCommit ∨
      f.pc = .storeRecord ∨ f.pc = .emplace ∨ f.pc = .fetchSequence) :
    f.slot < config.producerSlots ∧ f.record.serializedBytes ≠ 0 ∧
      f.record.serializedBytes ≤ config.maximumRecordBytes ∧
      f.record.accountingChargeBytes = accountingCharge f.record.serializedBytes ∧
      accountingCharge f.record.serializedBytes ≠ 0 ∧
      f.record.serializedBytes ≤ accountingCharge f.record.serializedBytes ∧
      accountingCharge f.record.serializedBytes ≤ config.maximumRecordBytes := by
  have h56 : serializedRecordMetadataBytes = 56 := rfl
  have hbuilt : f.Claimed config m ∧ f.Built conv config m := by
    unfold PublishFrame.Ok at hok
    rcases hpc with hpc | hpc | hpc | hpc | hpc <;> rw [hpc] at hok
    · exact hok
    · exact hok
    · exact ⟨hok.1, hok.2.1⟩
    · exact ⟨hok.1, hok.2.1⟩
    · exact ⟨hok.1, hok.2.1⟩
  obtain ⟨-, bytes, hbytes, hsized⟩ := hbuilt.2.sized
  have hserialized := hsized.serialized
  have hcharge := hsized.charge
  have hle := hsized.serialized_le
  have hle' := hsized.charge_le
  rw [hserialized]
  exact ⟨hbuilt.1.slot, by omega, by omega, hcharge, by omega, by omega, by omega⟩

theorem publishTidy_commit
    (hpc : f.pc = .commit ∨ f.pc = .finishCommit ∨ f.pc = .storeRecord ∨ f.pc = .emplace) :
    PublishTidy config m m' f f' := by
  have hself : ∀ cell : KernelCell, (m.setCell (f.cell config) cell).cells (f.cell config) = cell :=
    fun _ ↦ Function.update_self ..
  obtain ⟨-, -, hle, hcharge, hne, -, hle'⟩ := hok.sized (by tauto)
  unfold PublishFrame.Tidy at htidy
  rcases hpc with hpc | hpc | hpc | hpc <;> rw [publishStep, hpc] at hstep <;>
    rw [hpc] at htidy <;> dsimp only at hstep htidy
  · obtain ⟨hcell, hres, howner⟩ := htidy
    rw [hres, CreditLedger.startCommit, if_neg (by omega)] at hstep
    cases hstep
    exact .inside ⟨hcell, howner, rfl⟩ trivial
  · obtain ⟨hcell, howner, hres⟩ := htidy
    rw [hres, CreditLedger.finishHandle] at hstep
    dsimp only at hstep
    rw [Handle.retained, hcharge, if_pos rfl] at hstep
    cases hstep
    exact .inside ⟨hcell, rfl, rfl⟩ trivial
  · obtain ⟨hcell, hres, howner⟩ := htidy
    cases hstep
    refine .inside ⟨?_, hres, howner⟩ trivial
    exact (congrArg KernelCell.ownership (hself _)).trans hcell.ownership
  · obtain ⟨hcell, hres, howner⟩ := htidy
    rw [if_pos hcell] at hstep
    cases hstep
    refine .inside ⟨?_, hres, rfl⟩ trivial
    exact (congrArg KernelCell.ownership (hself _)).trans howner

theorem publishTidy_publish
    (hpc : f.pc = .fetchSequence ∨ f.pc = .writeEnvelope ∨ f.pc = .publishPosition ∨
      f.pc = .clear) : PublishTidy config m m' f f' := by
  unfold PublishFrame.Tidy at htidy
  rcases hpc with hpc | hpc | hpc | hpc
  · obtain ⟨hslot, hpos, -, hcharge, -, hle, -⟩ := hok.sized (by tauto)
    obtain ⟨-, hproducers, -, hcells⟩ := config.producerSlots_bounds
    have hcell : f.cell config < config.ingressCells := config.cellIndex_lt_ingressCells hslot _
    have hvalid : (f.handle config).isValid = true := by
      rw [RecordHandle.isValid, PublishFrame.handle]
      simp only [Bool.and_eq_true, bne_iff_ne, decide_eq_true_eq]
      exact ⟨⟨⟨hpos, hcharge ▸ hle⟩, by omega⟩, by omega⟩
    rw [publishStep, hpc] at hstep
    rw [hpc] at htidy
    dsimp only at hstep htidy
    rw [if_pos hvalid] at hstep
    cases hstep
    exact .inside htidy trivial
  · rw [publishStep, hpc] at hstep
    rw [hpc] at htidy
    cases hstep
    have hself : (m.setEnvelope (f.cell config) ⟨f.handle config, f.sequence⟩).cells
        (f.cell config) = _ := Function.update_self ..
    exact .inside ⟨(congrArg KernelCell.ownership hself).trans htidy.1, htidy.2⟩ trivial
  · rw [publishStep, hpc] at hstep
    rw [hpc] at htidy
    cases hstep
    exact ⟨htidy.2, fun _ _ ↦ .inl hpc⟩
  · rw [publishStep, hpc] at hstep
    rw [hpc] at htidy
    cases hstep
    refine ⟨htidy, fun howns ↦ ?_⟩
    rw [hpc] at howns
    exact howns.elim

omit hok

theorem publishTidy_unwind {stages : List Unwind} {outcome : Option PublishOutcome}
    (hpc : f.pc = .unwind stages outcome) : PublishTidy config m m' f f' := by
  unfold PublishFrame.Tidy at htidy
  rw [publishStep, hpc] at hstep
  rw [hpc] at htidy
  dsimp only at htidy
  rcases htidy with ⟨rfl, hempty⟩ | ⟨rfl, hcell, hempty⟩ | ⟨rfl, hcell, howner, hres⟩ |
    ⟨rfl, hcell, hres, howner⟩ | ⟨rfl, ⟨hres, howner⟩, hcell⟩
  · cases hstep
    refine ⟨hempty, fun howns ↦ ?_⟩
    rw [hpc] at howns
    exact absurd rfl howns
  · cases hstep
    exact ⟨.inl ⟨rfl, hempty⟩, fun _ _ ↦ .inr hcell⟩
  · dsimp only [unwindStep] at hstep
    rw [hres, CreditLedger.finishHandle] at hstep
    cases hstep
    exact .inside (.inr (.inl ⟨rfl, hcell, rfl, howner⟩)) (List.cons_ne_nil _ _)
  · dsimp only [unwindStep] at hstep
    rw [hres, CreditLedger.startRelease] at hstep
    cases hstep
    exact .inside (.inr (.inr (.inl ⟨rfl, hcell, howner, rfl⟩))) (List.cons_ne_nil _ _)
  · cases hstep
    refine .inside (.inr (.inr (.inr (.inl ⟨rfl, ?_, hres, howner⟩)))) (List.cons_ne_nil _ _)
    -- an attached writer resets its slot, a detached one has left it reset
    have hreset : (RecordBuild.abandon
        ⟨(m.cells (f.cell config)).slot, f.writer⟩).slot.state = .reset := by
      rw [RecordBuild.abandon]
      have hstate := hcell.state
      split
      · rfl
      · next hdetached =>
        rw [if_neg hdetached] at hstate
        exact hstate
    have hself : (m.setSlot (f.cell config) (RecordBuild.abandon
        ⟨(m.cells (f.cell config)).slot, f.writer⟩).slot).cells (f.cell config) = _ :=
      Function.update_self ..
    change ((m.setSlot (f.cell config) _).cells (f.cell config)).Free
    rw [hself]
    exact ⟨hreset, hcell.record, hcell.ownership⟩

include hok hfree

theorem publishTidy : PublishTidy config m m' f f' := by
  cases hpc : f.pc with
  | activeState | activeGeneration | testAndSet | loadPositions | clearFull =>
    exact publishTidy_enter htidy hfree hstep (by simp [hpc])
  | admission | recheckState | recheckGeneration | reserve _ =>
    exact publishTidy_claim htidy hstep (by simp [hpc])
  | begin | building | publishRecord => exact publishTidy_build hok htidy hstep (by simp [hpc])
  | commit | finishCommit | storeRecord | emplace =>
    exact publishTidy_commit hok htidy hstep (by simp [hpc])
  | finishEmplace =>
    rw [PublishFrame.Tidy, hpc] at htidy
    exact htidy.elim
  | fetchSequence | writeEnvelope | publishPosition | clear =>
    exact publishTidy_publish hok htidy hstep (by simp [hpc])
  | unwind stages outcome => exact publishTidy_unwind htidy hstep hpc
  | done result =>
    rw [publishStep, hpc] at hstep
    cases hstep

end Steps

/-! ## The invariant -/

/-- What is left in the cell that the consumer is clearing. -/
def ConsumeFrame.Tidy (config : ValidConfig) (m : KernelMemory) (f : ConsumeFrame) : Prop :=
  match f.pc with
  | .releaseOwnership claim => (m.cells claim.cell).ownership.OwnsRecord config claim.lane
  | .finishOwnership claim =>
    ∃ charge ≤ config.maximumRecordBytes,
      (m.cells claim.cell).ownership = .releasing claim.lane charge
  | .clearCell claim => (m.cells claim.cell).ownership = .empty
  | .acknowledge claim => (m.cells claim.cell).Free
  | _ => True

theorem ConsumeFrame.Tidy.congr {g : ConsumeFrame} (h : g.Tidy config m)
    (hcell : ∀ claim, g.pc.clearing = some claim → m'.cells claim.cell = m.cells claim.cell) :
    g.Tidy config m' := by
  unfold ConsumeFrame.Tidy at h ⊢
  revert h hcell
  cases g.pc with
  | releaseOwnership c | finishOwnership c | clearCell c | acknowledge c =>
    intro h hcell
    dsimp only
    rw [hcell c rfl]
    exact h
  | _ => exact fun h _ ↦ h

theorem PublishFrame.Tidy.ownsRecord (h : f.Tidy config m) (hok : f.Ok conv config m admissions)
    (hpc : f.pc = .publishPosition) :
    (m.cells (f.cell config)).ownership.OwnsRecord config f.slot := by
  rw [PublishFrame.Tidy, hpc] at h
  rw [PublishFrame.Ok, hpc] at hok
  obtain ⟨-, -, -, -, ⟨a, record, -, -, -, hbuilds, -, howned, -⟩, -⟩ := hok
  obtain ⟨-, bytes, -, hsized⟩ := hbuilds.sized
  rw [h.1] at howned ⊢
  have hbytes : f.record.serializedBytes = record.serializedBytes :=
    congrArg Prod.fst (Option.some_inj.mp howned)
  refine ⟨_, ?_, rfl⟩
  rw [hbytes, hsized.serialized]
  exact hsized.serialized_le.trans hsized.charge_le

namespace Kernel

/-- A publication owns the cell at this position. -/
def OwnedCell (k : Kernel) (p position : ℕ) : Prop :=
  ∃ t f, k.calls t = .publish f ∧ f.pc.OwnsCell ∧ f.slot = p ∧ f.position = position

/-- Cells hold Records inside the windows and nothing outside them, unless a call is at work. -/
structure Tidy (config : ValidConfig) (k : Kernel) : Prop where
  frames : ∀ t f, k.calls t = .publish f → f.Tidy config k.memory
  consumer : ∀ f, k.calls consumerThread = .consume f → f.Tidy config k.memory
  window : ∀ p position, (k.memory.lanes p).readPosition ≤ position →
    position < (k.memory.lanes p).publishedPosition → k.Clearing p position ∨
      (k.memory.cells (config.cellIndex p position)).ownership.OwnsRecord config p
  free : ∀ p position, (k.memory.lanes p).publishedPosition ≤ position →
    position < (k.memory.lanes p).readPosition + config.laneCapacity p →
    k.OwnedCell p position ∨ (k.memory.cells (config.cellIndex p position)).Free

variable {k : Kernel} {t : ℕ}

/-- The position that a claim of the lane is about to take is free. -/
theorem Tidy.claimed (h : k.Tidy config) (hinv : k.Inv conv config)
    (hf : k.calls t = .publish f) (hpc : f.pc = .loadPositions)
    (hroom : ¬config.laneCapacity f.slot ≤
      (k.memory.lanes f.slot).writePosition - (k.memory.lanes f.slot).readPosition) :
    (k.memory.cells
      (config.cellIndex f.slot (k.memory.lanes f.slot).writePosition)).Free := by
  have hok := hinv.frames t f hf
  have hread := (hinv.lanes f.slot).read
  rw [PublishFrame.Ok, hpc] at hok
  rw [hok.2] at hroom ⊢
  refine (h.free f.slot _ le_rfl (by omega)).resolve_left ?_
  rintro ⟨t', g, hg, howns, hslot, -⟩
  have hholds : f.pc.Holds := by
    rw [hpc]
    trivial
  obtain rfl := hinv.unique t' t g f hg hf howns.holds hholds hslot
  cases hf.symm.trans hg
  rw [hpc] at howns
  exact howns

theorem Tidy.publish (h : k.Tidy config) (hinv : k.Inv conv config) (hf : k.calls t = .publish f)
    (hstep : publishStep conv config k.memory f choice = some (m', f')) :
    (k.afterPublish t f m' f').Tidy config := by
  have hok := hinv.frames t f hf
  obtain ⟨admissions', e⟩ := hinv.stepEffect hf hstep
  have d := publishTidy hok (h.frames t f hf) (fun hpc hroom ↦ h.claimed hinv hf hpc hroom) hstep
  have hread := e.read_eq
  constructor
  · intro t' g hg
    rcases update_eq_cases hg with ⟨-, heq⟩ | ⟨ht, hg⟩
    · cases heq
      exact d.tidy
    · exact (h.frames t' g hg).congr fun howns ↦ (hinv.other_holder hf e ht hg howns.holds).2.2
  · intro g hg
    rcases update_eq_cases hg with ⟨-, heq⟩ | ⟨-, hg⟩
    · cases heq
    · refine (h.consumer g hg).congr fun claim hclaim ↦ ?_
      obtain ⟨hclaimOk, hindex⟩ :=
        (ConsumeFrame.ok_of_clearing hclaim).mp (hinv.consumer _ g hg).2
      rw [hindex]
      exact e.window_cells hok hclaimOk.read.le hclaimOk.published
  · intro p position hpos hlt
    change (m'.lanes p).readPosition ≤ position at hpos
    change position < (m'.lanes p).publishedPosition at hlt
    rw [hread p] at hpos
    by_cases hold : position < (k.memory.lanes p).publishedPosition
    · refine (h.window p position hpos hold).imp
        (clearing_update fun g hg ↦ (nomatch hf.symm.trans hg)) fun hcell ↦ ?_
      change (m'.cells _).ownership.OwnsRecord config p
      rw [e.window_cells hok hpos hold]
      exact hcell
    · -- the position that this step has published
      have hp : p = f.slot := by
        by_contra hp
        rw [e.lanes p hp] at hlt
        exact hold hlt
      subst hp
      rcases e.published with heq | ⟨hpc, heq, -⟩
      · omega
      · have hposition : position = f.position := by
          have hpublished := (hok.ownsCell (by rw [hpc]; trivial)).2.1
          omega
        have hcells : m'.cells = k.memory.cells := by
          rw [publishStep, hpc] at hstep
          cases hstep
          rfl
        right
        change (m'.cells _).ownership.OwnsRecord config f.slot
        rw [hposition, hcells]
        exact (h.frames t f hf).ownsRecord hok hpc
  · intro p position hpos hlt
    change (m'.lanes p).publishedPosition ≤ position at hpos
    change position < (m'.lanes p).readPosition + _ at hlt
    change _ ∨ (m'.cells _).Free
    rw [hread p] at hlt
    have hpublished : (k.memory.lanes p).publishedPosition ≤ position := by
      by_cases hp : p = f.slot
      · subst hp
        rcases e.published with heq | ⟨-, heq, -⟩ <;> omega
      · rwa [e.lanes p hp] at hpos
    by_cases hown : f.pc.OwnsCell ∧ f.slot = p ∧ f.position = position
    · obtain ⟨howns, rfl, rfl⟩ := hown
      obtain ⟨-, hposition, -⟩ := hok.ownsCell howns
      by_cases howns' : f'.pc.OwnsCell
      · obtain ⟨-, hposition', -⟩ := e.ok.ownsCell howns'
        refine .inl ⟨t, f', Function.update_self .., howns', e.slot, ?_⟩
        rw [e.slot] at hposition'
        rcases e.published with heq | ⟨-, heq, -⟩ <;> omega
      · rcases d.leave howns howns' with hpc | hfree
        · -- published: the position is inside the window now
          have heq : (m'.lanes f.slot).publishedPosition = f.position + 1 := by
            rw [publishStep, hpc] at hstep
            cases hstep
            simp only [KernelMemory.setLane, Function.update_self]
          omega
        · exact .inr hfree
    · have hsame : m'.cells (config.cellIndex p position) =
          k.memory.cells (config.cellIndex p position) := by
        refine (e.cells _).resolve_right ?_
        rintro ⟨howns, hcell⟩
        obtain ⟨-, hposition, hroom⟩ := hok.ownsCell howns
        by_cases hp : f.slot = p
        · subst hp
          have hlane := (hinv.lanes f.slot).read
          refine hown ⟨howns, rfl, ?_⟩
          by_contra hne
          exact config.cellIndex_ne_of_lt (by omega) (by omega) hcell.symm
        · exact config.cellIndex_ne_of_lane_ne hp hcell.symm
      rw [hsame]
      refine (h.free p position hpublished hlt).imp_left ?_
      rintro ⟨t', g, hg, howns, hslot, hposition⟩
      have ht : t' ≠ t := by
        rintro rfl
        cases hf.symm.trans hg
        exact hown ⟨howns, hslot, hposition⟩
      exact ⟨t', g, (Function.update_of_ne ht ..).trans hg, howns, hslot, hposition⟩

/-- Until the consumer clears it, the claimed cell owns its Record. -/
theorem Tidy.claim (h : k.Tidy config) {g : ConsumeFrame} {claim : ConsumptionClaim}
    (hg : k.calls consumerThread = .consume g) (hclearing : g.pc.clearing = none)
    (hok : claim.Ok config k.memory)
    (hindex : claim.cell = config.cellIndex claim.lane claim.readPosition) :
    (k.memory.cells claim.cell).ownership.OwnsRecord config claim.lane := by
  rw [hindex]
  refine (h.window claim.lane claim.readPosition hok.read.le hok.published).resolve_left ?_
  rintro ⟨g', c, hg', hc, -⟩
  cases hg.symm.trans hg'
  rw [hclearing] at hc
  cases hc

/-- What a step of the consumer leaves in the cell that it clears. -/
theorem Tidy.consumeStep (h : k.Tidy config) (hinv : k.Inv conv config) {g : ConsumeFrame}
    (hg : k.calls consumerThread = .consume g)
    (hstep : consumeStep config k.memory g choice = some (m', pc')) :
    ConsumeFrame.Tidy config m' ⟨g.hasConsumer, pc'⟩ := by
  have hok := (hinv.consumer _ g hg).2
  have htidy := h.consumer g hg
  have hself :
    ∀ {m : KernelMemory} {i : ℕ} {cell : KernelCell}, (m.setCell i cell).cells i = cell :=
    Function.update_self ..
  unfold ConsumeFrame.Tidy at htidy
  cases hpc : g.pc with
  | scan lane later =>
    rw [Ulog.consumeStep, hpc] at hstep
    dsimp only at hstep
    split_ifs at hstep <;> cases hstep <;> trivial
  | readEnvelope lane position later =>
    rw [Ulog.consumeStep, hpc] at hstep
    dsimp only at hstep
    split_ifs at hstep <;> cases hstep <;> trivial
  | loadSequence later =>
    rw [Ulog.consumeStep, hpc] at hstep
    cases hstep
    trivial
  | validate claim =>
    obtain ⟨-, hindex, -⟩ := hinv.validates hg hpc
    rw [ConsumeFrame.Ok, hpc] at hok
    have howned := h.claim hg (by rw [hpc]; rfl) hok.1 hindex
    rw [Ulog.consumeStep, hpc] at hstep
    dsimp only at hstep
    split_ifs at hstep with _ hlt
    · cases hstep
      trivial
    · cases hstep
      exact howned
    · rw [hindex] at hlt
      exact absurd (config.cellIndex_lt_ingressCells hok.1.lane _) hlt
  | callback claim view =>
    rw [ConsumeFrame.Ok, hpc] at hok
    have howned := h.claim hg (by rw [hpc]; rfl) hok.1 hok.2.1
    rw [Ulog.consumeStep, hpc] at hstep
    cases hstep
    exact howned
  | releaseOwnership claim =>
    rw [hpc] at htidy
    obtain ⟨retained, hle, howner⟩ := htidy
    rw [Ulog.consumeStep, hpc] at hstep
    dsimp only at hstep
    rw [howner, CreditLedger.startRelease] at hstep
    cases hstep
    refine ⟨accountingCharge retained, ?_, congrArg KernelCell.ownership hself⟩
    obtain ⟨hmin, hmax, hquantum, -⟩ := config.maximumRecordBytes_bounds
    exact (accountingCharge_le hquantum (by omega) hmax hle).2.2
  | finishOwnership claim =>
    rw [hpc] at htidy
    obtain ⟨charge, -, howner⟩ := htidy
    rw [Ulog.consumeStep, hpc] at hstep
    dsimp only at hstep
    rw [howner, CreditLedger.finishHandle] at hstep
    cases hstep
    exact congrArg KernelCell.ownership hself
  | clearCell claim =>
    rw [hpc] at htidy
    rw [Ulog.consumeStep, hpc] at hstep
    cases hstep
    have hcell :
      ((k.memory.setRecord claim.cell (k.memory.cells claim.cell).generation none).setSlot
        claim.cell (k.memory.cells claim.cell).slot.reset).cells claim.cell = _ := hself
    refine ⟨?_, ?_, ?_⟩ <;> rw [hcell]
    · rfl
    · exact congrArg KernelCell.record hself
    · exact (congrArg KernelCell.ownership hself).trans htidy
  | acknowledge claim =>
    rw [Ulog.consumeStep, hpc] at hstep
    dsimp only at hstep
    rw [startRetirement] at hstep
    split at hstep <;> cases hstep <;> trivial
  | retire lane pc =>
    rw [Ulog.consumeStep, hpc] at hstep
    dsimp only at hstep
    split at hstep <;> cases hstep <;> trivial
  | done status =>
    rw [Ulog.consumeStep, hpc] at hstep
    cases hstep

/-- The consumer reads on only when it acknowledges its claim. -/
theorem consumeStep_readPosition {g : ConsumeFrame}
    (hstep : Ulog.consumeStep config m g choice = some (m', pc')) (p : ℕ) :
    (m'.lanes p).readPosition = (m.lanes p).readPosition ∨
      ∃ claim, g.pc = .acknowledge claim ∧ claim.lane = p ∧ m'.cells = m.cells ∧
        (m'.lanes p).readPosition = claim.readPosition + 1 := by
  rw [Ulog.consumeStep] at hstep
  split at hstep
  · split_ifs at hstep <;> cases hstep <;> exact .inl rfl
  · dsimp only at hstep
    split_ifs at hstep <;> cases hstep <;> exact .inl rfl
  · cases hstep
    exact .inl rfl
  · split_ifs at hstep <;> cases hstep <;> exact .inl rfl
  · cases hstep
    exact .inl rfl
  · cases hstep
    exact .inl rfl
  · cases hstep
    exact .inl rfl
  · cases hstep
    exact .inl rfl
  · next claim hpc =>
    cases hstep
    by_cases hp : claim.lane = p
    · subst hp
      refine .inr ⟨claim, hpc, rfl, rfl, ?_⟩
      simp only [KernelMemory.setLane, Function.update_self]
    · left
      simp only [KernelMemory.setLane, Function.update_of_ne (Ne.symm hp)]
  · next lane pc _ =>
    split at hstep <;> next heq =>
      cases hstep
      exact .inl (by rw [(ControlEffect.of_retireStep heq).sameIngress.lanes])
  · cases hstep

theorem Tidy.consume (h : k.Tidy config) (hinv : k.Inv conv config) {g : ConsumeFrame}
    (hg : k.calls consumerThread = .consume g)
    (hstep : Ulog.consumeStep config k.memory g choice = some (m', pc')) :
    (k.afterConsume consumerThread g m' pc').Tidy config := by
  have e := hinv.consumeStep hg hstep
  have hnew := h.consumeStep hinv hg hstep
  have hpublish : ∀ {t f}, k.calls t = .publish f → t ≠ consumerThread := by
    rintro t f hf rfl
    cases hg.symm.trans hf
  constructor
  · intro t f hf
    rcases update_eq_cases hf with ⟨-, heq⟩ | ⟨-, hf⟩
    · cases heq
    · exact (h.frames t f hf).congr fun howns ↦ e.cells_of_ownsCell hinv hg hf howns
  · intro g' hg'
    cases (Function.update_self consumerThread _ k.calls).symm.trans hg'
    exact hnew
  · intro p position hread hpublished
    rcases e.window_kept hinv hg hread hpublished with ⟨claim, hclaim, hrest⟩ | ⟨hclearing, hcell⟩
    · exact .inl ⟨_, claim, Function.update_self consumerThread _ k.calls, hclaim, hrest⟩
    · right
      change (m'.cells _).ownership.OwnsRecord config p
      rw [hcell]
      change position < (m'.lanes p).publishedPosition at hpublished
      rw [(e.lanes p).published] at hpublished
      exact (h.window p position ((e.lanes p).read.trans hread) hpublished).resolve_left hclearing
  · intro p position hpublished hlt
    change (m'.lanes p).publishedPosition ≤ position at hpublished
    change position < (m'.lanes p).readPosition + _ at hlt
    rw [(e.lanes p).published] at hpublished
    have hlane := (hinv.lanes p).read
    by_cases hold : position < (k.memory.lanes p).readPosition + config.laneCapacity p
    · rcases h.free p position hpublished hold with ⟨t, f, hf, hrest⟩ | hfree
      · exact .inl ⟨t, f, (Function.update_of_ne (hpublish hf) ..).trans hf, hrest⟩
      · right
        change (m'.cells _).Free
        rwa [(e.cells _).resolve_right]
        rintro ⟨claim, hclaim, hindex⟩
        obtain ⟨hok, hcell⟩ := (ConsumeFrame.ok_of_clearing hclaim).mp (hinv.consumer _ g hg).2
        rw [hcell] at hindex
        have hp : p = claim.lane := by
          by_contra hne
          exact config.cellIndex_ne_of_lane_ne hne hindex
        subst hp
        have hclaimRead := hok.read
        have hclaimPublished := hok.published
        exact config.cellIndex_ne_of_lt (by omega) (by omega) hindex.symm
    · -- the ring comes round to the cell that has just been given back
      rcases consumeStep_readPosition hstep p with heq | ⟨claim, hpc, rfl, hcells, heq⟩
      · omega
      · have hfree := h.consumer g hg
        have hok := (hinv.consumer _ g hg).2
        rw [ConsumeFrame.Tidy, hpc] at hfree
        rw [ConsumeFrame.Ok, hpc] at hok
        obtain ⟨hclaim, hindex⟩ := hok
        have hclaimRead := hclaim.read
        have hposition : position = claim.readPosition + config.laneCapacity claim.lane := by omega
        right
        change (m'.cells _).Free
        rw [hcells, hposition, ValidConfig.cellIndex, Nat.add_mod_right]
        dsimp only at hfree
        rw [hindex] at hfree
        exact hfree

theorem Tidy.replace (h : k.Tidy config) (hm : ControlEffect k.memory m') {call : KernelCall}
    (hpublish : ∀ f, k.calls t = .publish f → ¬f.pc.OwnsCell)
    (hconsume : ∀ g, k.calls t = .consume g → g.pc.clearing = none)
    (hpublish' : ∀ f, call = .publish f → f.pc = .activeState ∧ f.Fresh)
    (hconsume' : ∀ g, call = .consume g → g.pc.clearing = none) {consumptions : List Consumption}
    {returned : List (ℕ × Admission)} :
    Tidy config ⟨m', Function.update k.calls t call, k.admissions, consumptions, returned⟩ where
  frames t' f hf := by
    rcases update_eq_cases hf with ⟨-, heq⟩ | ⟨-, hf⟩
    · obtain ⟨hpc, hfresh⟩ := hpublish' f heq.symm
      rw [PublishFrame.Tidy, hpc]
      exact hfresh
    · exact (h.frames t' f hf).congr fun _ ↦ congrFun hm.sameIngress.cells _
  consumer g hg := by
    rcases update_eq_cases hg with ⟨-, heq⟩ | ⟨-, hg⟩
    · have hclearing := hconsume' g heq.symm
      unfold ConsumeFrame.Tidy
      revert hclearing
      cases g.pc <;> first | exact fun _ ↦ trivial | exact fun hclearing ↦ nomatch hclearing
    · exact (h.consumer g hg).congr fun _ _ ↦ congrFun hm.sameIngress.cells _
  window p position := by
    change (m'.lanes p).readPosition ≤ position → position < (m'.lanes p).publishedPosition →
      _ ∨ (m'.cells _).ownership.OwnsRecord config p
    rw [hm.sameIngress.lanes, hm.sameIngress.cells]
    exact fun hread hpublished ↦ (h.window p position hread hpublished).imp_left
      (clearing_update hconsume)
  free p position := by
    change (m'.lanes p).publishedPosition ≤ position → position < (m'.lanes p).readPosition + _ →
      _ ∨ (m'.cells _).Free
    rw [hm.sameIngress.lanes, hm.sameIngress.cells]
    refine fun hpublished hread ↦ (h.free p position hpublished hread).imp_left ?_
    rintro ⟨t', f, hf, howns, hrest⟩
    refine ⟨t', f, (Function.update_of_ne ?_ ..).trans hf, howns, hrest⟩
    rintro rfl
    exact hpublish f hf howns

theorem tidy_init : (init config).Tidy config where
  frames _ _ hf := nomatch hf
  consumer _ hg := nomatch hg
  window _ _ _ hpublished := absurd hpublished (Nat.not_lt_zero _)
  free _ _ _ _ := .inr ⟨rfl, rfl, rfl⟩

theorem Tidy.step (h : k.Tidy config) (hinv : k.Inv conv config) {action : KernelAction}
    {k' : Kernel} (hstep : k.step conv config action = some k') : k'.Tidy config := by
  cases Move.of_step hstep with
  | enter hidle hcall =>
    refine h.replace (.refl _) (fun f hf ↦ ?_) (fun g hg ↦ ?_) (fun f hf ↦ ?_) fun g hg ↦ ?_
    · cases hidle.symm.trans hf
    · cases hidle.symm.trans hg
    · cases hcall <;> cases hf
      exact ⟨rfl, ⟨rfl, rfl⟩, rfl⟩
    · cases hcall <;> cases hg
      split <;> rfl
  | closeAdmission => exact { h with }
  | publish hf hcall => exact h.publish hinv hf hcall
  | consume hf hcall =>
    obtain ⟨rfl, -⟩ := hinv.consumer _ _ hf
    exact h.consume hinv hf hcall
  | retire hf hcall =>
    exact h.replace (.of_retireProducerStep hcall) (fun f hf' ↦ nomatch hf.symm.trans hf')
      (fun g hg ↦ nomatch hf.symm.trans hg) (fun f hf' ↦ by cases hf') fun g hg ↦ by cases hg
  | quiescent hf hcall =>
    exact h.replace (.of_quiescentStep hcall) (fun f hf' ↦ nomatch hf.symm.trans hf')
      (fun g hg ↦ nomatch hf.symm.trans hg) (fun f hf' ↦ by cases hf') fun g hg ↦ by cases hg
  | register hf hcall =>
    exact h.replace (.of_registerStep hcall) (fun f hf' ↦ nomatch hf.symm.trans hf')
      (fun g hg ↦ nomatch hf.symm.trans hg) (fun f hf' ↦ by cases hf') fun g hg ↦ by cases hg
  | returnPublish hf hpc =>
    refine h.replace (.refl _) (fun f hf' ↦ ?_) (fun g hg ↦ nomatch hf.symm.trans hg)
      (fun f hf' ↦ by cases hf') fun g hg ↦ by cases hg
    cases hf.symm.trans hf'
    rw [hpc]
    exact id
  | «return» hcall hdone =>
    refine h.replace (.refl _) (fun f hf ↦ absurd hf (hcall f)) (fun g hg ↦ ?_)
      (fun f hf' ↦ by cases hf') fun g hg ↦ by cases hg
    rw [hg] at hdone
    obtain ⟨status, hpc⟩ := hdone
    rw [hpc]
    rfl

theorem Tidy.of_reach {ok : Kernel → KernelAction → Prop} (h : (machine conv config).Reach ok k) :
    k.Tidy config := by
  have hboth : k.Inv conv config ∧ k.Tidy config :=
    Machine.Reach.invariant (I := fun k ↦ k.Inv conv config ∧ k.Tidy config) h
      ⟨inv_init, tidy_init⟩ fun _ _ _ hk _ hstep ↦ ⟨hk.1.step hstep, hk.2.step hk.1 hstep⟩
  exact hboth.2

end Kernel

/-! ## The sizes of Records -/

/-- A Record that `Publish` returns passes the size checks behind it, and its commit gives the
ownership that the Record asks for. -/
theorem publishStep_checks (hok : f.Ok conv config m admissions) (htidy : f.Tidy config m)
    (hstep : publishStep conv config m f choice = some (m', f')) :
    (f.pc = .publishRecord → (f.build config m).publish.2 ≠ none → f'.pc = .commit) ∧
      (f.pc = .finishCommit → f'.pc = .storeRecord) := by
  refine ⟨fun hpc hsome ↦ ?_, fun hpc ↦ ?_⟩
  · rcases publishStep_publishRecord hok hpc choice with
      ⟨hfits, b, -, -, hreject⟩ | ⟨-, b, record, -, hcommit⟩
    · rw [PublishFrame.Ok, hpc] at hok
      obtain ⟨-, started, hbegin, hbuild⟩ := hok
      obtain ⟨msg, hbuilding, -⟩ := building_calls conv f.calls (building_of_begin hbegin)
        (appending_of_begin hbegin)
      rw [← hbuild] at hbuilding
      rw [PublishFrame.build] at hsome hfits
      rw [hbuilding.publish_of_not_markFits hfits] at hsome
      exact absurd rfl hsome
    · cases hcommit.symm.trans hstep
      rfl
  · obtain ⟨-, -, -, hcharge, -⟩ := hok.sized (.inr (.inl hpc))
    rw [PublishFrame.Tidy, hpc] at htidy
    obtain ⟨-, -, hres⟩ := htidy
    rw [publishStep, hpc] at hstep
    dsimp only at hstep
    rw [hres, CreditLedger.finishHandle] at hstep
    dsimp only at hstep
    rw [Handle.retained, hcharge, if_pos rfl] at hstep
    cases hstep
    rfl

/-- Declared sizes are exact. Under every limit that the kernel can be configured with, every build
sequence keeps `front_end` below `field_tail` below the limit, writes ranges without overlap inside
the limit, and is published with the sum of their lengths. In every run of the kernel neither the
size checks behind `Publish` nor the check of the committed ownership fails. -/
theorem record_sizes_exact (conv : Charconv) :
    (∀ (limit : ℕ) (slot : RecordSlot) (level : Level) (source : SourceLocation)
      (timestamp : Int64) (started : RecordBuild), limit % accountingQuantumBytes = 0 →
      128 ≤ limit → limit ≤ maximumRecordBytes →
      slot.begin limit level source timestamp = some started →
      ∀ cs : List RecordCall, (started.calls conv cs).Exact limit slot.storage) ∧
    ∀ (config : ValidConfig) (k k' : Kernel) (t : ℕ) (f : PublishFrame) (choice : StepChoice),
      (Kernel.machine conv config).Reachable k → k.calls t = .publish f →
      k.step conv config (.advance t choice) = some k' →
      ∃ f', k'.calls t = .publish f' ∧
        (f.pc = .publishRecord → (f.build config k.memory).publish.2 ≠ none → f'.pc = .commit) ∧
        (f.pc = .finishCommit → f'.pc = .storeRecord) := by
  refine ⟨fun limit slot level source timestamp started hlimit _ _ hbegin cs ↦
    exact_calls conv hlimit hbegin cs, fun config k k' t f choice hk hf hstep ↦ ?_⟩
  obtain ⟨m', f', hpublish, rfl⟩ := Kernel.advance_publish hf hstep
  refine ⟨f', Function.update_self .., ?_⟩
  exact publishStep_checks ((Kernel.Inv.of_reach hk).frames t f hf)
    ((Kernel.Tidy.of_reach hk).frames t f hf) hpublish

/-- A build with a field under the smallest limit, and a publication that has just committed. -/
theorem record_sizes_exact_committed :
    (∃ started, RecordSlot.begin {} 128 .info ⟨[0x61], [0x62], 7, 9⟩ 5 = some started ∧
      (started.calls .blank
        [.addField [0x6b] (.string [0x76]), .append (.text [0x68])]).Exact 128 fun _ ↦ 0) ∧
    ∃ k k' f f', (Kernel.machine .blank .singleCell).Reachable k ∧
      k.calls 1 = .publish f ∧ f.pc = .finishCommit ∧
      k.step .blank .singleCell (.advance 1 {}) = some k' ∧
      k'.calls 1 = .publish f' ∧ f'.pc = .storeRecord := by
  have hrun : (Kernel.machine .blank .singleCell).run (fun _ _ ↦ True)
      (Kernel.init .singleCell)
      (List.flatten [[.register 1], advances 1 4, [.return 1],
        [.publish 1 0 1 .info ⟨[0x61], [0x62], 7, 9⟩ true], advances 1 15,
        [.advance 1 { build := .call (.append (.text [0x68])) }], advances 1 3]) =
      some _ := rfl
  have hreach := Machine.Reach.of_run .init hrun
  obtain ⟨hbuild, hkernel⟩ := record_sizes_exact .blank
  refine ⟨⟨_, rfl, hbuild 128 {} .info ⟨[0x61], [0x62], 7, 9⟩ 5 _ rfl (by decide)
    (by decide) rfl _⟩,
    ?_⟩
  obtain ⟨f', hf', -, hcommit⟩ := hkernel .singleCell _ _ 1 _ {} hreach rfl rfl
  exact ⟨_, _, _, f', hreach, rfl, rfl, rfl, hf', hcommit rfl⟩

end Ulog
