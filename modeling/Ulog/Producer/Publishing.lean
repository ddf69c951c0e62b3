import Ulog.Producer.Invariant

/-!
# Steps of a publication

`PublishEffect` says what one step of `TryPublishSlot` can do to the shared memory: it moves the
flag and the positions of its own lane, writes only the cell it owns, and publishes a position only
with a complete cell behind it. Everything the other calls rely on follows from that.
-/

namespace Ulog

variable {conv : Charconv} {config : ValidConfig} {m m' : KernelMemory}
  {admissions admissions' : List Admission} {f f' : PublishFrame} {choice : StepChoice}
  {outcome : Option PublishOutcome}

/-- What a step of `TryPublishSlot` can do. -/
structure PublishEffect (conv : Charconv) (config : ValidConfig) (m m' : KernelMemory)
    (admissions admissions' : List Admission) (f f' : PublishFrame) : Prop where
  slot : f'.slot = f.slot
  lanes : ∀ p, p ≠ f.slot → m'.lanes p = m.lanes p
  read : (m'.lanes f.slot).readPosition = (m.lanes f.slot).readPosition
  laneOk : LaneOk (config.laneCapacity f.slot) (m'.lanes f.slot)
  cells : ∀ c, m'.cells c = m.cells c ∨ f.pc.OwnsCell ∧ c = f.cell config
  idle : ¬f.pc.Holds → ¬f'.pc.Holds → m'.lanes f.slot = m.lanes f.slot
  acquire : ¬f.pc.Holds → f'.pc.Holds → (m.lanes f.slot).publishing = false
  publishing : f'.pc.Holds → (m'.lanes f.slot).publishing = true
  published : (m'.lanes f.slot).publishedPosition = (m.lanes f.slot).publishedPosition ∨
    f.pc = .publishPosition ∧
      (m'.lanes f.slot).publishedPosition = (m.lanes f.slot).publishedPosition + 1 ∧
      CellOk conv config admissions'
        (m'.cells (config.cellIndex f.slot (m.lanes f.slot).publishedPosition)) f.slot
        (m.lanes f.slot).publishedPosition
  nextSequence : m'.nextSequence = m.nextSequence
  fetched : m'.nextAdmissionSequence = m.nextAdmissionSequence ∨ f.pc = .fetchSequence
  history : admissions' = if m'.nextAdmissionSequence = m.nextAdmissionSequence then admissions
    else admissions ++ [f.admission]
  length : admissions'.length = m'.nextAdmissionSequence
  carries : ∀ s, f'.Carries s → f.Carries s ∨ f.pc = .fetchSequence ∧ s = admissions.length
  ok : f'.Ok conv config m' admissions'

theorem PublishEffect.grows (h : PublishEffect conv config m m' admissions admissions' f f') :
    admissions <+: admissions' := by
  rw [h.history]
  split
  · exact List.prefix_rfl
  · exact List.prefix_append ..

/-- The lane of the call and the history between steps. -/
structure PublishFrame.OnLane (config : ValidConfig) (m : KernelMemory)
    (admissions : List Admission) (f : PublishFrame) : Prop where
  lane : LaneOk (config.laneCapacity f.slot) (m.lanes f.slot)
  flag : f.pc.Holds → (m.lanes f.slot).publishing = true
  length : admissions.length = m.nextAdmissionSequence

/-- Steps that keep lanes and sequences as they are. -/
theorem PublishEffect.of_lanes_eq (hon : f.OnLane config m admissions)
    (hslot : f'.slot = f.slot) (hlanes : m'.lanes = m.lanes)
    (hcells : ∀ c, m'.cells c = m.cells c ∨ f.pc.OwnsCell ∧ c = f.cell config)
    (hsequence : m'.nextSequence = m.nextSequence)
    (hadmission : m'.nextAdmissionSequence = m.nextAdmissionSequence)
    (hholds : f'.pc.Holds → f.pc.Holds) (hcarries : ∀ s, ¬f'.Carries s)
    (hok : f'.Ok conv config m' admissions) :
    PublishEffect conv config m m' admissions admissions f f' where
  slot := hslot
  lanes p _ := by rw [hlanes]
  read := by rw [hlanes]
  laneOk := by rw [hlanes]; exact hon.lane
  cells := hcells
  idle _ _ := by rw [hlanes]
  acquire hnot hholds' := absurd (hholds hholds') hnot
  publishing hholds' := by
    rw [hlanes]
    exact hon.flag (hholds hholds')
  published := .inl (by rw [hlanes])
  nextSequence := hsequence
  fetched := .inl hadmission
  history := by rw [if_pos hadmission]
  length := hon.length.trans hadmission.symm
  carries s hs := absurd hs (hcarries s)
  ok := hok

theorem PublishFrame.Claimed.of_eq (h : f.Claimed config m) (hslot : f'.slot = f.slot)
    (hposition : f'.position = f.position) (hlanes : m'.lanes f.slot = m.lanes f.slot) :
    f'.Claimed config m' := by
  constructor
  · exact hslot ▸ h.slot
  · rw [hslot, hposition, hlanes, h.write]
  · rw [hslot, hposition, hlanes, h.published]
  · rw [hslot, hposition, hlanes]
    exact h.room

/-- Leaving early keeps the claim until the last stage. -/
theorem PublishFrame.Claimed.reject (h : f.Claimed config m) (stages : List Unwind)
    (hf' : f'.pc = .unwind (stages ++ [.clear]) outcome) (hstages : Unwind.clear ∉ stages)
    (hslot : f'.slot = f.slot) (hposition : f'.position = f.position)
    (hlanes : m'.lanes f.slot = m.lanes f.slot) : f'.Ok conv config m' admissions := by
  rw [PublishFrame.Ok, hf']
  exact .inr ⟨h.of_eq hslot hposition hlanes, stages, rfl, hstages⟩

section Steps

variable (hok : f.Ok conv config m admissions) (hon : f.OnLane config m admissions)
  (hstep : publishStep conv config m f choice = some (m', f'))

include hon in
theorem PublishEffect.answer {outcome : PublishOutcome} (hsame : SameIngress m m') :
    PublishEffect conv config m m' admissions admissions f (f.answer outcome) :=
  .of_lanes_eq hon rfl hsame.lanes (fun c ↦ .inl (by rw [hsame.cells]))
    hsame.nextSequence hsame.nextAdmissionSequence (fun h ↦ h.elim) nofun nofun

include hon in
/-- The flag is cleared; nothing of the lane is half published. -/
theorem PublishEffect.release
    (hwrite : (m.lanes f.slot).writePosition = (m.lanes f.slot).publishedPosition)
    (hholds : f.pc.Holds) (hnot : ¬f'.pc.Holds) (hslot : f'.slot = f.slot)
    (hlanes : m'.lanes = (m.setPublishing f.slot false).lanes) (hcells : m'.cells = m.cells)
    (hsequence : m'.nextSequence = m.nextSequence)
    (hadmission : m'.nextAdmissionSequence = m.nextAdmissionSequence)
    (hcarries : ∀ s, f'.Carries s → f.Carries s) (hok' : f'.Ok conv config m' admissions) :
    PublishEffect conv config m m' admissions admissions f f' := by
  have hself : m'.lanes f.slot = ⟨(m.lanes f.slot).readPosition,
      (m.lanes f.slot).publishedPosition, (m.lanes f.slot).writePosition, false⟩ := by
    rw [hlanes]
    exact Function.update_self ..
  refine ⟨hslot, fun p hp ↦ ?_, by rw [hself], ?_, fun c ↦ .inl (by rw [hcells]),
    fun h ↦ absurd hholds h, fun h ↦ absurd hholds h, fun h ↦ absurd h hnot,
    .inl (by rw [hself]), hsequence, .inl hadmission, (if_pos hadmission).symm,
    hon.length.trans hadmission.symm, fun s hs ↦ .inl (hcarries s hs), hok'⟩
  · rw [hlanes]
    exact Function.update_of_ne hp ..
  · rw [hself]
    exact ⟨hon.lane.read, hon.lane.published, fun _ ↦ hwrite⟩

include hon in
theorem PublishEffect.local (hholds : f.pc.Holds) (hsame : SameIngress m m')
    (hslot : f'.slot = f.slot) (hcarries : ∀ s, ¬f'.Carries s)
    (hok' : f'.Ok conv config m' admissions) :
    PublishEffect conv config m m' admissions admissions f f' :=
  .of_lanes_eq hon hslot hsame.lanes (fun c ↦ .inl (by rw [hsame.cells]))
    hsame.nextSequence hsame.nextAdmissionSequence (fun _ ↦ hholds) hcarries hok'

include hon in
theorem PublishEffect.leave (hholds : f.pc.Holds) (hclaimed : f.Claimed config m)
    (hsame : SameIngress m m') (stages : List Unwind) (hstages : Unwind.clear ∉ stages)
    {outcome : Option PublishOutcome} (hpc : f'.pc = .unwind (stages ++ [.clear]) outcome)
    (hslot : f'.slot = f.slot) (hposition : f'.position = f.position) :
    PublishEffect conv config m m' admissions admissions f f' := by
  refine .local hon hholds hsame hslot (fun s hs ↦ ?_)
    (hclaimed.reject stages hpc hstages hslot hposition (by rw [hsame.lanes]))
  rw [PublishFrame.Carries, hpc] at hs
  exact hs

include hok hon hstep

theorem publishEffect_enter
    (hpc : f.pc = .activeState ∨ f.pc = .activeGeneration ∨ f.pc = .testAndSet) :
    PublishEffect conv config m m' admissions admissions f f' := by
  have hnot : ¬f.pc.Holds := by
    rcases hpc with hpc | hpc | hpc <;> rw [hpc] <;> exact id
  rcases hpc with hpc | hpc | hpc
  · rw [publishStep, hpc] at hstep
    dsimp only at hstep
    split at hstep
    · next hactive =>
      cases hstep
      exact .of_lanes_eq hon rfl rfl (fun _ ↦ .inl rfl) rfl rfl (fun h ↦ h.elim)
        (fun _ h ↦ h) hactive.1
    · cases hstep
      exact .answer hon ⟨rfl, rfl, rfl, rfl⟩
  · rw [publishStep, hpc] at hstep
    rw [PublishFrame.Ok, hpc] at hok
    dsimp only at hstep
    split at hstep
    · cases hstep
      exact .of_lanes_eq hon rfl rfl (fun _ ↦ .inl rfl) rfl rfl (fun h ↦ h.elim)
        (fun _ h ↦ h) hok
    · cases hstep
      exact .answer hon ⟨rfl, rfl, rfl, rfl⟩
  · rw [publishStep, hpc] at hstep
    rw [PublishFrame.Ok, hpc] at hok
    dsimp only at hstep
    split at hstep
    · cases hstep
      exact .answer hon ⟨rfl, rfl, rfl, rfl⟩
    · next hfree =>
      rw [Bool.not_eq_true] at hfree
      cases hstep
      have hself : (m.setPublishing f.slot true).lanes f.slot =
          ⟨(m.lanes f.slot).readPosition, (m.lanes f.slot).publishedPosition,
            (m.lanes f.slot).writePosition, true⟩ := Function.update_self ..
      refine ⟨rfl, fun p hp ↦ Function.update_of_ne hp .., ?_, ?_, fun _ ↦ .inl rfl,
        fun _ h ↦ absurd trivial h, fun _ _ ↦ hfree, ?_, ?_, rfl, .inl rfl, (if_pos rfl).symm,
        hon.length, fun _ h ↦ h.elim, ?_⟩
      · rw [hself]
      · rw [hself]
        exact ⟨hon.lane.read, hon.lane.published, nofun⟩
      · intro _
        rw [hself]
      · rw [hself]
        exact .inl rfl
      · change f.slot < config.producerSlots ∧
          ((m.setPublishing f.slot true).lanes f.slot).writePosition =
            ((m.setPublishing f.slot true).lanes f.slot).publishedPosition
        rw [hself]
        exact ⟨hok, hon.lane.write hfree⟩

theorem publishEffect_claim
    (hpc : f.pc = .loadPositions ∨ f.pc = .clearFull ∨ f.pc = .admission ∨ f.pc = .recheckState ∨
      f.pc = .recheckGeneration ∨ ∃ call, f.pc = .reserve call) :
    PublishEffect conv config m m' admissions admissions f f' := by
  have hholds : f.pc.Holds := by
    rcases hpc with hpc | hpc | hpc | hpc | hpc | ⟨call, hpc⟩ <;> rw [hpc] <;> trivial
  rcases hpc with hpc | hpc | hpc | hpc | hpc | ⟨call, hpc⟩ <;> rw [publishStep, hpc] at hstep <;>
    rw [PublishFrame.Ok, hpc] at hok <;> dsimp only at hstep hok
  · split at hstep
    · cases hstep
      exact .local hon hholds ⟨rfl, rfl, rfl, rfl⟩ rfl (fun _ h ↦ h) hok
    · next hroom =>
      cases hstep
      refine .local hon hholds ⟨rfl, rfl, rfl, rfl⟩ rfl (fun _ h ↦ h) ?_
      have hread := hon.lane.read
      exact ⟨hok.1, rfl, hok.2.symm, by dsimp only; omega⟩
  · cases hstep
    exact .release hon hok.2 hholds id rfl rfl rfl rfl rfl nofun nofun
  -- from here on the call keeps its claim or gives it up
  all_goals
    repeat' split at hstep
    all_goals cases hstep
    all_goals first
      | exact .local hon hholds ⟨rfl, rfl, rfl, rfl⟩ rfl (fun _ h ↦ h) (hok.of_eq rfl rfl rfl)
      | exact .leave hon hholds hok ⟨rfl, rfl, rfl, rfl⟩ [] (by simp) rfl rfl rfl

omit hok hstep in
theorem PublishEffect.onCell (howns : f.pc.OwnsCell) (hlanes : m'.lanes = m.lanes)
    (hcells : ∀ c, c ≠ f.cell config → m'.cells c = m.cells c)
    (hsequence : m'.nextSequence = m.nextSequence)
    (hadmission : m'.nextAdmissionSequence = m.nextAdmissionSequence)
    (hslot : f'.slot = f.slot) (hcarries : ∀ s, ¬f'.Carries s)
    (hok' : f'.Ok conv config m' admissions) :
    PublishEffect conv config m m' admissions admissions f f' := by
  refine .of_lanes_eq hon hslot hlanes (fun c ↦ ?_) hsequence hadmission
    (fun _ ↦ howns.holds) hcarries hok'
  by_cases hc : c = f.cell config
  · exact .inr ⟨howns, hc⟩
  · exact .inl (hcells c hc)

omit hok hstep in
theorem PublishEffect.leaveCell (howns : f.pc.OwnsCell) (hclaimed : f.Claimed config m)
    (hlanes : m'.lanes = m.lanes) (hcells : ∀ c, c ≠ f.cell config → m'.cells c = m.cells c)
    (hsequence : m'.nextSequence = m.nextSequence)
    (hadmission : m'.nextAdmissionSequence = m.nextAdmissionSequence) (stages : List Unwind)
    (hstages : Unwind.clear ∉ stages) (hpc : f'.pc = .unwind (stages ++ [.clear]) outcome)
    (hslot : f'.slot = f.slot) (hposition : f'.position = f.position) :
    PublishEffect conv config m m' admissions admissions f f' := by
  refine .onCell hon howns hlanes hcells hsequence hadmission hslot (fun s hs ↦ ?_)
    (hclaimed.reject stages hpc hstages hslot hposition (by rw [hlanes]))
  rw [PublishFrame.Carries, hpc] at hs
  exact hs

theorem publishEffect_build
    (hpc : f.pc = .begin ∨ f.pc = .building ∨ f.pc = .publishRecord) :
    PublishEffect conv config m m' admissions admissions f f' := by
  have howns : f.pc.OwnsCell := by
    rcases hpc with hpc | hpc | hpc <;> rw [hpc] <;> trivial
  have hcells : ∀ (slot : RecordSlot) (c : ℕ), c ≠ f.cell config →
      (m.setSlot (f.cell config) slot).cells c = m.cells c :=
    fun _ c hc ↦ Function.update_of_ne hc ..
  have hself : ∀ slot : RecordSlot,
      ((m.setSlot (f.cell config) slot).cells (f.cell config)).slot = slot := by
    intro slot
    simp [KernelMemory.setSlot, KernelMemory.setCell]
  rcases hpc with hpc | hpc | hpc <;> rw [publishStep, hpc] at hstep <;>
    rw [PublishFrame.Ok, hpc] at hok <;> dsimp only at hstep hok
  · split at hstep
    · cases hstep
      exact .leave hon howns.holds hok ⟨rfl, rfl, rfl, rfl⟩
        [.dropWriter, .dropReservation, .finishReservation] (by decide) rfl rfl rfl
    · next b hbegin =>
      split at hstep
      · cases hstep
        refine .onCell hon howns rfl (hcells b.slot) rfl rfl rfl (fun _ h ↦ h) ?_
        refine ⟨hok.of_eq rfl rfl rfl, b, hbegin, ?_⟩
        exact congrArg (RecordBuild.mk · b.writer) (hself b.slot)
      · cases hstep
        exact .leaveCell hon howns hok rfl (hcells b.slot) rfl rfl
          [.dropWriter, .dropReservation, .finishReservation] (by decide) rfl rfl rfl
  · obtain ⟨hclaimed, started, hbegin, hbuild⟩ := hok
    split at hstep
    · next call _ =>
      cases hstep
      refine .onCell hon howns rfl (hcells _) rfl rfl rfl (fun _ h ↦ h) ?_
      refine ⟨hclaimed.of_eq rfl rfl rfl, started, hbegin, ?_⟩
      refine (congrArg (RecordBuild.mk · _) (hself _)).trans ?_
      rw [hbuild, RecordBuild.calls, RecordBuild.calls, List.foldl_append]
      rfl
    · cases hstep
      exact .local hon howns.holds ⟨rfl, rfl, rfl, rfl⟩ rfl (fun _ h ↦ h)
        ⟨hclaimed.of_eq rfl rfl rfl, started, hbegin, hbuild⟩
    · cases hstep
      exact .leave hon howns.holds hclaimed ⟨rfl, rfl, rfl, rfl⟩
        [.dropWriter, .dropReservation, .finishReservation] (by decide) rfl rfl rfl
    · cases hstep
      exact .leave hon howns.holds hclaimed ⟨rfl, rfl, rfl, rfl⟩
        [.dropWriter, .dropReservation, .finishReservation] (by decide) rfl rfl rfl
  · obtain ⟨hclaimed, started, hbegin, hbuild⟩ := hok
    split at hstep
    · next b _ =>
      cases hstep
      exact .leaveCell hon howns hclaimed rfl (hcells b.slot) rfl rfl
        [.dropWriter, .dropReservation, .finishReservation] (by decide) rfl rfl rfl
    · next b record hpublish =>
      split at hstep
      · cases hstep
        exact .leaveCell hon howns hclaimed rfl (hcells b.slot) rfl rfl
          [.dropWriter, .dropReservation, .finishReservation] (by decide) rfl rfl rfl
      · cases hstep
        refine .onCell hon howns rfl (hcells b.slot) rfl rfl rfl (fun _ h ↦ h) ?_
        refine ⟨hclaimed.of_eq rfl rfl rfl, started, b, hbegin, ?_, hself b.slot⟩
        rw [hbuild] at hpublish
        exact hpublish

theorem publishEffect_commit
    (hpc : f.pc = .commit ∨ f.pc = .finishCommit ∨ f.pc = .storeRecord ∨ f.pc = .emplace ∨
      f.pc = .finishEmplace) :
    PublishEffect conv config m m' admissions admissions f f' := by
  have howns : f.pc.OwnsCell := by
    rcases hpc with hpc | hpc | hpc | hpc | hpc <;> rw [hpc] <;> trivial
  have hcells : ∀ (cell : KernelCell) (c : ℕ), c ≠ f.cell config →
      (m.setCell (f.cell config) cell).cells c = m.cells c :=
    fun _ c hc ↦ Function.update_of_ne hc ..
  have hself : ∀ cell : KernelCell, (m.setCell (f.cell config) cell).cells (f.cell config) = cell :=
    fun _ ↦ Function.update_self ..
  have hslot : ∀ cell : KernelCell, cell.slot = (m.cells (f.cell config)).slot →
      f.Built conv config m → f.admission.Builds conv config
        ((m.setCell (f.cell config) cell).cells (f.cell config)).slot f.record := by
    intro cell hcell hbuilt
    rw [hself, hcell]
    exact hbuilt
  rcases hpc with hpc | hpc | hpc | hpc | hpc <;> rw [publishStep, hpc] at hstep <;>
    rw [PublishFrame.Ok, hpc] at hok <;> dsimp only at hstep hok
  · cases hstep
    exact .local hon howns.holds ⟨rfl, rfl, rfl, rfl⟩ rfl (fun _ h ↦ h)
      ⟨hok.1.of_eq rfl rfl rfl, hok.2⟩
  · split at hstep
    · next howned =>
      cases hstep
      exact .local hon howns.holds ⟨rfl, rfl, rfl, rfl⟩ rfl (fun _ h ↦ h)
        ⟨hok.1.of_eq rfl rfl rfl, hok.2, howned⟩
    · cases hstep
      exact .leave hon howns.holds hok.1 ⟨rfl, rfl, rfl, rfl⟩
        [.resetSlot, .dropOwnership, .finishOwnership, .dropWriter, .dropReservation,
          .finishReservation] (by decide) rfl rfl rfl
  · cases hstep
    obtain ⟨hclaimed, hbuilt, howned⟩ := hok
    refine .onCell hon howns rfl (hcells _) rfl rfl rfl (fun _ h ↦ h) ?_
    refine ⟨hclaimed.of_eq rfl rfl rfl, ?_, howned, congrArg _ (hself _), congrArg _ (hself _)⟩
    exact hslot _ rfl hbuilt
  · obtain ⟨hclaimed, hbuilt, howned, hrecord, hgeneration⟩ := hok
    split at hstep
    · cases hstep
      refine .onCell hon howns rfl (hcells _) rfl rfl rfl (fun _ h ↦ h) ?_
      refine ⟨hclaimed.of_eq rfl rfl rfl, ?_, ?_, ?_, ?_⟩
      · exact hslot _ rfl hbuilt
      · exact (congrArg KernelCell.ownership (hself _)).symm ▸ howned
      · exact (congrArg KernelCell.record (hself _)).trans hrecord
      · exact (congrArg KernelCell.generation (hself _)).trans hgeneration
    · cases hstep
      refine .onCell hon howns rfl (hcells _) rfl rfl rfl (fun _ h ↦ h) ?_
      refine ⟨hclaimed.of_eq rfl rfl rfl, ?_, howned, ?_, ?_⟩
      · exact hslot _ rfl hbuilt
      · exact (congrArg KernelCell.record (hself _)).trans hrecord
      · exact (congrArg KernelCell.generation (hself _)).trans hgeneration
  · obtain ⟨hclaimed, hbuilt, howned, hrecord, hgeneration⟩ := hok
    cases hstep
    refine .onCell hon howns rfl (hcells _) rfl rfl rfl (fun _ h ↦ h) ?_
    refine ⟨hclaimed.of_eq rfl rfl rfl, ?_, howned, ?_, ?_⟩
    · exact hslot _ rfl hbuilt
    · exact (congrArg KernelCell.record (hself _)).trans hrecord
    · exact (congrArg KernelCell.generation (hself _)).trans hgeneration

theorem publishEffect_unwind {stages : List Unwind} (hpc : f.pc = .unwind stages outcome) :
    PublishEffect conv config m m' admissions admissions f f' := by
  rw [publishStep, hpc] at hstep
  rw [PublishFrame.Ok, hpc] at hok
  dsimp only at hok
  rcases hok with rfl | ⟨hclaimed, l, rfl, hclear⟩
  · cases hstep
    refine .of_lanes_eq hon rfl rfl (fun _ ↦ .inl rfl) rfl rfl (fun h ↦ h.elim) ?_ ?_
    · intro s hs
      change (outcome.map _).bind _ = some s at hs
      cases outcome <;> cases hs
    · intro s hs
      change (outcome.map _).bind _ = some s at hs
      cases outcome <;> cases hs
  · have howns : f.pc.OwnsCell := by
      rw [hpc]
      exact List.append_ne_nil_of_right_ne_nil _ (List.cons_ne_nil _ _)
    cases l with
    | nil =>
      cases hstep
      exact .release hon (hclaimed.write.trans hclaimed.published.symm) howns.holds
        (fun h ↦ h rfl) rfl rfl rfl rfl rfl (fun _ h ↦ h.elim) (.inl rfl)
    | cons stage l =>
      have hcells : ∀ (l : CreditLedger) (cell : KernelCell) (c : ℕ), c ≠ f.cell config →
          ((m.setLedger l).setCell (f.cell config) cell).cells c = m.cells c :=
        fun _ _ c hc ↦ Function.update_of_ne hc ..
      have hl : Unwind.clear ∉ l := fun h ↦ hclear (List.mem_cons_of_mem _ h)
      cases stage with
      | clear => exact absurd List.mem_cons_self hclear
      | dropCellOwnership | finishCellOwnership =>
        cases hstep
        exact .leaveCell hon howns hclaimed rfl (hcells _ _) rfl rfl l hl rfl rfl rfl
      | dropRecord | resetSlot | dropWriter =>
        cases hstep
        exact .leaveCell hon howns hclaimed rfl (hcells m.ledger _) rfl rfl l hl rfl
          rfl rfl
      | dropOwnership | finishOwnership | dropReservation | finishReservation =>
        cases hstep
        exact .leave hon howns.holds hclaimed ⟨rfl, rfl, rfl, rfl⟩ l hl rfl rfl rfl

theorem publishEffect_publish
    (hpc : f.pc = .fetchSequence ∨ f.pc = .writeEnvelope ∨ f.pc = .publishPosition ∨
      f.pc = .clear) :
    ∃ admissions', PublishEffect conv config m m' admissions admissions' f f' := by
  have hholds : f.pc.Holds := by
    rcases hpc with hpc | hpc | hpc | hpc <;> rw [hpc] <;> trivial
  have hpublishing := hon.flag hholds
  rcases hpc with hpc | hpc | hpc | hpc <;> rw [publishStep, hpc] at hstep <;>
    rw [PublishFrame.Ok, hpc] at hok <;> dsimp only at hstep hok
  · obtain ⟨hclaimed, hbuilt, howned, hstored⟩ := hok
    split at hstep
    · cases hstep
      have hnew : (admissions ++ [f.admission])[m.nextAdmissionSequence]? = some f.admission := by
        rw [← hon.length, List.getElem?_append_right le_rfl, Nat.sub_self]
        rfl
      refine ⟨admissions ++ [f.admission], rfl, fun _ _ ↦ rfl, rfl, hon.lane, fun _ ↦ .inl rfl,
        fun _ _ ↦ rfl, fun h ↦ absurd hholds h, fun _ ↦ hpublishing, .inl rfl, rfl,
        .inr hpc, (if_neg (Nat.succ_ne_self _)).symm, ?_, ?_, ?_⟩
      · rw [List.length_append, hon.length]
        rfl
      · rintro s rfl
        exact .inr ⟨hpc, hon.length.symm⟩
      · exact ⟨hclaimed.of_eq rfl rfl rfl, hbuilt, howned, hstored, hnew⟩
    · cases hstep
      exact ⟨_, .leave hon hholds hclaimed ⟨rfl, rfl, rfl, rfl⟩
        [.dropCellOwnership, .finishCellOwnership, .dropRecord, .resetSlot, .dropOwnership,
          .finishOwnership, .dropWriter, .dropReservation, .finishReservation] (by decide) rfl rfl
          rfl⟩
  · obtain ⟨hclaimed, hbuilt, howned, ⟨hrecord, hgeneration⟩, hadmitted⟩ := hok
    cases hstep
    have hself : ((m.setEnvelope (f.cell config) ⟨f.handle config, f.sequence⟩).setLane f.slot
        ⟨(m.lanes f.slot).readPosition, (m.lanes f.slot).publishedPosition, f.position + 1,
          (m.lanes f.slot).publishing⟩).lanes f.slot = _ := Function.update_self ..
    have hcell : (m.setEnvelope (f.cell config) ⟨f.handle config, f.sequence⟩).cells
        (f.cell config) = _ := Function.update_self ..
    refine ⟨admissions, rfl, fun p hp ↦ Function.update_of_ne hp .., ?_, ?_, fun c ↦ ?_,
      fun h ↦ absurd hholds h, fun h ↦ absurd hholds h, ?_, ?_, rfl, .inl rfl, (if_pos rfl).symm,
      hon.length, ?_, ?_⟩
    · rw [hself]
    · rw [hself]
      refine ⟨hon.lane.read, hon.lane.published, fun h ↦ ?_⟩
      exact absurd (hpublishing.symm.trans h) (by decide)
    · by_cases hc : c = f.cell config
      · refine .inr ⟨?_, hc⟩
        rw [hpc]
        trivial
      · exact .inl (Function.update_of_ne hc ..)
    · intro _
      rw [hself]
      exact hpublishing
    · rw [hself]
      exact .inl rfl
    · rintro s rfl
      refine .inl ?_
      rw [PublishFrame.Carries, hpc]
      rfl
    · refine ⟨hclaimed.slot, ?_, ?_, ?_, ?_, hadmitted⟩
      · exact congrArg Lane.writePosition hself
      · exact (congrArg Lane.publishedPosition hself).trans hclaimed.published
      · refine hclaimed.room.trans_le (Nat.add_le_add_right ?_ _)
        exact (congrArg Lane.readPosition hself).symm.le
      · change CellOk conv config admissions
          ((m.setEnvelope (f.cell config) ⟨f.handle config, f.sequence⟩).cells (f.cell config))
          f.slot f.position
        rw [hcell]
        refine ⟨f.admission, f.record, hadmitted, rfl, rfl, hbuilt, hrecord, howned, ?_⟩
        rw [hgeneration]
        rfl
  · obtain ⟨hslot, hwrite, hpublished, hroom, hcellOk, hadmitted⟩ := hok
    cases hstep
    have hself : (m.setLane f.slot ⟨(m.lanes f.slot).readPosition, f.position + 1,
        (m.lanes f.slot).writePosition, (m.lanes f.slot).publishing⟩).lanes f.slot = _ :=
      Function.update_self ..
    refine ⟨admissions, rfl, fun p hp ↦ Function.update_of_ne hp .., ?_, ?_, fun _ ↦ .inl rfl,
      fun h ↦ absurd hholds h, fun h ↦ absurd hholds h, ?_, ?_, rfl, .inl rfl, (if_pos rfl).symm,
      hon.length, ?_, ?_⟩
    · rw [hself]
    · rw [hself]
      have hread := hon.lane.read
      exact ⟨by dsimp only; omega, by dsimp only; omega, fun _ ↦ hwrite⟩
    · intro _
      rw [hself]
      exact hpublishing
    · rw [hself, hpublished]
      exact .inr ⟨hpc, rfl, hcellOk⟩
    · rintro s rfl
      refine .inl ?_
      rw [PublishFrame.Carries, hpc]
      rfl
    · refine ⟨hslot, ?_, hadmitted⟩
      exact (congrArg Lane.writePosition hself).trans
        (hwrite.trans (congrArg Lane.publishedPosition hself).symm)
  · obtain ⟨hslot, hwrite, hadmitted⟩ := hok
    cases hstep
    refine ⟨admissions, .release hon hwrite hholds id rfl rfl rfl rfl rfl ?_ ?_⟩
    · rintro s ⟨⟩
      rw [PublishFrame.Carries, hpc]
    · rintro s ⟨⟩
      exact ⟨rfl, hadmitted⟩

theorem publishEffect :
    ∃ admissions', PublishEffect conv config m m' admissions admissions' f f' := by
  cases hpc : f.pc with
  | activeState =>
    exact ⟨_, publishEffect_enter hok hon hstep (.inl hpc)⟩
  | activeGeneration =>
    exact ⟨_, publishEffect_enter hok hon hstep (.inr (.inl hpc))⟩
  | testAndSet =>
    exact ⟨_, publishEffect_enter hok hon hstep (.inr (.inr hpc))⟩
  | loadPositions | clearFull | admission | recheckState | recheckGeneration | reserve _ =>
    exact ⟨_, publishEffect_claim hok hon hstep (by simp [hpc])⟩
  | begin | building | publishRecord =>
    exact ⟨_, publishEffect_build hok hon hstep (by simp [hpc])⟩
  | commit | finishCommit | storeRecord | emplace | finishEmplace =>
    exact ⟨_, publishEffect_commit hok hon hstep (by simp [hpc])⟩
  | fetchSequence | writeEnvelope | publishPosition | clear =>
    exact publishEffect_publish hok hon hstep (by simp [hpc])
  | unwind stages outcome =>
    exact ⟨_, publishEffect_unwind hok hon hstep hpc⟩
  | done result =>
    rw [publishStep, hpc] at hstep
    cases hstep

end Steps

/-- A call that no longer holds its lane has cleared the flag. -/
theorem publishStep_release (hok : f.Ok conv config m admissions) (hholds : f.pc.Holds)
    (hnot : ¬f'.pc.Holds) (hstep : publishStep conv config m f choice = some (m', f')) :
    (m'.lanes f.slot).publishing = false := by
  have hclear : ((m.setPublishing f.slot false).lanes f.slot).publishing = false := by
    simp only [KernelMemory.setPublishing, KernelMemory.setLane, Function.update_self]
  cases hpc : f.pc with
  | activeState | activeGeneration | testAndSet | done _ =>
    rw [hpc] at hholds
    exact hholds.elim
  | clearFull | clear =>
    rw [publishStep, hpc] at hstep
    cases hstep
    exact hclear
  | unwind stages outcome =>
    rw [PublishFrame.Ok, hpc] at hok
    rw [publishStep, hpc] at hstep
    rw [hpc] at hholds
    obtain ⟨-, l, rfl, -⟩ := hok.resolve_left hholds
    -- only the last stage leaves no stages behind
    cases l with
    | nil =>
      cases hstep
      exact hclear
    | cons stage l =>
      cases hstep
      exact absurd (List.append_ne_nil_of_right_ne_nil _ (List.cons_ne_nil _ _)) hnot
  | _ =>
    rw [publishStep, hpc] at hstep
    dsimp only at hstep
    repeat' split at hstep
    all_goals cases hstep
    all_goals first | exact absurd trivial hnot | exact absurd (List.cons_ne_nil _ _) hnot

/-! ## The rest of the kernel under a step of a publication -/

theorem PublishFrame.Ok.carries (h : f.Ok conv config m admissions) {s : ℕ} (hs : f.Carries s) :
    admissions[s]? = some f.admission := by
  unfold PublishFrame.Ok at h
  unfold PublishFrame.Carries at hs
  revert h hs
  cases f.pc with
  | writeEnvelope =>
    rintro h rfl
    exact h.2.2.2.2
  | publishPosition =>
    rintro h rfl
    exact h.2.2.2.2.2
  | clear =>
    rintro h rfl
    exact h.2.2
  | done result =>
    intro h hs
    obtain ⟨rfl, hadmitted⟩ := h s hs
    exact hadmitted
  | _ => exact fun _ hs ↦ hs.elim

/-- A publication does not touch the window. -/
theorem PublishEffect.window_cells
    (e : PublishEffect conv config m m' admissions admissions' f f')
    (hok : f.Ok conv config m admissions) {p position : ℕ}
    (hread : (m.lanes p).readPosition ≤ position)
    (hpublished : position < (m.lanes p).publishedPosition) :
    m'.cells (config.cellIndex p position) = m.cells (config.cellIndex p position) := by
  refine (e.cells _).resolve_right ?_
  rintro ⟨howns, hcell⟩
  obtain ⟨-, hposition, hroom⟩ := hok.ownsCell howns
  by_cases hp : p = f.slot
  · subst hp
    exact config.cellIndex_ne_of_lt (by omega) (by omega) hcell
  · exact config.cellIndex_ne_of_lane_ne hp hcell

theorem PublishEffect.read_eq (e : PublishEffect conv config m m' admissions admissions' f f')
    (p : ℕ) : (m'.lanes p).readPosition = (m.lanes p).readPosition := by
  by_cases hp : p = f.slot
  · rw [hp, e.read]
  · rw [e.lanes p hp]

theorem ConsumeFrame.Ok.mono {g : ConsumeFrame} (h : g.Ok config m)
    (hread : ∀ p, (m'.lanes p).readPosition = (m.lanes p).readPosition)
    (hpublished : ∀ p, (m.lanes p).publishedPosition ≤ (m'.lanes p).publishedPosition)
    (hcells : ∀ p position, (m.lanes p).readPosition ≤ position →
      position < (m.lanes p).publishedPosition →
      m'.cells (config.cellIndex p position) = m.cells (config.cellIndex p position))
    (hsequence : m'.nextSequence = m.nextSequence) : g.Ok config m' := by
  have hclaim : ∀ {c : ConsumptionClaim}, c.Ok config m → c.Ok config m' := fun hc ↦
    ⟨hc.lane, (hread _).trans hc.read, hc.published.trans_le (hpublished _)⟩
  have hcell : ∀ {c : ConsumptionClaim}, c.Ok config m →
      m'.cells (config.cellIndex c.lane c.readPosition) =
        m.cells (config.cellIndex c.lane c.readPosition) := fun hc ↦
    hcells _ _ hc.read.le hc.published
  unfold ConsumeFrame.Ok at h ⊢
  revert h
  cases g.pc with
  | scan _ _ | loadSequence _ | retire _ _ | done _ => exact id
  | readEnvelope lane position _ =>
    rintro ⟨hlane, hr, hp⟩
    exact ⟨hlane, (hread _).trans hr, hp.trans_le (hpublished _)⟩
  | validate c =>
    rintro ⟨hc, henvelope, hs⟩
    exact ⟨hclaim hc, henvelope.trans (by rw [hcell hc]), hs.trans hsequence.symm⟩
  | callback c view =>
    rintro ⟨hc, hindex, hview⟩
    refine ⟨hclaim hc, hindex, hview.trans ?_⟩
    rw [ConsumptionClaim.view, ConsumptionClaim.view, hindex, hcell hc]
  | releaseOwnership c | finishOwnership c | clearCell c | acknowledge c =>
    rintro ⟨hc, hindex⟩
    exact ⟨hclaim hc, hindex⟩

namespace Kernel

variable {k : Kernel} {t : ℕ}

/-- While another call holds its lane, a publication neither holds nor takes that lane, and leaves
the other call's cell alone. -/
theorem Inv.other_holder (h : k.Inv conv config) (hf : k.calls t = .publish f)
    (e : PublishEffect conv config k.memory m' k.admissions admissions' f f') {t' : ℕ}
    {g : PublishFrame} (ht : t' ≠ t) (hg : k.calls t' = .publish g) (hholds : g.pc.Holds) :
    (g.slot = f.slot → ¬f.pc.Holds ∧ ¬f'.pc.Holds) ∧
      m'.lanes g.slot = k.memory.lanes g.slot ∧
      m'.cells (g.cell config) = k.memory.cells (g.cell config) := by
  have hother : g.slot = f.slot → ¬f.pc.Holds ∧ ¬f'.pc.Holds := by
    intro hslot
    have hnot : ¬f.pc.Holds := fun hf' ↦ ht (h.unique t' t g f hg hf hholds hf' hslot)
    refine ⟨hnot, fun hf' ↦ ?_⟩
    have hfree := e.acquire hnot hf'
    rw [← hslot, h.holds t' g hg hholds] at hfree
    cases hfree
  refine ⟨hother, ?_, (e.cells _).resolve_right ?_⟩
  · by_cases hslot : g.slot = f.slot
    · obtain ⟨hnot, hnot'⟩ := hother hslot
      rw [hslot]
      exact e.idle hnot hnot'
    · exact e.lanes _ hslot
  · rintro ⟨hfowns, hcell⟩
    by_cases hslot : g.slot = f.slot
    · exact (hother hslot).1 hfowns.holds
    · exact config.cellIndex_ne_of_lane_ne hslot hcell

theorem Inv.publishEffect (h : k.Inv conv config) (hf : k.calls t = .publish f)
    (e : PublishEffect conv config k.memory m' k.admissions admissions' f f') :
    Inv conv config ⟨m', Function.update k.calls t (.publish f'), admissions', k.consumptions,
      k.returned⟩ := by
  have hok := h.frames t f hf
  have hread := e.read_eq
  have hpublished : ∀ p,
      (k.memory.lanes p).publishedPosition ≤ (m'.lanes p).publishedPosition := by
    intro p
    by_cases hp : p = f.slot
    · rw [hp]
      rcases e.published with heq | ⟨-, heq, -⟩ <;> omega
    · rw [e.lanes p hp]
  have hnotConsume : ∀ g, k.calls t ≠ .consume g := by
    intro g hg
    rw [hf] at hg
    cases hg
  refine { lanes := ?_, frames := ?_, holds := ?_, unique := ?_, window := ?_, consumer := ?_,
           admissions := e.length, order := h.order, consumed := ?_, consumptions := ?_,
           carried := ?_, returned := ?_, returnedOnce := h.returnedOnce }
  · intro p
    by_cases hp : p = f.slot
    · subst hp
      exact e.laneOk
    · change LaneOk _ (m'.lanes p)
      rw [e.lanes p hp]
      exact h.lanes p
  · intro t' g hg
    rcases update_eq_cases hg with ⟨-, heq⟩ | ⟨ht, hg⟩
    · cases heq
      exact e.ok
    · exact (h.frames t' g hg).mono (fun hholds ↦ .of_eq (h.other_holder hf e ht hg hholds).2.1)
        (fun howns ↦ (h.other_holder hf e ht hg howns.holds).2.2) e.grows
  · intro t' g hg hholds
    rcases update_eq_cases hg with ⟨-, heq⟩ | ⟨ht, hg⟩
    · cases heq
      rw [e.slot]
      exact e.publishing hholds
    · change (m'.lanes g.slot).publishing = true
      rw [(h.other_holder hf e ht hg hholds).2.1]
      exact h.holds t' g hg hholds
  · intro t₁ t₂ g₁ g₂ hg₁ hg₂ hholds₁ hholds₂ hslot
    rcases update_eq_cases hg₁ with ⟨hself₁, heq₁⟩ | ⟨ht₁, hold₁⟩ <;>
      rcases update_eq_cases hg₂ with ⟨hself₂, heq₂⟩ | ⟨ht₂, hold₂⟩
    · exact hself₁.trans hself₂.symm
    · cases heq₁
      exact absurd hholds₁ ((h.other_holder hf e ht₂ hold₂ hholds₂).1 (hslot.symm.trans e.slot)).2
    · cases heq₂
      exact absurd hholds₂ ((h.other_holder hf e ht₁ hold₁ hholds₁).1 (hslot.trans e.slot)).2
    · exact h.unique t₁ t₂ g₁ g₂ hold₁ hold₂ hholds₁ hholds₂ hslot
  · intro p position hpos hlt
    change (m'.lanes p).readPosition ≤ position at hpos
    change position < (m'.lanes p).publishedPosition at hlt
    rw [hread p] at hpos
    by_cases hold : position < (k.memory.lanes p).publishedPosition
    · refine (h.window p position hpos hold).imp
        (clearing_update fun g hg ↦ absurd hg (hnotConsume g)) fun hcell ↦ ?_
      change CellOk conv config admissions' (m'.cells _) p position
      rw [e.window_cells hok hpos hold]
      exact hcell.mono e.grows
    · -- the position that this step has published
      have hp : p = f.slot := by
        by_contra hp
        rw [e.lanes p hp] at hlt
        exact hold hlt
      subst hp
      rcases e.published with heq | ⟨-, heq, hcell⟩
      · omega
      · have hposition : position = (k.memory.lanes f.slot).publishedPosition := by omega
        rw [hposition]
        exact .inr hcell
  · intro t' g hg
    rcases update_eq_cases hg with ⟨-, heq⟩ | ⟨-, hg⟩
    · cases heq
    · obtain ⟨ht, hok'⟩ := h.consumer t' g hg
      exact ⟨ht, hok'.mono hread hpublished (fun p position ↦ e.window_cells hok)
        e.nextSequence⟩
  · have hsame := unacknowledged_update (.publish f')
      (fun g hg ↦ absurd hg (hnotConsume g)) nofun m' admissions' k.consumptions k.returned
    change k.consumptions.length = m'.nextSequence + _
    rw [hsame, e.nextSequence]
    exact h.consumed
  · exact fun c hc ↦ (h.consumptions c hc).mono e.grows
  · have hfresh : ∀ t' s, t' ≠ t → k.Carries t' s → f'.Carries s → False := by
      rintro t' s ht ⟨g, hg, hgs⟩ hs
      rcases e.carries s hs with hs | ⟨-, rfl⟩
      · exact ht (h.carried t' t s ⟨g, hg, hgs⟩ ⟨f, hf, hs⟩)
      · have hlt := (List.getElem?_eq_some_iff.mp ((h.frames t' g hg).carries hgs)).1
        exact lt_irrefl _ hlt
    rintro t₁ t₂ s ⟨g₁, hg₁, hs₁⟩ ⟨g₂, hg₂, hs₂⟩
    rcases update_eq_cases hg₁ with ⟨hself₁, heq₁⟩ | ⟨ht₁, hold₁⟩ <;>
      rcases update_eq_cases hg₂ with ⟨hself₂, heq₂⟩ | ⟨ht₂, hold₂⟩
    · exact hself₁.trans hself₂.symm
    · cases heq₁
      exact (hfresh t₂ s ht₂ ⟨g₂, hold₂, hs₂⟩ hs₁).elim
    · cases heq₂
      exact (hfresh t₁ s ht₁ ⟨g₁, hold₁, hs₁⟩ hs₂).elim
    · exact h.carried t₁ t₂ s ⟨g₁, hold₁, hs₁⟩ ⟨g₂, hold₂, hs₂⟩
  · intro x hx
    obtain ⟨hadm, hnot⟩ := h.returned x hx
    refine ⟨getElem?_mono e.grows hadm, ?_⟩
    rintro t' ⟨g, hg, hs⟩
    rcases update_eq_cases hg with ⟨-, heq⟩ | ⟨-, hg⟩
    · cases heq
      rcases e.carries _ hs with hs | ⟨-, hs⟩
      · exact hnot t ⟨f, hf, hs⟩
      · rw [hs] at hadm
        exact lt_irrefl _ (List.getElem?_eq_some_iff.mp hadm).1
    · exact hnot t' ⟨g, hg, hs⟩

theorem Inv.onLane (h : k.Inv conv config) (hf : k.calls t = .publish f) :
    f.OnLane config k.memory k.admissions :=
  ⟨h.lanes f.slot, h.holds t f hf, h.admissions⟩

theorem Inv.stepEffect (h : k.Inv conv config) (hf : k.calls t = .publish f)
    (hstep : publishStep conv config k.memory f choice = some (m', f')) :
    ∃ admissions', PublishEffect conv config k.memory m' k.admissions admissions' f f' :=
  Ulog.publishEffect (h.frames t f hf) (h.onLane hf) hstep

theorem Inv.publish (h : k.Inv conv config) (hf : k.calls t = .publish f)
    (hstep : publishStep conv config k.memory f choice = some (m', f')) :
    (k.afterPublish t f m' f').Inv conv config := by
  obtain ⟨admissions', e⟩ := h.stepEffect hf hstep
  have hinv := h.publishEffect hf e
  rw [e.history] at hinv
  exact hinv

end Kernel

end Ulog
