import Ulog.Producer.Kernel
import Ulog.Record.RoundTrip

/-!
# The invariant of the producer kernel

The `publishing` flag of a lane has at most one holder: the publication between its test-and-set
and its clear. The holder owns the cell at the lane's write position, which is outside the window
of published and unread positions, and `FrameOk` says, for each program counter, how much of the
Record is already there. Every cell in the window holds a complete admission, except the one that
the consumer is clearing.

The consumer changes only the window's first cell and the read position, so holders and consumer
never touch the same cell.
-/

namespace Ulog

variable {conv : Charconv} {config : ValidConfig} {m m' : KernelMemory}
  {admissions admissions' : List Admission} {f f' : PublishFrame}

/-! ## Publications -/

/-- The flag of the lane is set by this call and not yet cleared. -/
def PublishPc.Holds : PublishPc → Prop
  | .activeState | .activeGeneration | .testAndSet | .done _ => False
  | .unwind stages _ => stages ≠ []
  | _ => True

/-- The builder calls of an admission produce this slot and this Record. -/
def Admission.Builds (conv : Charconv) (config : ValidConfig) (a : Admission) (slot : RecordSlot)
    (record : StoredRecord) : Prop :=
  ∃ started finished,
    a.initial.begin config.maximumRecordBytes a.level a.source a.timestamp = some started ∧
      (started.calls conv a.calls).publish = (finished, some record) ∧ slot = finished.slot

/-- The cell holds the complete admission of its position. -/
def CellOk (conv : Charconv) (config : ValidConfig) (admissions : List Admission)
    (cell : KernelCell) (p position : ℕ) : Prop :=
  ∃ a record, admissions[cell.envelope.admissionSequence]? = some a ∧ a.lane = p ∧
    a.position = position ∧ a.Builds conv config cell.slot record ∧ cell.record = some record ∧
    cell.ownership.retained = some (record.serializedBytes, record.accountingChargeBytes) ∧
    cell.envelope.record = ⟨config.cellIndex p position, p, cell.generation,
      record.serializedBytes, record.accountingChargeBytes⟩

namespace PublishFrame

/-- The call owns the cell at its position, the lane's next one. -/
structure Claimed (config : ValidConfig) (m : KernelMemory) (f : PublishFrame) : Prop where
  slot : f.slot < config.producerSlots
  write : (m.lanes f.slot).writePosition = f.position
  published : (m.lanes f.slot).publishedPosition = f.position
  room : f.position < (m.lanes f.slot).readPosition + config.laneCapacity f.slot

/-- The builder has run the recorded calls. -/
def Building (conv : Charconv) (config : ValidConfig) (m : KernelMemory) (f : PublishFrame) :
    Prop :=
  ∃ started,
    f.initial.begin config.maximumRecordBytes f.level f.source f.timestamp = some started ∧
      (⟨(m.cells (f.cell config)).slot, f.writer⟩ : RecordBuild) = started.calls conv f.calls

/-- The Record is in the cell's slot. -/
def Built (conv : Charconv) (config : ValidConfig) (m : KernelMemory) (f : PublishFrame) : Prop :=
  f.admission.Builds conv config (m.cells (f.cell config)).slot f.record

/-- The handle is an ownership of the Record's bytes. -/
def Owned (f : PublishFrame) (h : Handle) : Prop :=
  h.retained = some (f.record.serializedBytes, f.record.accountingChargeBytes)

/-- The Record and its generation are stored beside the slot. -/
def Stored (config : ValidConfig) (m : KernelMemory) (f : PublishFrame) : Prop :=
  (m.cells (f.cell config)).record = some f.record ∧
    (m.cells (f.cell config)).generation = f.recordGeneration

/-- The call's sequence is that of its admission. -/
def Admitted (admissions : List Admission) (f : PublishFrame) : Prop :=
  admissions[f.sequence]? = some f.admission

/-- What holds of a call at its program counter. -/
def Ok (conv : Charconv) (config : ValidConfig) (m : KernelMemory) (admissions : List Admission)
    (f : PublishFrame) : Prop :=
  match f.pc with
  | .activeState => True
  | .activeGeneration | .testAndSet => f.slot < config.producerSlots
  | .loadPositions | .clearFull =>
    f.slot < config.producerSlots ∧
      (m.lanes f.slot).writePosition = (m.lanes f.slot).publishedPosition
  | .admission | .recheckState | .recheckGeneration | .reserve _ | .begin => f.Claimed config m
  | .building | .publishRecord => f.Claimed config m ∧ f.Building conv config m
  | .commit | .finishCommit => f.Claimed config m ∧ f.Built conv config m
  | .storeRecord => f.Claimed config m ∧ f.Built conv config m ∧ f.Owned f.ownership
  | .emplace | .finishEmplace =>
    f.Claimed config m ∧ f.Built conv config m ∧ f.Owned f.ownership ∧ f.Stored config m
  | .fetchSequence =>
    f.Claimed config m ∧ f.Built conv config m ∧
      f.Owned (m.cells (f.cell config)).ownership ∧ f.Stored config m
  | .writeEnvelope =>
    f.Claimed config m ∧ f.Built conv config m ∧
      f.Owned (m.cells (f.cell config)).ownership ∧ f.Stored config m ∧ f.Admitted admissions
  | .publishPosition =>
    f.slot < config.producerSlots ∧ (m.lanes f.slot).writePosition = f.position + 1 ∧
      (m.lanes f.slot).publishedPosition = f.position ∧
      f.position < (m.lanes f.slot).readPosition + config.laneCapacity f.slot ∧
      CellOk conv config admissions (m.cells (f.cell config)) f.slot f.position ∧
      f.Admitted admissions
  | .clear =>
    f.slot < config.producerSlots ∧
      (m.lanes f.slot).writePosition = (m.lanes f.slot).publishedPosition ∧
      f.Admitted admissions
  | .unwind stages _ =>
    stages = [] ∨ f.Claimed config m ∧ ∃ l, stages = l ++ [.clear] ∧ Unwind.clear ∉ l
  | .done result =>
    ∀ s, result.bind (·.admissionSequence) = some s → s = f.sequence ∧ f.Admitted admissions

/-- The call has got this sequence and will return it. -/
def Carries (f : PublishFrame) (s : ℕ) : Prop :=
  match f.pc with
  | .writeEnvelope | .publishPosition | .clear => f.sequence = s
  | .done result => result.bind (·.admissionSequence) = some s
  | _ => False

end PublishFrame

/-! ## The window and the consumer -/

/-- The positions of a lane are in order; without a holder nothing is half published. -/
structure LaneOk (capacity : ℕ) (lane : Lane) : Prop where
  read : lane.readPosition ≤ lane.publishedPosition
  published : lane.publishedPosition ≤ lane.readPosition + capacity
  write : lane.publishing = false → lane.writePosition = lane.publishedPosition

/-- The consumer is at the first unread position of a lane. -/
structure ConsumptionClaim.Ok (config : ValidConfig) (m : KernelMemory) (c : ConsumptionClaim) :
    Prop where
  lane : c.lane < config.producerSlots
  read : (m.lanes c.lane).readPosition = c.readPosition
  published : c.readPosition < (m.lanes c.lane).publishedPosition

/-- The claim whose cell is being cleared. -/
def ConsumePc.clearing : ConsumePc → Option ConsumptionClaim
  | .releaseOwnership claim | .finishOwnership claim | .clearCell claim | .acknowledge claim =>
    some claim
  | _ => none

/-- What holds of a `TryConsume` call at its program counter. -/
def ConsumeFrame.Ok (config : ValidConfig) (m : KernelMemory) (f : ConsumeFrame) : Prop :=
  match f.pc with
  | .scan .. | .loadSequence _ | .retire .. | .done _ => True
  | .readEnvelope lane readPosition _ =>
    lane < config.producerSlots ∧ (m.lanes lane).readPosition = readPosition ∧
      readPosition < (m.lanes lane).publishedPosition
  | .validate claim =>
    claim.Ok config m ∧
      claim.envelope = (m.cells (config.cellIndex claim.lane claim.readPosition)).envelope ∧
      claim.envelope.admissionSequence = m.nextSequence
  | .callback claim view =>
    claim.Ok config m ∧ claim.cell = config.cellIndex claim.lane claim.readPosition ∧
      view = claim.view m
  | .releaseOwnership claim | .finishOwnership claim | .clearCell claim | .acknowledge claim =>
    claim.Ok config m ∧ claim.cell = config.cellIndex claim.lane claim.readPosition

/-- The sequence that the call has consumed and not yet acknowledged. -/
def ConsumePc.consumed : ConsumePc → ℕ
  | .callback .. | .releaseOwnership _ | .finishOwnership _ | .clearCell _ | .acknowledge _ => 1
  | _ => 0

/-- A consumption with a callback shows what its admission built. -/
def Consumption.Ok (conv : Charconv) (config : ValidConfig) (admissions : List Admission)
    (c : Consumption) : Prop :=
  ∃ a slot record, admissions[c.sequence]? = some a ∧ a.Builds conv config slot record ∧
    (c.hasConsumer → c.view =
      some ⟨slot.storage, record.serializedBytes, record.accountingChargeBytes⟩)

namespace Kernel

/-- The cell that the consumer is clearing. -/
def Clearing (k : Kernel) (p position : ℕ) : Prop :=
  ∃ f claim, k.calls consumerThread = .consume f ∧ f.pc.clearing = some claim ∧
    claim.lane = p ∧ claim.readPosition = position

/-- How many consumptions the consumer has not acknowledged yet. -/
def unacknowledged (k : Kernel) : ℕ :=
  match k.calls consumerThread with
  | .consume f => f.pc.consumed
  | _ => 0

/-- The sequence is held by a call that has not returned it yet. -/
def Carries (k : Kernel) (t s : ℕ) : Prop := ∃ f, k.calls t = .publish f ∧ f.Carries s

/-- The invariant of the kernel. -/
structure Inv (conv : Charconv) (config : ValidConfig) (k : Kernel) : Prop where
  lanes : ∀ p, LaneOk (config.laneCapacity p) (k.memory.lanes p)
  frames : ∀ t f, k.calls t = .publish f → f.Ok conv config k.memory k.admissions
  holds : ∀ t f, k.calls t = .publish f → f.pc.Holds →
    (k.memory.lanes f.slot).publishing = true
  unique : ∀ t t' f f', k.calls t = .publish f → k.calls t' = .publish f' → f.pc.Holds →
    f'.pc.Holds → f.slot = f'.slot → t = t'
  window : ∀ p position, (k.memory.lanes p).readPosition ≤ position →
    position < (k.memory.lanes p).publishedPosition → k.Clearing p position ∨
      CellOk conv config k.admissions (k.memory.cells (config.cellIndex p position)) p position
  consumer : ∀ t f, k.calls t = .consume f → t = consumerThread ∧ f.Ok config k.memory
  admissions : k.admissions.length = k.memory.nextAdmissionSequence
  order : k.consumptions.map (·.sequence) = List.range k.consumptions.length
  consumed : k.consumptions.length = k.memory.nextSequence + k.unacknowledged
  consumptions : ∀ c ∈ k.consumptions, c.Ok conv config k.admissions
  carried : ∀ t t' s, k.Carries t s → k.Carries t' s → t = t'
  returned : ∀ x ∈ k.returned, k.admissions[x.1]? = some x.2 ∧ ∀ t, ¬k.Carries t x.1
  returnedOnce : (k.returned.map (·.1)).Nodup

end Kernel

/-! ## What other steps may change under a call -/

/-- Lanes, cells and sequences are as they were. -/
structure SameIngress (m m' : KernelMemory) : Prop where
  lanes : m'.lanes = m.lanes
  cells : m'.cells = m.cells
  nextSequence : m'.nextSequence = m.nextSequence
  nextAdmissionSequence : m'.nextAdmissionSequence = m.nextAdmissionSequence

/-- The call owns the cell at its position. -/
def PublishPc.OwnsCell : PublishPc → Prop
  | .loadPositions | .clearFull | .clear => False
  | pc => pc.Holds

theorem PublishPc.OwnsCell.holds {pc : PublishPc} (h : pc.OwnsCell) : pc.Holds := by
  cases pc <;> first | exact h | exact h.elim

theorem getElem?_mono {α : Type*} {l l' : List α} {s : ℕ} {a : α} (h : l <+: l')
    (hs : l[s]? = some a) : l'[s]? = some a := by
  obtain ⟨t, rfl⟩ := h
  rw [List.getElem?_append_left (List.getElem?_eq_some_iff.mp hs).1]
  exact hs

theorem CellOk.mono {cell : KernelCell} {p position : ℕ}
    (h : CellOk conv config admissions cell p position)
    (hadm : admissions <+: admissions') :
    CellOk conv config admissions' cell p position := by
  obtain ⟨a, record, ha, hrest⟩ := h
  exact ⟨a, record, getElem?_mono hadm ha, hrest⟩

theorem Consumption.Ok.mono {c : Consumption} (h : c.Ok conv config admissions)
    (hadm : admissions <+: admissions') :
    c.Ok conv config admissions' := by
  obtain ⟨a, slot, record, ha, hrest⟩ := h
  exact ⟨a, slot, record, getElem?_mono hadm ha, hrest⟩

namespace PublishFrame

/-- The write and published positions stand still; the consumer may have read on. -/
structure LaneKept (lane lane' : Lane) : Prop where
  write : lane'.writePosition = lane.writePosition
  published : lane'.publishedPosition = lane.publishedPosition
  read : lane.readPosition ≤ lane'.readPosition

theorem LaneKept.of_eq {lane lane' : Lane} (h : lane' = lane) : LaneKept lane lane' := by
  subst h
  exact ⟨rfl, rfl, le_rfl⟩

theorem Claimed.mono (h : f.Claimed config m)
    (hlane : LaneKept (m.lanes f.slot) (m'.lanes f.slot)) : f.Claimed config m' where
  slot := h.slot
  write := hlane.write.trans h.write
  published := hlane.published.trans h.published
  room := h.room.trans_le (Nat.add_le_add_right hlane.read _)

/-- A call that owns its cell is at the lane's next position, less than a capacity ahead of the
reader. -/
theorem Ok.ownsCell (h : f.Ok conv config m admissions) (hpc : f.pc.OwnsCell) :
    f.slot < config.producerSlots ∧ (m.lanes f.slot).publishedPosition = f.position ∧
      f.position < (m.lanes f.slot).readPosition + config.laneCapacity f.slot := by
  have hclaimed : ∀ {P : Prop}, f.Claimed config m ∧ P → f.slot < config.producerSlots ∧
      (m.lanes f.slot).publishedPosition = f.position ∧
      f.position < (m.lanes f.slot).readPosition + config.laneCapacity f.slot :=
    fun hc ↦ ⟨hc.1.slot, hc.1.published, hc.1.room⟩
  unfold Ok at h
  revert h hpc
  cases f.pc with
  | activeState | activeGeneration | testAndSet | loadPositions | clearFull | clear | done _ =>
    exact fun _ hpc ↦ hpc.elim
  | admission | recheckState | recheckGeneration | reserve _ | begin =>
    exact fun h _ ↦ hclaimed ⟨h, trivial⟩
  | building | publishRecord | commit | finishCommit | storeRecord | emplace | finishEmplace
  | fetchSequence | writeEnvelope => exact fun h _ ↦ hclaimed h
  | publishPosition => exact fun h _ ↦ ⟨h.1, h.2.2.1, h.2.2.2.1⟩
  | unwind stages _ =>
    rintro (hnil | hc) hpc
    · exact absurd hnil hpc
    · exact hclaimed hc

theorem Ok.slot_lt (hok : f.Ok conv config m admissions) (hactive : f.pc ≠ .activeState)
    (hunwind : ∀ outcome, f.pc ≠ .unwind [] outcome) (hdone : ∀ result, f.pc ≠ .done result) :
    f.slot < config.producerSlots := by
  by_cases howns : f.pc.OwnsCell
  · exact (hok.ownsCell howns).1
  · unfold Ok at hok
    revert hok hactive hunwind hdone howns
    cases f.pc with
    | activeState => exact fun _ h ↦ absurd rfl h
    | activeGeneration | testAndSet => exact fun hok _ _ _ _ ↦ hok
    | loadPositions | clearFull | clear => exact fun hok _ _ _ _ ↦ hok.1
    | done result => exact fun _ _ _ h ↦ absurd rfl (h result)
    | unwind stages outcome =>
      intro _ _ hunwind _ howns
      have hnil : stages = [] := by
        by_contra hne
        exact howns hne
      exact absurd (by rw [hnil]) (hunwind outcome)
    | _ => exact fun _ _ _ _ h ↦ absurd trivial h

/-- A step that leaves the lane's positions and the call's cell alone. -/
theorem Ok.mono (h : f.Ok conv config m admissions)
    (hlane : f.pc.Holds → LaneKept (m.lanes f.slot) (m'.lanes f.slot))
    (hcell : f.pc.OwnsCell → m'.cells (f.cell config) = m.cells (f.cell config))
    (hadm : admissions <+: admissions') :
    f.Ok conv config m' admissions' := by
  unfold Ok at h ⊢
  revert h hlane hcell
  cases f.pc with
  | activeState | activeGeneration | testAndSet => exact fun h _ _ ↦ h
  | loadPositions | clearFull =>
    intro h hlane _
    have hl := hlane trivial
    exact ⟨h.1, by rw [hl.write, hl.published, h.2]⟩
  | admission | recheckState | recheckGeneration | reserve _ | begin =>
    exact fun h hlane _ ↦ h.mono (hlane trivial)
  | building | publishRecord =>
    intro h hlane hcell
    refine ⟨h.1.mono (hlane trivial), ?_⟩
    rw [Building, hcell trivial]
    exact h.2
  | commit | finishCommit =>
    intro h hlane hcell
    refine ⟨h.1.mono (hlane trivial), ?_⟩
    rw [Built, hcell trivial]
    exact h.2
  | storeRecord =>
    intro h hlane hcell
    refine ⟨h.1.mono (hlane trivial), ?_⟩
    rw [Built, hcell trivial]
    exact h.2
  | emplace | finishEmplace =>
    intro h hlane hcell
    refine ⟨h.1.mono (hlane trivial), ?_⟩
    rw [Built, Stored, hcell trivial]
    exact h.2
  | fetchSequence =>
    intro h hlane hcell
    refine ⟨h.1.mono (hlane trivial), ?_⟩
    rw [Built, Stored, hcell trivial]
    exact h.2
  | writeEnvelope =>
    intro h hlane hcell
    refine ⟨h.1.mono (hlane trivial), ?_⟩
    rw [Built, Stored, hcell trivial]
    exact ⟨h.2.1, h.2.2.1, h.2.2.2.1, getElem?_mono hadm h.2.2.2.2⟩
  | publishPosition =>
    intro h hlane hcell
    have hl := hlane trivial
    rw [hcell trivial, hl.write, hl.published]
    exact ⟨h.1, h.2.1, h.2.2.1, h.2.2.2.1.trans_le (Nat.add_le_add_right hl.read _),
      h.2.2.2.2.1.mono hadm, getElem?_mono hadm h.2.2.2.2.2⟩
  | clear =>
    intro h hlane _
    have hl := hlane trivial
    exact ⟨h.1, by rw [hl.write, hl.published, h.2.1], getElem?_mono hadm h.2.2⟩
  | unwind stages _ =>
    rintro (hnil | ⟨hc, hl⟩) hlane -
    · exact .inl hnil
    · refine .inr ⟨hc.mono (hlane ?_), hl⟩
      obtain ⟨l, rfl, -⟩ := hl
      exact List.append_ne_nil_of_right_ne_nil _ (List.cons_ne_nil _ _)
  | done result => exact fun h _ _ s hs ↦ ⟨(h s hs).1, getElem?_mono hadm (h s hs).2⟩

end PublishFrame

/-! ## Replacing the call of one thread -/

namespace Kernel

variable {k : Kernel} {t : ℕ} {call : KernelCall}

theorem unacknowledged_update (call : KernelCall)
    (hold : ∀ g, k.calls t = .consume g → g.pc.consumed = 0)
    (hnew : ∀ g, call = .consume g → g.pc.consumed = 0) (m' : KernelMemory)
    (admissions' : List Admission) (consumptions' : List Consumption)
    (returned' : List (ℕ × Admission)) :
    unacknowledged ⟨m', Function.update k.calls t call, admissions', consumptions', returned'⟩ =
      k.unacknowledged := by
  have hzero : ∀ {c : KernelCall}, (∀ g, c = .consume g → g.pc.consumed = 0) →
      (match c with
        | .consume g => g.pc.consumed
        | _ => 0) = 0 := by
    intro c hc
    cases c with
    | consume g => exact hc g rfl
    | _ => rfl
  unfold unacknowledged
  by_cases ht : consumerThread = t
  · subst ht
    simp only [Function.update_self]
    rw [hzero hnew, hzero hold]
  · simp only [Function.update_of_ne ht]

theorem clearing_update {m' : KernelMemory} {admissions' : List Admission}
    {consumptions' : List Consumption} {returned' : List (ℕ × Admission)}
    (hold : ∀ g, k.calls t = .consume g → g.pc.clearing = none) {p position : ℕ}
    (h : k.Clearing p position) :
    Clearing ⟨m', Function.update k.calls t call, admissions', consumptions', returned'⟩ p
      position := by
  obtain ⟨g, claim, hg, hclaim, hrest⟩ := h
  refine ⟨g, claim, ?_, hclaim, hrest⟩
  refine (Function.update_of_ne ?_ ..).trans hg
  rintro rfl
  rw [hold g hg] at hclaim
  cases hclaim

end Kernel

end Ulog
