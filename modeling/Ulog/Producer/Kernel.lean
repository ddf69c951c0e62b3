import Ulog.Credit.Ledger
import Ulog.Foundation.Machine
import Ulog.Producer.Lanes
import Ulog.Record.View

/-!
# The producer kernel

The shared memory of the kernel, and its calls as frames that advance one step at a time. A step is
one atomic operation on a shared word, or the plain accesses between two of them. Several threads
run `TryPublishSlot`, one thread runs `TryConsume`, and any thread may register or retire a
producer, close admission or ask whether the kernel is quiescent.

What a thread keeps in locals is part of its frame. Choices that the program does not make itself
(the clock, the builder, a compare-exchange that fails for no reason, the order in which the two
operands of a comparison are loaded) come in with the step. Positions, sequences and generations are
counters that no run brings to overflow, so they are plain numbers.
-/

namespace Ulog

open ByteMemory

variable {action : KernelAction} {t : ℕ}

/-! ## Memory -/

inductive ProducerSlotState where
  | free
  | active
  | retiring
  | reconciling
  deriving DecidableEq, Repr

/-- `Impl::ProducerControl`. -/
structure ProducerControl where
  generation : ℕ := 1
  state : ProducerSlotState := .free
  deriving DecidableEq, Repr

/-- `Impl::ProducerCounters`. -/
structure ProducerCounters where
  rejectedLaneFull : ℕ := 0
  rejectedBudget : ℕ := 0
  abandonedBuilds : ℕ := 0
  invalidRecords : ℕ := 0
  truncatedRecords : ℕ := 0
  deriving DecidableEq, Repr

/-- The changing part of `ProducerLanes::Lane`. -/
structure Lane where
  readPosition : ℕ := 0
  publishedPosition : ℕ := 0
  writePosition : ℕ := 0
  publishing : Bool := false
  deriving DecidableEq, Repr

structure RecordHandle where
  slotIndex : ℕ := 0
  producerIndex : ℕ := 0
  generation : ℕ := 0
  serializedBytes : ℕ := 0
  accountingChargeBytes : ℕ := 0
  deriving DecidableEq, Repr

/-- `ProducerLanes::IsValid`. -/
def RecordHandle.isValid (r : RecordHandle) : Bool :=
  r.serializedBytes != 0 && r.serializedBytes ≤ r.accountingChargeBytes &&
    r.slotIndex < maximumIngressCells && r.producerIndex < maximumProducerSlots

structure Envelope where
  record : RecordHandle := {}
  admissionSequence : ℕ := 0
  deriving DecidableEq, Repr

/-- Everything the kernel keeps for one ingress cell. No Record means a null storage pointer; the
ownership is `empty` when the optional holds nothing. -/
structure KernelCell where
  envelope : Envelope := {}
  slot : RecordSlot := { storage := fun _ ↦ 0, state := .reset }
  generation : ℕ := 0
  record : Option StoredRecord := none
  ownership : Handle := .empty

structure KernelMemory where
  controls : ℕ → ProducerControl := fun _ ↦ {}
  counters : ℕ → ProducerCounters := fun _ ↦ {}
  missingProducers : ℕ := 0
  lanes : ℕ → Lane := fun _ ↦ {}
  ledger : CreditLedger
  cells : ℕ → KernelCell := fun _ ↦ {}
  admissionOpen : Bool := true
  nextAdmissionSequence : ℕ := 0
  nextSequence : ℕ := 0
  claimActive : Bool := false
  consumedRecords : ℕ := 0
  validationErrors : ℕ := 0

namespace KernelMemory

def setControl (m : KernelMemory) (slot : ℕ) (c : ProducerControl) : KernelMemory :=
  { m with controls := Function.update m.controls slot c }

def setState (m : KernelMemory) (slot : ℕ) (state : ProducerSlotState) : KernelMemory :=
  m.setControl slot ⟨(m.controls slot).generation, state⟩

def setLane (m : KernelMemory) (slot : ℕ) (lane : Lane) : KernelMemory :=
  { m with lanes := Function.update m.lanes slot lane }

def setPublishing (m : KernelMemory) (slot : ℕ) (publishing : Bool) : KernelMemory :=
  m.setLane slot
    ⟨(m.lanes slot).readPosition, (m.lanes slot).publishedPosition, (m.lanes slot).writePosition,
      publishing⟩

def setCell (m : KernelMemory) (cell : ℕ) (c : KernelCell) : KernelMemory :=
  { m with cells := Function.update m.cells cell c }

def setLedger (m : KernelMemory) (l : CreditLedger) : KernelMemory := { m with ledger := l }

/-- Bump one counter of a slot. -/
def count (m : KernelMemory) (slot : ℕ) (f : ProducerCounters → ProducerCounters) : KernelMemory :=
  { m with counters := Function.update m.counters slot (f (m.counters slot)) }

def countMissing (m : KernelMemory) : KernelMemory :=
  { m with missingProducers := m.missingProducers + 1 }

end KernelMemory

def ProducerCounters.laneFull (c : ProducerCounters) : ProducerCounters :=
  { c with rejectedLaneFull := c.rejectedLaneFull + 1 }

def ProducerCounters.budget (c : ProducerCounters) : ProducerCounters :=
  { c with rejectedBudget := c.rejectedBudget + 1 }

def ProducerCounters.abandoned (c : ProducerCounters) : ProducerCounters :=
  { c with abandonedBuilds := c.abandonedBuilds + 1 }

def ProducerCounters.invalid (c : ProducerCounters) : ProducerCounters :=
  { c with invalidRecords := c.invalidRecords + 1 }

def ProducerCounters.truncated (c : ProducerCounters) (truncated : Bool) : ProducerCounters :=
  if truncated then { c with truncatedRecords := c.truncatedRecords + 1 } else c

/-- The retained and charged bytes of an `Ownership`. -/
def Handle.retained : Handle → Option (ℕ × ℕ)
  | .ownership _ retained charge => some (retained, charge)
  | _ => none

/-! ## Choices from outside -/

inductive BuildStatus where
  | complete
  | invalid
  /-- the builder throws -/
  | thrown
  deriving DecidableEq, Repr

inductive BuildChoice where
  | call (call : RecordCall)
  | finish (status : BuildStatus)
  deriving DecidableEq, Repr

/-- What a step may take from outside the program. -/
structure StepChoice where
  spurious : Bool := false
  timestamp : Int64 := 0
  build : BuildChoice := .finish .complete
  readFirst : Bool := false
  deriving DecidableEq, Repr

/-! ## TryPublishSlot -/

inductive PublishOutcome where
  | accepted
  | filtered
  | noProducerSlot
  | laneFull
  | budgetExhausted
  | invalidRecord
  deriving DecidableEq, Repr

structure PublishResult where
  outcome : PublishOutcome := .invalidRecord
  admissionSequence : Option ℕ := none
  truncated : Bool := false
  deriving DecidableEq, Repr

/-- The steps of leaving `TryPublishSlot` early: explicit cleanup first, then the destructors of the
locals, last of them the lane claim. -/
inductive Unwind where
  | dropCellOwnership
  | finishCellOwnership
  | dropRecord
  | resetSlot
  | dropOwnership
  | finishOwnership
  | dropWriter
  | dropReservation
  | finishReservation
  | clear
  deriving DecidableEq, Repr

inductive PublishPc where
  /-- `IsActive`: the state -/
  | activeState
  /-- `IsActive`: the generation -/
  | activeGeneration
  | testAndSet
  | loadPositions
  /-- the lane is full -/
  | clearFull
  | admission
  /-- `IsActive` again, after the lane has been claimed -/
  | recheckState
  | recheckGeneration
  | reserve (call : ReserveCall)
  | begin
  | building
  | publishRecord
  | commit
  | finishCommit
  | storeRecord
  /-- `emplace` of the ownership; it first releases one that is there -/
  | emplace
  | finishEmplace
  | fetchSequence
  | writeEnvelope
  | publishPosition
  | clear
  /-- leaving early, with an outcome or with the builder's exception -/
  | unwind (stages : List Unwind) (outcome : Option PublishOutcome)
  | done (result : Option PublishResult)
  deriving DecidableEq, Repr

/-- A `TryPublishSlot` call: its arguments, its locals, and, for the record of the run, the cell's
slot before `Begin` and the builder calls so far. -/
structure PublishFrame where
  slot : ℕ
  generation : ℕ
  level : Level
  source : SourceLocation
  hasOperation : Bool := true
  pc : PublishPc := .activeState
  position : ℕ := 0
  reservation : Handle := .empty
  ownership : Handle := .empty
  timestamp : Int64 := 0
  writer : RecordWriter := {}
  record : StoredRecord := {}
  recordGeneration : ℕ := 0
  sequence : ℕ := 0
  initial : RecordSlot := { storage := fun _ ↦ 0, state := .reset }
  calls : List RecordCall := []

/-- `PublicationClaim::cell_index`. -/
def PublishFrame.cell (config : ValidConfig) (f : PublishFrame) : ℕ :=
  config.cellIndex f.slot f.position

def PublishFrame.goto (f : PublishFrame) (pc : PublishPc) : PublishFrame := { f with pc := pc }

/-- Leave early. -/
def PublishFrame.reject (f : PublishFrame) (stages : List Unwind) (outcome : PublishOutcome) :
    PublishFrame := f.goto (.unwind stages (some outcome))

/-- Return at once. -/
def PublishFrame.answer (f : PublishFrame) (outcome : PublishOutcome) : PublishFrame :=
  f.goto (.done (some { outcome := outcome }))

/-- The handle that is published with the Record. -/
def PublishFrame.handle (config : ValidConfig) (f : PublishFrame) : RecordHandle where
  slotIndex := f.cell config
  producerIndex := f.slot
  generation := f.recordGeneration
  serializedBytes := f.record.serializedBytes
  accountingChargeBytes := f.record.accountingChargeBytes

/-- The destructors of writer, reservation and lane claim. -/
def dropAll : List Unwind := [.dropWriter, .dropReservation, .finishReservation, .clear]

namespace KernelMemory

def setSlot (m : KernelMemory) (cell : ℕ) (slot : RecordSlot) : KernelMemory :=
  m.setCell cell
    ⟨(m.cells cell).envelope, slot, (m.cells cell).generation, (m.cells cell).record,
      (m.cells cell).ownership⟩

def setOwnership (m : KernelMemory) (cell : ℕ) (ownership : Handle) : KernelMemory :=
  m.setCell cell
    ⟨(m.cells cell).envelope, (m.cells cell).slot, (m.cells cell).generation,
      (m.cells cell).record, ownership⟩

def setRecord (m : KernelMemory) (cell generation : ℕ) (record : Option StoredRecord) :
    KernelMemory :=
  m.setCell cell
    ⟨(m.cells cell).envelope, (m.cells cell).slot, generation, record, (m.cells cell).ownership⟩

def setEnvelope (m : KernelMemory) (cell : ℕ) (envelope : Envelope) : KernelMemory :=
  m.setCell cell
    ⟨envelope, (m.cells cell).slot, (m.cells cell).generation, (m.cells cell).record,
      (m.cells cell).ownership⟩

end KernelMemory

section Publish

variable (conv : Charconv) (config : ValidConfig)

/-- One step of leaving early. -/
def unwindStep (m : KernelMemory) (f : PublishFrame) : Unwind → KernelMemory × PublishFrame
  | .dropCellOwnership =>
    let (l, h) := m.ledger.startRelease (m.cells (f.cell config)).ownership
    ((m.setLedger l).setOwnership (f.cell config) h, f)
  | .finishCellOwnership =>
    let (l, h) := m.ledger.finishHandle (m.cells (f.cell config)).ownership
    ((m.setLedger l).setOwnership (f.cell config) h, f)
  | .dropRecord => (m.setRecord (f.cell config) (m.cells (f.cell config)).generation none, f)
  | .resetSlot => (m.setSlot (f.cell config) (m.cells (f.cell config)).slot.reset, f)
  | .dropOwnership =>
    let (l, h) := m.ledger.startRelease f.ownership
    (m.setLedger l, { f with ownership := h })
  | .finishOwnership =>
    let (l, h) := m.ledger.finishHandle f.ownership
    (m.setLedger l, { f with ownership := h })
  | .dropWriter =>
    let b := RecordBuild.abandon ⟨(m.cells (f.cell config)).slot, f.writer⟩
    (m.setSlot (f.cell config) b.slot, { f with writer := b.writer })
  | .dropReservation =>
    let (l, h) := m.ledger.startRelease f.reservation
    (m.setLedger l, { f with reservation := h })
  | .finishReservation =>
    let (l, h) := m.ledger.finishHandle f.reservation
    (m.setLedger l, { f with reservation := h })
  | .clear => (m.setPublishing f.slot false, f)

/-- The branch of a failed `IsActive` or of closed admission after the lane has been claimed. -/
def rejectMissing (m : KernelMemory) (f : PublishFrame) : KernelMemory × PublishFrame :=
  (m.countMissing, f.reject [.clear] .noProducerSlot)

def rejectInvalid (m : KernelMemory) (f : PublishFrame) (stages : List Unwind) :
    KernelMemory × PublishFrame :=
  (m.count f.slot ProducerCounters.invalid, f.reject stages .invalidRecord)

/-- One step of `TryPublishSlot`. -/
def publishStep (m : KernelMemory) (f : PublishFrame) (choice : StepChoice) :
    Option (KernelMemory × PublishFrame) :=
  match f.pc with
  | .activeState =>
    if f.slot < config.producerSlots ∧ (m.controls f.slot).state = .active then
      some (m, f.goto .activeGeneration)
    else some (m.countMissing, f.answer .noProducerSlot)
  | .activeGeneration =>
    if (m.controls f.slot).generation = f.generation then some (m, f.goto .testAndSet)
    else some (m.countMissing, f.answer .noProducerSlot)
  | .testAndSet =>
    if (m.lanes f.slot).publishing then
      some (m.count f.slot ProducerCounters.laneFull, f.answer .laneFull)
    else some (m.setPublishing f.slot true, f.goto .loadPositions)
  | .loadPositions =>
    let lane := m.lanes f.slot
    if config.laneCapacity f.slot ≤ lane.writePosition - lane.readPosition then
      some (m, f.goto .clearFull)
    else some (m, { f with position := lane.writePosition, pc := .admission })
  | .clearFull =>
    some ((m.setPublishing f.slot false).count f.slot ProducerCounters.laneFull,
      f.answer .laneFull)
  | .admission =>
    if m.admissionOpen then some (m, f.goto .recheckState) else some (rejectMissing m f)
  | .recheckState =>
    if f.slot < config.producerSlots ∧ (m.controls f.slot).state = .active then
      some (m, f.goto .recheckGeneration)
    else some (rejectMissing m f)
  | .recheckGeneration =>
    if (m.controls f.slot).generation ≠ f.generation then some (rejectMissing m f)
    else if config.ingressCells ≤ f.cell config then some (rejectInvalid m f [.clear])
    else
      match m.ledger.startReserve f.slot config.maximumRecordBytes with
      | none =>
        some (m.count f.slot ProducerCounters.budget, f.reject [.clear] .budgetExhausted)
      | some call => some (m, f.goto (.reserve call))
  | .reserve call =>
    match m.ledger.reserveStep call choice.spurious with
    | (l, .running call') => some (m.setLedger l, f.goto (.reserve call'))
    | (l, .refused) =>
      some ((m.setLedger l).count f.slot ProducerCounters.budget,
        f.reject [.clear] .budgetExhausted)
    | (l, .reserved) =>
      some (m.setLedger l,
        { f with
          reservation := .reservation f.slot call.worstCaseBytes call.chargeBytes
          pc := .begin })
  | .begin =>
    let slot := (m.cells (f.cell config)).slot
    match slot.begin config.maximumRecordBytes f.level f.source choice.timestamp with
    | none => some (rejectInvalid m f dropAll)
    | some b =>
      let m := m.setSlot (f.cell config) b.slot
      let f :=
        { f with timestamp := choice.timestamp, writer := b.writer, initial := slot, calls := [] }
      if f.hasOperation then some (m, f.goto .building) else some (rejectInvalid m f dropAll)
  | .building =>
    match choice.build with
    | .call call =>
      let b := RecordBuild.call conv ⟨(m.cells (f.cell config)).slot, f.writer⟩ call
      some (m.setSlot (f.cell config) b.slot,
        { f with writer := b.writer, calls := f.calls ++ [call] })
    | .finish .complete => some (m, f.goto .publishRecord)
    | .finish .invalid =>
      some (m.count f.slot ProducerCounters.abandoned, f.reject dropAll .invalidRecord)
    | .finish .thrown =>
      some (m.count f.slot ProducerCounters.abandoned, f.goto (.unwind dropAll none))
  | .publishRecord =>
    match RecordBuild.publish ⟨(m.cells (f.cell config)).slot, f.writer⟩ with
    | (b, none) =>
      some (rejectInvalid (m.setSlot (f.cell config) b.slot) { f with writer := b.writer } dropAll)
    | (b, some record) =>
      let m := m.setSlot (f.cell config) b.slot
      let f := { f with writer := b.writer }
      if config.maximumRecordBytes < record.serializedBytes ∨
          config.maximumRecordBytes < record.accountingChargeBytes then
        some (rejectInvalid m f dropAll)
      else some (m, { f with record := record, pc := .commit })
  | .commit =>
    let (l, h) := m.ledger.startCommit f.record.serializedBytes f.reservation
    some (m.setLedger l, { f with reservation := h, pc := .finishCommit })
  | .finishCommit =>
    let (l, h) := m.ledger.finishHandle f.reservation
    let f := { f with reservation := .empty, ownership := h }
    if h.retained = some (f.record.serializedBytes, f.record.accountingChargeBytes) then
      some (m.setLedger l, f.goto .storeRecord)
    else
      some (rejectInvalid (m.setLedger l) f
        (.resetSlot :: .dropOwnership :: .finishOwnership :: dropAll))
  | .storeRecord =>
    let generation := (m.cells (f.cell config)).generation + 1
    some (m.setRecord (f.cell config) generation (some f.record),
      { f with recordGeneration := generation, pc := .emplace })
  | .emplace =>
    if (m.cells (f.cell config)).ownership = .empty then
      some (m.setOwnership (f.cell config) f.ownership,
        { f with ownership := .empty, pc := .fetchSequence })
    else
      let (l, h) := m.ledger.startRelease (m.cells (f.cell config)).ownership
      some ((m.setLedger l).setOwnership (f.cell config) h, f.goto .finishEmplace)
  | .finishEmplace =>
    let (l, h) := m.ledger.finishHandle (m.cells (f.cell config)).ownership
    some ((m.setLedger l).setOwnership (f.cell config) h, f.goto .emplace)
  | .fetchSequence =>
    if (f.handle config).isValid then
      some ({ m with nextAdmissionSequence := m.nextAdmissionSequence + 1 },
        { f with sequence := m.nextAdmissionSequence, pc := .writeEnvelope })
    else
      some (rejectInvalid m f
        (.dropCellOwnership :: .finishCellOwnership :: .dropRecord :: .resetSlot ::
          .dropOwnership :: .finishOwnership :: dropAll))
  | .writeEnvelope =>
    let lane := m.lanes f.slot
    some ((m.setEnvelope (f.cell config) ⟨f.handle config, f.sequence⟩).setLane f.slot
        ⟨lane.readPosition, lane.publishedPosition, f.position + 1, lane.publishing⟩,
      f.goto .publishPosition)
  | .publishPosition =>
    let lane := m.lanes f.slot
    some (m.setLane f.slot
        ⟨lane.readPosition, f.position + 1, lane.writePosition, lane.publishing⟩,
      f.goto .clear)
  | .clear =>
    some ((m.setPublishing f.slot false).count f.slot (·.truncated f.record.truncated),
      f.goto (.done (some
        { outcome := .accepted
          admissionSequence := some f.sequence
          truncated := f.record.truncated })))
  | .unwind [] outcome => some (m, f.goto (.done (outcome.map fun o ↦ { outcome := o })))
  | .unwind (stage :: stages) outcome =>
    let (m, f) := unwindStep config m f stage
    some (m, f.goto (.unwind stages outcome))
  | .done _ => none

end Publish

/-! ## TryFinishRetirement -/

/-- `IsProducerDrained`: the flag first, then the two positions in either order. -/
inductive DrainPc where
  | testPublishing
  | loadPosition
  | compare (loadedRead : Bool) (position : ℕ)
  deriving DecidableEq, Repr

/-- One step of `IsProducerDrained`. -/
def drainStep (m : KernelMemory) (slot : ℕ) (choice : StepChoice) : DrainPc → DrainPc ⊕ Bool
  | .testPublishing => if (m.lanes slot).publishing then .inr false else .inl .loadPosition
  | .loadPosition =>
    .inl (if choice.readFirst then .compare true (m.lanes slot).readPosition
      else .compare false (m.lanes slot).publishedPosition)
  | .compare loadedRead position =>
    let other := if loadedRead then (m.lanes slot).publishedPosition
      else (m.lanes slot).readPosition
    .inr (decide (other = position))

inductive RetirePc where
  | drained (pc : DrainPc)
  /-- the compare-exchange from retiring to reconciling -/
  | exchange
  | reconcile (pc : ReconcilePc)
  /-- the ledger refused: back to retiring -/
  | restore
  | bumpGeneration
  | storeFree
  deriving DecidableEq, Repr

/-- The entry of `TryFinishRetirement`. -/
def startRetirement (config : ValidConfig) (slot : ℕ) : Option RetirePc :=
  if slot < config.producerSlots then some (.drained .testPublishing) else none

/-- One step of `TryFinishRetirement`; no next step means that it returns. -/
def retireStep (m : KernelMemory) (slot : ℕ) (choice : StepChoice) :
    RetirePc → KernelMemory × Option RetirePc
  | .drained pc =>
    match drainStep m slot choice pc with
    | .inl pc' => (m, some (.drained pc'))
    | .inr true => (m, some .exchange)
    | .inr false => (m, none)
  | .exchange =>
    if (m.controls slot).state = .retiring then
      (m.setState slot .reconciling, some (.reconcile .loadLogical))
    else (m, none)
  | .reconcile pc =>
    match m.ledger.reconcileStep slot pc with
    | (l, .inl pc') => (m.setLedger l, some (.reconcile pc'))
    | (l, .inr true) => (m.setLedger l, some .bumpGeneration)
    | (l, .inr false) => (m.setLedger l, some .restore)
  | .restore => (m.setState slot .retiring, none)
  | .bumpGeneration =>
    (m.setControl slot ⟨(m.controls slot).generation + 1, (m.controls slot).state⟩,
      some .storeFree)
  | .storeFree => (m.setState slot .free, none)

/-! ## TryConsume -/

inductive ConsumeStatus where
  | record
  | empty
  | pending
  deriving DecidableEq, Repr

/-- The `ConsumptionClaim`. -/
structure ConsumptionClaim where
  lane : ℕ
  readPosition : ℕ
  envelope : Envelope
  deriving DecidableEq, Repr

def ConsumptionClaim.cell (c : ConsumptionClaim) : ℕ := c.envelope.record.slotIndex

inductive ConsumePc where
  | scan (lane : ℕ) (later : Bool)
  /-- the lane has a published Record at this position -/
  | readEnvelope (lane readPosition : ℕ) (later : Bool)
  | loadSequence (later : Bool)
  | validate (claim : ConsumptionClaim)
  /-- the callback runs with this view -/
  | callback (claim : ConsumptionClaim) (view : RecordView)
  | releaseOwnership (claim : ConsumptionClaim)
  | finishOwnership (claim : ConsumptionClaim)
  | clearCell (claim : ConsumptionClaim)
  | acknowledge (claim : ConsumptionClaim)
  | retire (lane : ℕ) (pc : RetirePc)
  | done (status : ConsumeStatus)

/-- A `TryConsume` call. -/
structure ConsumeFrame where
  hasConsumer : Bool
  pc : ConsumePc

/-- The validation in `TryConsume`, once there is a callback. -/
def ConsumptionClaim.validates (config : ValidConfig) (m : KernelMemory) (c : ConsumptionClaim) :
    Bool :=
  let cell := m.cells c.cell
  match cell.record with
  | none => false
  | some stored =>
    c.cell < config.ingressCells && c.envelope.record.generation == cell.generation &&
      c.envelope.record.producerIndex == c.lane &&
      c.envelope.record.serializedBytes == stored.serializedBytes &&
      c.envelope.record.accountingChargeBytes == stored.accountingChargeBytes &&
      cell.ownership.retained == some (stored.serializedBytes, stored.accountingChargeBytes)

/-- The view that the callback receives. -/
def ConsumptionClaim.view (m : KernelMemory) (c : ConsumptionClaim) : RecordView :=
  let stored := (m.cells c.cell).record.getD {}
  ⟨(m.cells c.cell).slot.storage, stored.serializedBytes, stored.accountingChargeBytes⟩

section Consume

variable (config : ValidConfig)

/-- One step of `TryConsume`. -/
def consumeStep (m : KernelMemory) (f : ConsumeFrame) (choice : StepChoice) :
    Option (KernelMemory × ConsumePc) :=
  match f.pc with
  | .scan lane later =>
    if lane < config.producerSlots then
      if (m.lanes lane).publishedPosition = (m.lanes lane).readPosition then
        some (m, .scan (lane + 1) later)
      else some (m, .readEnvelope lane (m.lanes lane).readPosition later)
    else some (m, .loadSequence later)
  | .readEnvelope lane readPosition _ =>
    let envelope := (m.cells (config.cellIndex lane readPosition)).envelope
    if envelope.admissionSequence ≠ m.nextSequence then some (m, .scan (lane + 1) true)
    else some ({ m with claimActive := true }, .validate ⟨lane, readPosition, envelope⟩)
  | .loadSequence later =>
    some (m, .done
      (if later ∨ m.nextAdmissionSequence ≠ m.nextSequence then .pending else .empty))
  | .validate claim =>
    if f.hasConsumer && claim.validates config m then some (m, .callback claim (claim.view m))
    else
      some ({ m with validationErrors := m.validationErrors + 1 },
        if claim.cell < config.ingressCells then .releaseOwnership claim else .acknowledge claim)
  | .callback claim _ => some (m, .releaseOwnership claim)
  | .releaseOwnership claim =>
    let (l, h) := m.ledger.startRelease (m.cells claim.cell).ownership
    some ((m.setLedger l).setOwnership claim.cell h, .finishOwnership claim)
  | .finishOwnership claim =>
    let (l, h) := m.ledger.finishHandle (m.cells claim.cell).ownership
    some ((m.setLedger l).setOwnership claim.cell h, .clearCell claim)
  | .clearCell claim =>
    let cell := m.cells claim.cell
    some ((m.setRecord claim.cell cell.generation none).setSlot claim.cell cell.slot.reset,
      .acknowledge claim)
  | .acknowledge claim =>
    let lane := m.lanes claim.lane
    let m :=
      { m.setLane claim.lane
          ⟨claim.readPosition + 1, lane.publishedPosition, lane.writePosition,
            lane.publishing⟩ with
        consumedRecords := m.consumedRecords + 1
        nextSequence := m.nextSequence + 1
        claimActive := false }
    some (m,
      match startRetirement config claim.lane with
      | some pc => .retire claim.lane pc
      | none => .done .record)
  | .retire lane pc =>
    match retireStep m lane choice pc with
    | (m, some pc') => some (m, .retire lane pc')
    | (m, none) => some (m, .done .record)
  | .done _ => none

end Consume

/-! ## Control calls -/

inductive RetireProducerPc where
  | loadGeneration
  | exchange
  | finish (pc : RetirePc)
  | done
  deriving DecidableEq, Repr

/-- A `RetireProducer` call. -/
structure RetireFrame where
  slot : ℕ
  generation : ℕ
  pc : RetireProducerPc := .loadGeneration
  deriving DecidableEq, Repr

def retireProducerStep (config : ValidConfig) (m : KernelMemory) (f : RetireFrame)
    (choice : StepChoice) : Option (KernelMemory × RetireProducerPc) :=
  match f.pc with
  | .loadGeneration =>
    if f.slot < config.producerSlots ∧ (m.controls f.slot).generation = f.generation then
      some (m, .exchange)
    else some (m, .done)
  | .exchange =>
    if (m.controls f.slot).state = .active then
      some (m.setState f.slot .retiring, .finish (.drained .testPublishing))
    else some (m, .done)
  | .finish pc =>
    match retireStep m f.slot choice pc with
    | (m, some pc') => some (m, .finish pc')
    | (m, none) => some (m, .done)
  | .done => none

inductive QuiescentPc where
  | finish (pc : RetirePc)
  | drained (pc : DrainPc)
  | loadState
  | done
  deriving DecidableEq, Repr

/-- An `IsQuiescent` call: the slot it is at and the value so far; `closed` records whether
admission was closed when it started. -/
structure QuiescentFrame where
  slot : ℕ := 0
  quiescent : Bool := true
  pc : QuiescentPc
  closed : Bool
  deriving DecidableEq, Repr

/-- The loop of `IsQuiescent` goes on to the next slot. -/
def QuiescentFrame.next (config : ValidConfig) (f : QuiescentFrame) (quiescent : Bool) :
    QuiescentFrame :=
  { f with
    slot := f.slot + 1
    quiescent := quiescent
    pc :=
      match startRetirement config (f.slot + 1) with
      | some pc => .finish pc
      | none => .done }

def quiescentStep (config : ValidConfig) (m : KernelMemory) (f : QuiescentFrame)
    (choice : StepChoice) : Option (KernelMemory × QuiescentFrame) :=
  match f.pc with
  | .finish pc =>
    match retireStep m f.slot choice pc with
    | (m, some pc') => some (m, { f with pc := .finish pc' })
    | (m, none) =>
      if f.quiescent then some (m, { f with pc := .drained .testPublishing })
      else some (m, f.next config false)
  | .drained pc =>
    match drainStep m f.slot choice pc with
    | .inl pc' => some (m, { f with pc := .drained pc' })
    | .inr true => some (m, { f with pc := .loadState })
    | .inr false => some (m, f.next config false)
  | .loadState => some (m, f.next config ((m.controls f.slot).state == .free))
  | .done => none

inductive RegisterPc where
  | admission
  | exchange (slot : ℕ)
  | recheck (slot : ℕ)
  /-- admission closed meanwhile: the slot goes back -/
  | storeRetiring (slot : ℕ)
  | finish (slot : ℕ) (pc : RetirePc)
  | loadGeneration (slot : ℕ)
  | done (registration : Option (ℕ × ℕ))
  deriving DecidableEq, Repr

/-- `TryRegisterProducer`, after the lookups in the thread's own registry. -/
def registerStep (config : ValidConfig) (m : KernelMemory) (choice : StepChoice) :
    RegisterPc → Option (KernelMemory × RegisterPc)
  | .admission => some (m, if m.admissionOpen then .exchange 0 else .done none)
  | .exchange slot =>
    if slot < config.producerSlots then
      if (m.controls slot).state = .free then some (m.setState slot .active, .recheck slot)
      else some (m, .exchange (slot + 1))
    else some (m, .done none)
  | .recheck slot =>
    some (m, if m.admissionOpen then .loadGeneration slot else .storeRetiring slot)
  | .storeRetiring slot =>
    some (m.setState slot .retiring, .finish slot (.drained .testPublishing))
  | .finish slot pc =>
    match retireStep m slot choice pc with
    | (m, some pc') => some (m, .finish slot pc')
    | (m, none) => some (m, .done none)
  | .loadGeneration slot => some (m, .done (some (slot, (m.controls slot).generation)))
  | .done _ => none

/-! ## The kernel as a machine -/

/-- What a thread is doing. -/
inductive KernelCall where
  | idle
  | publish (f : PublishFrame)
  | consume (f : ConsumeFrame)
  | retire (f : RetireFrame)
  | quiescent (f : QuiescentFrame)
  | register (pc : RegisterPc)

/-- The call is done and has only to return. -/
def KernelCall.Finished : KernelCall → Prop
  | .idle => False
  | .publish f => ∃ result, f.pc = .done result
  | .consume f => ∃ status, f.pc = .done status
  | .retire f => f.pc = .done
  | .quiescent f => f.pc = .done
  | .register pc => ∃ registration, pc = .done registration

/-- A publication that got a sequence: where it went and what was built. -/
structure Admission where
  lane : ℕ
  position : ℕ
  initial : RecordSlot
  level : Level
  source : SourceLocation
  timestamp : Int64
  calls : List RecordCall

def PublishFrame.admission (f : PublishFrame) : Admission :=
  ⟨f.slot, f.position, f.initial, f.level, f.source, f.timestamp, f.calls⟩

/-- One consumption: whether there was a callback, and the view it received. -/
structure Consumption where
  sequence : ℕ
  hasConsumer : Bool
  view : Option RecordView

/-- The memory, the call of every thread, and the history: the publications in the order of their
sequences, the consumptions, and the sequences that were returned as accepted. -/
structure Kernel where
  memory : KernelMemory
  calls : ℕ → KernelCall := fun _ ↦ .idle
  admissions : List Admission := []
  consumptions : List Consumption := []
  returned : List (ℕ × Admission) := []

/-- The thread that consumes. -/
def consumerThread : ℕ := 0

inductive KernelAction where
  | publish (thread slot generation : ℕ) (level : Level) (source : SourceLocation)
    (hasOperation : Bool)
  | consume (hasConsumer : Bool)
  | retire (thread slot generation : ℕ)
  | quiescent (thread : ℕ)
  | register (thread : ℕ)
  | closeAdmission
  /-- the thread makes its next step -/
  | advance (thread : ℕ) (choice : StepChoice)
  /-- the thread's call returns -/
  | return (thread : ℕ)

/-- The thread that moves. -/
def KernelAction.thread : KernelAction → Option ℕ
  | .publish thread .. | .retire thread .. | .quiescent thread | .register thread
  | .advance thread _ | .return thread => some thread
  | .consume _ => some consumerThread
  | .closeAdmission => none

/-- So many steps of one thread, with nothing special about them. -/
def advances (thread steps : ℕ) : List KernelAction :=
  List.replicate steps (.advance thread {})

namespace Kernel

variable (conv : Charconv) (config : ValidConfig)

def setCall (k : Kernel) (thread : ℕ) (call : KernelCall) : Kernel :=
  { k with calls := Function.update k.calls thread call }

def start (k : Kernel) (thread : ℕ) (call : KernelCall) : Option Kernel :=
  match k.calls thread with
  | .idle => some (k.setCall thread call)
  | _ => none

def afterPublish (k : Kernel) (thread : ℕ) (f : PublishFrame) (m : KernelMemory)
    (f' : PublishFrame) : Kernel :=
  { k.setCall thread (.publish f') with
    memory := m
    admissions := if m.nextAdmissionSequence = k.memory.nextAdmissionSequence then k.admissions
      else k.admissions ++ [f.admission] }

/-- The consumption that a step of `TryConsume` decides. -/
def consumption (f : ConsumeFrame) : ConsumePc → List Consumption
  | .callback claim view =>
    [⟨claim.envelope.admissionSequence, f.hasConsumer, some view⟩]
  | .releaseOwnership claim | .acknowledge claim =>
    match f.pc with
    | .validate _ => [⟨claim.envelope.admissionSequence, f.hasConsumer, none⟩]
    | _ => []
  | _ => []

def afterConsume (k : Kernel) (thread : ℕ) (f : ConsumeFrame) (m : KernelMemory)
    (pc : ConsumePc) : Kernel :=
  { k.setCall thread (.consume ⟨f.hasConsumer, pc⟩) with
    memory := m
    consumptions := k.consumptions ++ consumption f pc }

def after (k : Kernel) (thread : ℕ) (m : KernelMemory) (call : KernelCall) : Kernel :=
  { k.setCall thread call with memory := m }

def advance (k : Kernel) (thread : ℕ) (choice : StepChoice) : Option Kernel :=
  match k.calls thread with
  | .idle => none
  | .publish f =>
    (publishStep conv config k.memory f choice).map fun (m, f') ↦ k.afterPublish thread f m f'
  | .consume f =>
    (consumeStep config k.memory f choice).map fun (m, pc) ↦ k.afterConsume thread f m pc
  | .retire f =>
    (retireProducerStep config k.memory f choice).map fun (m, pc) ↦
      k.after thread m (.retire { f with pc := pc })
  | .quiescent f =>
    (quiescentStep config k.memory f choice).map fun (m, f') ↦ k.after thread m (.quiescent f')
  | .register pc =>
    (registerStep config k.memory choice pc).map fun (m, pc') ↦ k.after thread m (.register pc')

/-- A finished call returns; an accepted publication returns its sequence. -/
def finish (k : Kernel) (thread : ℕ) : Option Kernel :=
  match k.calls thread with
  | .publish f =>
    match f.pc with
    | .done result =>
      some { k.setCall thread .idle with
        returned := k.returned ++
          ((result.bind (·.admissionSequence)).map fun s ↦ (s, f.admission)).toList }
    | _ => none
  | .consume ⟨_, .done _⟩ => some (k.setCall thread .idle)
  | .retire ⟨_, _, .done⟩ => some (k.setCall thread .idle)
  | .quiescent ⟨_, _, .done, _⟩ => some (k.setCall thread .idle)
  | .register (.done _) => some (k.setCall thread .idle)
  | _ => none

def step (k : Kernel) : KernelAction → Option Kernel
  | .publish thread slot generation level source hasOperation =>
    k.start thread (.publish
      { slot := slot, generation := generation, level := level, source := source
        hasOperation := hasOperation })
  | .consume hasConsumer =>
    k.start consumerThread (.consume ⟨hasConsumer,
      if k.memory.claimActive then .done .pending else .scan 0 false⟩)
  | .retire thread slot generation =>
    k.start thread (.retire { slot := slot, generation := generation })
  | .quiescent thread =>
    k.start thread (.quiescent
      { pc := .finish (.drained .testPublishing), closed := !k.memory.admissionOpen })
  | .register thread => k.start thread (.register .admission)
  | .closeAdmission => some { k with memory := { k.memory with admissionOpen := false } }
  | .advance thread choice => k.advance conv config thread choice
  | .return thread => k.finish thread

def init : Kernel where
  memory := { ledger := .reset config.payloadCapacityBytes config.producerSlots }

def machine : Machine Kernel KernelAction where
  init := init config
  step := step conv config

/-! ## The kinds of step -/

variable {conv config}

/-- A call at its entry, with the action that starts it. -/
inductive Entry (m : KernelMemory) : KernelAction → ℕ → KernelCall → Prop
  | publish (t slot generation : ℕ) (level : Level) (source : SourceLocation)
      (hasOperation : Bool) :
      Entry m (.publish t slot generation level source hasOperation) t (.publish
        { slot := slot, generation := generation, level := level, source := source
          hasOperation := hasOperation })
  | consume (hasConsumer : Bool) :
      Entry m (.consume hasConsumer) consumerThread (.consume ⟨hasConsumer,
        if m.claimActive then .done .pending else .scan 0 false⟩)
  | retire (t slot generation : ℕ) :
      Entry m (.retire t slot generation) t (.retire { slot := slot, generation := generation })
  | quiescent (t : ℕ) :
      Entry m (.quiescent t) t (.quiescent
        { pc := .finish (.drained .testPublishing), closed := !m.admissionOpen })
  | register (t : ℕ) : Entry m (.register t) t (.register .admission)

variable (conv config) in
/-- A step of the machine, by the call that makes it. -/
inductive Move (k : Kernel) : KernelAction → Kernel → Prop
  | enter {action : KernelAction} {t : ℕ} {call : KernelCall} (hidle : k.calls t = .idle)
      (hcall : Entry k.memory action t call) : Move k action (k.setCall t call)
  | closeAdmission :
      Move k .closeAdmission { k with memory := { k.memory with admissionOpen := false } }
  | publish {t : ℕ} {f f' : PublishFrame} {choice : StepChoice} {m' : KernelMemory}
      (hf : k.calls t = .publish f)
      (hstep : publishStep conv config k.memory f choice = some (m', f')) :
      Move k (.advance t choice) (k.afterPublish t f m' f')
  | consume {t : ℕ} {f : ConsumeFrame} {choice : StepChoice} {m' : KernelMemory} {pc : ConsumePc}
      (hf : k.calls t = .consume f)
      (hstep : consumeStep config k.memory f choice = some (m', pc)) :
      Move k (.advance t choice) (k.afterConsume t f m' pc)
  | retire {t : ℕ} {f : RetireFrame} {choice : StepChoice} {m' : KernelMemory}
      {pc : RetireProducerPc} (hf : k.calls t = .retire f)
      (hstep : retireProducerStep config k.memory f choice = some (m', pc)) :
      Move k (.advance t choice) (k.after t m' (.retire { f with pc := pc }))
  | quiescent {t : ℕ} {f f' : QuiescentFrame} {choice : StepChoice} {m' : KernelMemory}
      (hf : k.calls t = .quiescent f)
      (hstep : quiescentStep config k.memory f choice = some (m', f')) :
      Move k (.advance t choice) (k.after t m' (.quiescent f'))
  | register {t : ℕ} {pc pc' : RegisterPc} {choice : StepChoice} {m' : KernelMemory}
      (hf : k.calls t = .register pc)
      (hstep : registerStep config k.memory choice pc = some (m', pc')) :
      Move k (.advance t choice) (k.after t m' (.register pc'))
  | returnPublish {t : ℕ} {f : PublishFrame} {result : Option PublishResult}
      (hf : k.calls t = .publish f) (hpc : f.pc = .done result) :
      Move k (.return t) { k.setCall t .idle with
        returned := k.returned ++
          ((result.bind (·.admissionSequence)).map fun s ↦ (s, f.admission)).toList }
  | return {t : ℕ} (hcall : ∀ f, k.calls t ≠ .publish f) (hdone : (k.calls t).Finished) :
      Move k (.return t) (k.setCall t .idle)

variable {k k' : Kernel}

theorem Move.of_start {call : KernelCall} (hcall : Entry k.memory action t call)
    (hstart : k.start t call = some k') : k.Move conv config action k' := by
  rw [start] at hstart
  split at hstart
  · next hidle =>
    cases hstart
    exact .enter hidle hcall
  · cases hstart

theorem Move.of_finish (hfinish : k.finish t = some k') : k.Move conv config (.return t) k' := by
  rw [finish] at hfinish
  split at hfinish
  · next f hf =>
    split at hfinish
    · next result hpc =>
      cases hfinish
      exact .returnPublish hf hpc
    · cases hfinish
  all_goals cases hfinish
  all_goals
    next hf =>
    refine .return (fun f hf' ↦ nomatch hf.symm.trans hf') ?_
    rw [hf]
    first | exact ⟨_, rfl⟩ | exact rfl

theorem Move.of_step (hstep : k.step conv config action = some k') :
    k.Move conv config action k' := by
  cases action with
  | publish t slot generation level source hasOperation => exact .of_start (.publish ..) hstep
  | consume hasConsumer => exact .of_start (.consume _) hstep
  | retire t slot generation => exact .of_start (.retire ..) hstep
  | quiescent t => exact .of_start (.quiescent t) hstep
  | register t => exact .of_start (.register t) hstep
  | closeAdmission =>
    cases hstep
    exact .closeAdmission
  | advance t choice =>
    rw [step, advance] at hstep
    split at hstep
    · cases hstep
    · next f hf =>
      obtain ⟨_, hcall, rfl⟩ := Option.map_eq_some_iff.mp hstep
      exact .publish hf hcall
    · next f hf =>
      obtain ⟨_, hcall, rfl⟩ := Option.map_eq_some_iff.mp hstep
      exact .consume hf hcall
    · next f hf =>
      obtain ⟨_, hcall, rfl⟩ := Option.map_eq_some_iff.mp hstep
      exact .retire hf hcall
    · next f hf =>
      obtain ⟨_, hcall, rfl⟩ := Option.map_eq_some_iff.mp hstep
      exact .quiescent hf hcall
    · next pc hf =>
      obtain ⟨_, hcall, rfl⟩ := Option.map_eq_some_iff.mp hstep
      exact .register hf hcall
  | «return» t => exact .of_finish hstep

theorem advance_publish {f : PublishFrame} {choice : StepChoice} (hf : k.calls t = .publish f)
    (hstep : k.step conv config (.advance t choice) = some k') :
    ∃ m' f', publishStep conv config k.memory f choice = some (m', f') ∧
      k' = k.afterPublish t f m' f' := by
  rw [step, advance, hf] at hstep
  obtain ⟨⟨m', f'⟩, hcall, rfl⟩ := Option.map_eq_some_iff.mp hstep
  exact ⟨m', f', hcall, rfl⟩

theorem step_advance {f f' : PublishFrame} {choice : StepChoice} {m' : KernelMemory}
    (hf : k.calls t = .publish f)
    (hstep : publishStep conv config k.memory f choice = some (m', f')) :
    k.step conv config (.advance t choice) = some (k.afterPublish t f m' f') := by
  rw [step, advance, hf]
  dsimp only
  rw [hstep]
  rfl

theorem Move.calls_of_ne (h : k.Move conv config action k') (ht : action.thread ≠ some t) :
    k'.calls t = k.calls t := by
  have hother : ∀ {t' call}, some t' ≠ some t → Function.update k.calls t' call t = k.calls t :=
    fun hne ↦ Function.update_of_ne (fun heq ↦ hne (congrArg some heq.symm)) ..
  cases h with
  | enter hidle hcall => cases hcall <;> exact hother ht
  | closeAdmission => rfl
  | publish | consume | retire | quiescent | register | returnPublish | «return» =>
    exact hother ht

/-- The thread has no call in progress. -/
def isIdle (k : Kernel) (t : ℕ) : Bool :=
  match k.calls t with
  | .idle => true
  | _ => false

theorem calls_of_isIdle (h : k.isIdle t = true) : k.calls t = .idle := by
  rw [isIdle] at h
  split at h
  · next heq => exact heq
  · cases h

end Kernel

end Ulog
