import Ulog.Foundation.Handles
import Ulog.Foundation.Machine
import Ulog.Record.RoundTrip
import Ulog.Route.Delivery

/-!
# The structured in-memory destination

The worker claims a free slot, copies the texts of a Record into the slot's part of one byte array
and then commits the rest of the Record under the destination's mutex. The application takes the
ready slot with the lowest admission sequence and reads it through an `ObservedRecord` until it
releases it.

Claims and observations are movable handles with a slot index and a generation. They live in
variables here, a table each. A `Store` call is two steps, since it copies before it takes the
mutex; every other entry point is one.

The history at the end of the state is only written: what the stored Records say, which of them
each slot was last committed with, and which of them were taken.
-/

namespace Ulog.Destination

open ByteMemory

inductive SlotState where
  | free
  | reserved
  | ready
  | held
  deriving DecidableEq, Repr

structure TextRange where
  offset : ℕ := 0
  size : ℕ := 0
  deriving DecidableEq, Repr

structure SlotMetadata where
  state : SlotState := .free
  generation : ℕ := 0
  admissionSequence : ℕ := 0
  eventTimestamp : Int64 := 0
  serializedBytes : ℕ := 0
  accountingChargeBytes : ℕ := 0
  sourcePath : TextRange := {}
  sourceFunction : TextRange := {}
  message : TextRange := {}
  sourceLine : ℕ := 0
  sourceColumn : ℕ := 0
  level : Option Level := some .none
  truncated : Bool := false
  deriving DecidableEq

/-- `InMemoryDestinationConfig`, as far as the validation in the constructor admits it. -/
structure Config where
  capacityRecords : ℕ
  maximumRecordBytes : ℕ
  startPaused : Bool := false
  capacityRecords_pos : 0 < capacityRecords := by decide
  maximumRecordBytes_admitted : 128 ≤ maximumRecordBytes ∧
    maximumRecordBytes ≤ Ulog.maximumRecordBytes ∧ maximumRecordBytes % 64 = 0 := by decide

/-- `InMemoryDestinationState`. -/
structure State where
  backing : Mem := fun _ ↦ 0
  slots : ℕ → SlotMetadata := fun _ ↦ {}
  paused : Bool := false
  stopped : Bool := false

/-- `DestinationSlotIdentity`. -/
structure SlotIdentity where
  index : ℕ
  generation : ℕ
  deriving DecidableEq, Repr

/-- `SlotBacking`: where the bytes of a slot start. -/
def slotBacking (config : Config) (index : ℕ) : ℕ := index * config.maximumRecordBytes

namespace State

def setSlot (s : State) (index : ℕ) (slot : SlotMetadata) : State :=
  { s with slots := Function.update s.slots index slot }

variable (config : Config) (s : State)

def findFreeSlot : Option ℕ :=
  (List.range config.capacityRecords).find? fun i ↦ (s.slots i).state == .free

/-- `ReleaseSlotHandle` on a handle with an owner. -/
def releaseSlotHandle (identity : SlotIdentity) (expected : SlotState) : State :=
  let slot := s.slots identity.index
  if identity.index < config.capacityRecords ∧ slot.state = expected ∧
      slot.generation = identity.generation then
    s.setSlot identity.index { slot with state := .free }
  else s

def findHeldSlot (identity : SlotIdentity) : Option SlotMetadata :=
  let slot := s.slots identity.index
  if identity.index < config.capacityRecords ∧ slot.state = .held ∧
      slot.generation = identity.generation then some slot
  else none

def storedText (index : ℕ) (range : TextRange) : Bytes :=
  if config.capacityRecords ≤ index ∨ config.maximumRecordBytes < range.offset ∨
      config.maximumRecordBytes - range.offset < range.size then []
  else read s.backing (slotBacking config index + range.offset) range.size

end State

/-! ## Storing a Record -/

structure StoredTextLocation where
  range : TextRange
  complete : Bool
  deriving DecidableEq, Repr

/-- `CopyText`: the bytes, the cursor behind the text, and where it was stored. -/
def copyText (backing : Mem) (destination capacity cursor : ℕ) (source : Bytes) :
    Mem × ℕ × StoredTextLocation :=
  let available := if cursor ≤ capacity then capacity - cursor else 0
  let storedSize := min available source.length
  (write backing (destination + cursor) (source.take storedSize), cursor + storedSize,
    ⟨⟨cursor, storedSize⟩, storedSize == source.length⟩)

/-- The loop of `CopyUtf8Text`: back to a byte that starts a sequence. -/
def backToStart (source : Bytes) : ℕ → ℕ
  | 0 => 0
  | n + 1 => if (source.getD (n + 1) 0) &&& 0xC0 = 0x80 then backToStart source n else n + 1

/-- `CopyUtf8Text`. -/
def copyUtf8Text (backing : Mem) (destination capacity cursor : ℕ) (source : Bytes) :
    Mem × ℕ × StoredTextLocation :=
  let available := if cursor ≤ capacity then capacity - cursor else 0
  let size := min available source.length
  let prefixSize := if size < source.length then backToStart source size else size
  let (backing, cursor, location) :=
    copyText backing destination capacity cursor (source.take prefixSize)
  (backing, cursor, { location with complete := prefixSize == source.length })

/-- The arguments of a `Store` call and where its texts were copied to. -/
structure Copied where
  admissionSequence : ℕ
  record : RecordView
  sourcePath : StoredTextLocation
  sourceFunction : StoredTextLocation
  message : StoredTextLocation

namespace State

variable (config : Config) (s : State)

/-- The part of `Store` before the mutex is taken. -/
def copyTexts (index admissionSequence : ℕ) (record : RecordView) : State × Copied :=
  let destination := slotBacking config index
  let capacity := config.maximumRecordBytes
  let (backing, cursor, sourcePath) := copyText s.backing destination capacity 0 record.sourcePath
  let (backing, cursor, sourceFunction) :=
    copyText backing destination capacity cursor record.sourceFunction
  let (backing, _, message) := copyUtf8Text backing destination capacity cursor record.message
  ({ s with backing := backing },
    { admissionSequence, record, sourcePath, sourceFunction, message })

/-- A claim still names its slot. -/
def owns (s : State) (identity : SlotIdentity) : Bool :=
  (s.slots identity.index).state == .reserved &&
    (s.slots identity.index).generation == identity.generation

/-- The critical section of `Store` on a slot that the claim owns. -/
def commit (s : State) (index : ℕ) (c : Copied) : State :=
  s.setSlot index
    { s.slots index with
      admissionSequence := c.admissionSequence
      eventTimestamp := c.record.eventTimestamp
      serializedBytes := c.record.serializedBytes
      accountingChargeBytes := c.record.accountingChargeBytes
      sourcePath := c.sourcePath.range
      sourceFunction := c.sourceFunction.range
      message := c.message.range
      sourceLine := c.record.sourceLine
      sourceColumn := c.record.sourceColumn
      level := c.record.level
      truncated := c.record.truncated || !c.sourcePath.complete || !c.sourceFunction.complete ||
        !c.message.complete
      state := .ready }

/-- `WaitForWrite` after its wait. -/
def waitForWrite : State × Option SlotIdentity :=
  if s.stopped || s.paused then (s, none)
  else
    match s.findFreeSlot config with
    | none => (s, none)
    | some index =>
      let generation := nextGeneration (s.slots index).generation
      (s.setSlot index { s.slots index with generation := generation, state := .reserved },
        some ⟨index, generation⟩)

/-! ## Observing a Record -/

/-- The slot that `TryTake` selects. -/
def selectReady : Option ℕ :=
  selectLowest (fun i ↦ (s.slots i).state == .ready) (fun i ↦ (s.slots i).admissionSequence)
    config.capacityRecords

/-- `TryTake`. -/
def tryTake : State × Option SlotIdentity :=
  match s.selectReady config with
  | none => (s, none)
  | some index =>
    (s.setSlot index { s.slots index with state := .held },
      some ⟨index, (s.slots index).generation⟩)

end State

/-- What the accessors of an `ObservedRecord` return; the defaults are those of an empty one. -/
structure Values where
  admissionSequence : ℕ := 0
  level : Option Level := some .none
  eventTimestamp : Int64 := 0
  sourcePath : Bytes := []
  sourceFunction : Bytes := []
  sourceLine : ℕ := 0
  sourceColumn : ℕ := 0
  message : Bytes := []
  truncated : Bool := false
  serializedBytes : ℕ := 0
  accountingChargeBytes : ℕ := 0
  deriving DecidableEq

/-- What a Record itself says. -/
def Values.ofRecord (admissionSequence : ℕ) (record : RecordView) : Values where
  admissionSequence := admissionSequence
  level := record.level
  eventTimestamp := record.eventTimestamp
  sourcePath := record.sourcePath
  sourceFunction := record.sourceFunction
  sourceLine := record.sourceLine
  sourceColumn := record.sourceColumn
  message := record.message
  truncated := record.truncated
  serializedBytes := record.serializedBytes
  accountingChargeBytes := record.accountingChargeBytes

namespace State

variable (config : Config) (s : State)

/-- What a slot says. -/
def slotValues (index : ℕ) : Values :=
  let slot := s.slots index
  { admissionSequence := slot.admissionSequence
    level := slot.level
    eventTimestamp := slot.eventTimestamp
    sourcePath := s.storedText config index slot.sourcePath
    sourceFunction := s.storedText config index slot.sourceFunction
    sourceLine := slot.sourceLine
    sourceColumn := slot.sourceColumn
    message := s.storedText config index slot.message
    truncated := slot.truncated
    serializedBytes := slot.serializedBytes
    accountingChargeBytes := slot.accountingChargeBytes }

/-- The accessors of an `ObservedRecord`. -/
def observe (identity : SlotIdentity) : Values :=
  match s.findHeldSlot config identity with
  | some _ => s.slotValues config identity.index
  | none => {}

end State

/-! ## Runs -/

/-- A write claim; between the two steps of `Store` it remembers what was copied. -/
structure Claim where
  identity : SlotIdentity
  copied : Option Copied := none

/-- An observation, with the number of the Record it was taken for. -/
structure Observation where
  identity : SlotIdentity
  number : ℕ
  deriving DecidableEq, Repr

structure World where
  state : State := {}
  claims : ℕ → Option Claim := fun _ ↦ none
  observations : ℕ → Option Observation := fun _ ↦ none
  /-- What the stored Records say, in the order of their commits. -/
  stored : List Values := []
  /-- The number of the Record that a slot was last committed with. -/
  numbers : ℕ → ℕ := fun _ ↦ 0
  /-- The numbers of the taken Records. -/
  taken : List ℕ := []

inductive Action where
  | waitForWrite (claim : ℕ)
  | copy (claim admissionSequence : ℕ) (record : RecordView)
  | commit (claim : ℕ)
  | resetClaim (claim : ℕ)
  | moveClaim (source target : ℕ)
  | tryTake (observation : ℕ)
  | release (observation : ℕ)
  | moveObservation (source target : ℕ)
  | resume
  | stop

namespace World

variable (config : Config) (w : World)

/-- `DestinationWriteClaim::Reset`. -/
def resetClaim (c : ℕ) : World :=
  match w.claims c with
  | none => w
  | some claim =>
    { w with
      state := w.state.releaseSlotHandle config claim.identity .reserved
      claims := Function.update w.claims c none }

/-- `ObservedRecord::Reset`. -/
def release (h : ℕ) : World :=
  match w.observations h with
  | none => w
  | some observation =>
    { w with
      state := w.state.releaseSlotHandle config observation.identity .held
      observations := Function.update w.observations h none }

/-- The move assignment of claims. -/
def moveClaim (c c' : ℕ) : World :=
  if c = c' then w
  else
    let w := w.resetClaim config c'
    { w with claims := Sharing.move w.claims c c' }

/-- The move assignment of observations. -/
def moveObservation (h h' : ℕ) : World :=
  if h = h' then w
  else
    let w := w.release config h'
    { w with observations := Sharing.move w.observations h h' }

def waitForWrite (c : ℕ) : World :=
  let (state, identity) := w.state.waitForWrite config
  { w with state := state, claims := Function.update w.claims c (identity.map (⟨·, none⟩)) }

def copy (c : ℕ) (claim : Claim) (admissionSequence : ℕ) (record : RecordView) : World :=
  let (state, copied) := w.state.copyTexts config claim.identity.index admissionSequence record
  { w with
    state := state
    claims := Function.update w.claims c (some { claim with copied := some copied }) }

def commit (c : ℕ) (identity : SlotIdentity) (copied : Copied) : World :=
  if w.state.owns identity then
    { w with
      state := w.state.commit identity.index copied
      claims := Function.update w.claims c none
      stored := w.stored ++ [Values.ofRecord copied.admissionSequence copied.record]
      numbers := Function.update w.numbers identity.index w.stored.length }
  else w.resetClaim config c

def tryTake (h : ℕ) : World :=
  match w.state.tryTake config with
  | (_, none) => w
  | (state, some identity) =>
    { w with
      state := state
      observations := Function.update w.observations h
        (some ⟨identity, w.numbers identity.index⟩)
      taken := w.taken ++ [w.numbers identity.index] }

/-- The claim is in a `Store` call. -/
def storing (w : World) (c : ℕ) : Bool := (w.claims c).any (·.copied.isSome)

/-- A call returns a handle into a variable without one, and nobody touches the claim that a `Store`
call runs on. -/
def step : Action → Option World
  | .waitForWrite c => if (w.claims c).isSome then none else some (w.waitForWrite config c)
  | .copy c admissionSequence record =>
    match w.claims c with
    | none => some w
    | some claim =>
      if claim.copied.isSome then none
      else some (if config.capacityRecords ≤ claim.identity.index then w
        else w.copy config c claim admissionSequence record)
  | .commit c =>
    match w.claims c with
    | some ⟨identity, some copied⟩ => some (w.commit config c identity copied)
    | _ => none
  | .resetClaim c => if w.storing c then none else some (w.resetClaim config c)
  | .moveClaim c c' =>
    if w.storing c || w.storing c' then none else some (w.moveClaim config c c')
  | .tryTake h => if (w.observations h).isSome then none else some (w.tryTake config h)
  | .release h => some (w.release config h)
  | .moveObservation h h' => some (w.moveObservation config h h')
  | .resume => some { w with state := { w.state with paused := false } }
  | .stop => some { w with state := { w.state with stopped := true } }

end World

def machine (config : Config) : Machine World Action where
  init := { state := { paused := config.startPaused } }
  step := World.step config

/-- The Records of the run are published ones, of kernels with a bound that the destination
covers. -/
def Published (config : Config) : World → Action → Prop
  | _, .copy _ _ record => ∃ conv, ∃ r : PublishedRecord conv,
      r.limit ≤ config.maximumRecordBytes ∧ record = r.view
  | _, _ => True

/-- Nothing stored is lost, doubled or changed. -/
structure Lossless (config : Config) (w : World) : Prop where
  /-- A stored Record that was not taken is in a ready slot, which says what the Record said. -/
  available : ∀ (n : ℕ) v, w.stored[n]? = some v → n ∉ w.taken → ∃ i < config.capacityRecords,
    (w.state.slots i).state = .ready ∧ w.state.slotValues config i = v
  /-- Only stored Records are taken, each once. -/
  once : w.taken.Nodup ∧ ∀ n ∈ w.taken, n < w.stored.length
  /-- `TryTake` finds a Record if there is one, and takes the lowest sequence. -/
  lowest : ∀ h w', w.step config (.tryTake h) = some w' →
    (w' = w ∧ ∀ n < w.stored.length, n ∈ w.taken) ∨
      ∃ n v, w'.taken = w.taken ++ [n] ∧ w.stored[n]? = some v ∧
        (∃ identity, w'.observations h = some ⟨identity, n⟩) ∧
        ∀ (n' : ℕ) v', w.stored[n']? = some v' → n' ∉ w.taken →
          v.admissionSequence ≤ v'.admissionSequence
  /-- An observation shows the Record it was taken for. -/
  observed : ∀ h o, w.observations h = some o →
    o.number ∈ w.taken ∧ w.stored[o.number]? = some (w.state.observe config o.identity)
  /-- No step changes what a live observation shows. -/
  constant : ∀ action w', Published config w action → w.step config action = some w' →
    ∀ h h' o, w.observations h = some o → w'.observations h' = some o →
      w'.state.observe config o.identity = w.state.observe config o.identity
  /-- A slot is claimed only when no Record in it waits and no observation of it is live. -/
  claimed : ∀ c w' claim, w.step config (.waitForWrite c) = some w' → w'.claims c = some claim →
    (w.state.slots claim.identity.index).state = .free ∧
      ∀ h o, w.observations h = some o → o.identity.index ≠ claim.identity.index

end Ulog.Destination
