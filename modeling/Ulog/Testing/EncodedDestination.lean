import Ulog.Encoding.Raw
import Ulog.Foundation.Handles
import Ulog.Foundation.Machine
import Ulog.Route.Delivery

/-!
# The encoded in-memory destination

The worker claims a slot, encodes a Record into its buffer and submits it; the application decides
what becomes of a submitted frame, by the delivery mode or through a `PendingEncodedDelivery`, and
takes delivered frames. A slot has two states: who may use its buffer, and how far its delivery is
for the worker.

Claims, pending deliveries and observations are movable handles with a slot index and a generation,
in a table of variables each. `StoreRaw` encodes before it takes the mutex, so it is two steps;
every other entry point is one.

The history at the end of the state is only written: the submitted frames, the outcomes in the order
in which slots got them, and the sequences of the taken frames.
-/

namespace Ulog.Encoded

open ByteMemory

inductive SlotState where
  | free
  | reserved
  | pending
  | delivering
  | ready
  | held
  deriving DecidableEq, Repr

/-- The ownership part of an `EncodedSlotMetadata`. -/
structure Owner where
  state : SlotState := .free
  generation : ℕ := 0
  deriving DecidableEq, Repr

inductive DeliveryMode where
  | completeInline
  | hold
  | failInline
  deriving DecidableEq, Repr

inductive CompletionStatus where
  | completed
  | cancelled
  | invalidHandle
  deriving DecidableEq, Repr

/-- `InMemoryEncodedDestinationConfig`, as far as the validation in the constructor admits it. -/
structure Config where
  capacityRecords : ℕ
  maximumRecordBytes : ℕ
  startPaused : Bool := false
  capacityRecords_pos : 0 < capacityRecords := by decide
  maximumRecordBytes_admitted : 128 ≤ maximumRecordBytes ∧
    maximumRecordBytes ≤ Ulog.maximumRecordBytes ∧ maximumRecordBytes % 64 = 0 := by decide

def Config.maximumEncodedRecordBytes (config : Config) : ℕ :=
  maximumRawEncodedBytes config.maximumRecordBytes

/-- `InMemoryEncodedDestinationState`. -/
structure State where
  buffers : ℕ → Mem := fun _ _ ↦ 0
  owners : ℕ → Owner := fun _ ↦ {}
  deliveries : ℕ → Delivery := fun _ ↦ {}
  deliveryMode : DeliveryMode := .completeInline
  paused : Bool := false
  stopped : Bool := false

/-- `EncodedDestinationSlotIdentity`. -/
structure SlotIdentity where
  index : ℕ
  generation : ℕ
  deriving DecidableEq, Repr

namespace State

def setOwner (s : State) (index : ℕ) (owner : Owner) : State :=
  { s with owners := Function.update s.owners index owner }

def setState (s : State) (index : ℕ) (state : SlotState) : State :=
  s.setOwner index { s.owners index with state := state }

def setDelivery (s : State) (index : ℕ) (delivery : Delivery) : State :=
  { s with deliveries := Function.update s.deliveries index delivery }

variable (config : Config) (s : State)

def findClaimableSlot : Option ℕ :=
  (List.range config.capacityRecords).find? fun i ↦
    (s.owners i).state == .free && (s.deliveries i).state == .retired

def findLowestSequence (state : SlotState) : Option ℕ :=
  selectLowest (fun i ↦ (s.owners i).state == state) (fun i ↦ (s.deliveries i).admissionSequence)
    config.capacityRecords

/-- A handle names its slot. -/
def names (identity : SlotIdentity) (state : SlotState) : Bool :=
  identity.index < config.capacityRecords && (s.owners identity.index).state == state &&
    (s.owners identity.index).generation == identity.generation

/-- `ReleaseSlotHandle` on a handle with an owner. -/
def releaseSlotHandle (identity : SlotIdentity) (expected : SlotState) : State :=
  if s.names config identity expected then s.setState identity.index .free else s

/-! ## The worker -/

/-- `TryClaimWrite`. -/
def tryClaimWrite : State × Option SlotIdentity :=
  if s.stopped || s.paused then (s, none)
  else
    match s.findClaimableSlot config with
    | none => (s, none)
    | some index =>
      let generation := nextGeneration (s.owners index).generation
      (s.setOwner index ⟨.reserved, generation⟩, some ⟨index, generation⟩)

/-- The encoding at the start of `StoreRaw`, outside the mutex. -/
def encode (conv : Charconv) (config : Config) (s : State) (index : ℕ) (record : RecordView) :
    State × RawEncodeResult :=
  let (buffer, result) :=
    encodeRawRecord conv record (s.buffers index) config.maximumEncodedRecordBytes
  ({ s with buffers := Function.update s.buffers index buffer }, result)

/-- The states that a submitted slot gets. -/
def submission (s : State) : SlotState × DeliveryState :=
  if s.stopped then (.free, .cancelled)
  else
    match s.deliveryMode with
    | .completeInline => (.ready, .delivered)
    | .hold => (.pending, .inFlight)
    | .failInline => (.free, .failed)

/-- The critical section of `StoreRaw` on a slot that the claim names. -/
def store (s : State) (index admissionSequence encodedBytes : ℕ) : State :=
  (s.setState index s.submission.1).setDelivery index
    { state := s.submission.2, admissionSequence, encodedBytes }

def tryRetire (admissionSequence : ℕ) : State × Option DeliveryRetirement :=
  let (deliveries, retirement) :=
    Ulog.tryRetire s.deliveries config.capacityRecords admissionSequence
  ({ s with deliveries := deliveries }, retirement)

/-- `Stop` interrupts the delivery of the slot. -/
def interrupted (index : ℕ) : Bool :=
  index < config.capacityRecords &&
    ((s.owners index).state == .pending || (s.owners index).state == .delivering)

def stop : State :=
  { s with
    stopped := true
    owners := fun i ↦
      if s.interrupted config i then { s.owners i with state := .free } else s.owners i
    deliveries := fun i ↦
      if s.interrupted config i then { s.deliveries i with state := .cancelled }
      else s.deliveries i }

def discardInFlight : State :=
  { s with deliveries := Ulog.discardInFlight s.deliveries config.capacityRecords }

/-! ## The application -/

/-- `TryTake` and `TryTakePendingDelivery`: the slot with the lowest sequence in a state moves
on. -/
def take (state next : SlotState) : State × Option SlotIdentity :=
  match s.findLowestSequence config state with
  | none => (s, none)
  | some index => (s.setState index next, some ⟨index, (s.owners index).generation⟩)

def tryTake : State × Option SlotIdentity :=
  s.take config .ready .held

def tryTakePendingDelivery : State × Option SlotIdentity :=
  s.take config .pending .delivering

/-- `PendingEncodedDelivery::Finish` on a handle with an owner. -/
def finish (identity : SlotIdentity) (delivered : Bool) : State × CompletionStatus :=
  if !s.names config identity .delivering then (s, .cancelled)
  else
    let index := identity.index
    if delivered then
      ((s.setState index .ready).setDelivery index
        { s.deliveries index with state := .delivered }, .completed)
    else
      ((s.setState index .free).setDelivery index
        { s.deliveries index with state := .failed }, .completed)

/-- `ObservedEncodedRecord::AdmissionSequence` and `Bytes`. -/
def observe (identity : SlotIdentity) : ℕ × Bytes :=
  if s.names config identity .held then
    ((s.deliveries identity.index).admissionSequence,
      read (s.buffers identity.index) 0 (s.deliveries identity.index).encodedBytes)
  else (0, [])

end State

/-! ## Runs -/

/-- A `StoreRaw` call between its encoding and its critical section. -/
structure StoreCall where
  admissionSequence : ℕ
  result : RawEncodeResult
  frame : Bytes
  deriving DecidableEq, Repr

structure Claim where
  identity : SlotIdentity
  storing : Option StoreCall := none
  deriving DecidableEq, Repr

/-- A `PendingEncodedDelivery`; its bytes are a view into the buffer. -/
structure Pending where
  identity : SlotIdentity
  admissionSequence : ℕ
  size : ℕ
  deriving DecidableEq, Repr

/-- What `PendingEncodedDelivery::Bytes` shows. -/
def State.pendingBytes (s : State) (p : Pending) : Bytes :=
  read (s.buffers p.identity.index) 0 p.size

/-- An `ObservedEncodedRecord`, with the sequence it was taken for. -/
structure Observation where
  identity : SlotIdentity
  admissionSequence : ℕ
  deriving DecidableEq, Repr

structure World where
  state : State := {}
  claims : ℕ → Option Claim := fun _ ↦ none
  pendings : ℕ → Option Pending := fun _ ↦ none
  observations : ℕ → Option Observation := fun _ ↦ none
  /-- All sequences given to `StoreRaw` are below. -/
  bound : ℕ := 0
  submitted : List (ℕ × Bytes) := []
  outcomes : List (ℕ × DeliveryState) := []
  taken : List ℕ := []

inductive Action where
  | tryClaimWrite (claim : ℕ)
  | encode (claim admissionSequence : ℕ) (record : RecordView)
  | store (claim : ℕ)
  | resetClaim (claim : ℕ)
  | moveClaim (source target : ℕ)
  | tryRetire (admissionSequence : ℕ)
  | stop
  | discardInFlight
  | tryTakePendingDelivery (pending : ℕ)
  | finish (pending : ℕ) (delivered : Bool)
  | movePending (source target : ℕ)
  | tryTake (observation : ℕ)
  | release (observation : ℕ)
  | moveObservation (source target : ℕ)
  | setDeliveryMode (mode : DeliveryMode)
  | resume

namespace World

/-- The outcome that a delivery state is, if it is one. -/
def completion (admissionSequence : ℕ) (state : DeliveryState) : List (ℕ × DeliveryState) :=
  if state = .inFlight then [] else [(admissionSequence, state)]

variable (config : Config) (w : World)

/-- `EncodedDestinationWriteClaim::Reset`. -/
def resetClaim (c : ℕ) : World :=
  match w.claims c with
  | none => w
  | some claim =>
    { w with
      state := w.state.releaseSlotHandle config claim.identity .reserved
      claims := Function.update w.claims c none }

/-- `ObservedEncodedRecord::Reset`. -/
def release (h : ℕ) : World :=
  match w.observations h with
  | none => w
  | some observation =>
    { w with
      state := w.state.releaseSlotHandle config observation.identity .held
      observations := Function.update w.observations h none }

/-- `Complete` and `Fail`; the destructor is a `Fail`. -/
def finish (p : ℕ) (delivered : Bool) : World :=
  match w.pendings p with
  | none => w
  | some pending =>
    let (state, status) := w.state.finish config pending.identity delivered
    { w with
      state := state
      pendings := Function.update w.pendings p none
      outcomes :=
        if status = .completed then
          w.outcomes ++ [((w.state.deliveries pending.identity.index).admissionSequence,
            if delivered then .delivered else .failed)]
        else w.outcomes }

/-- The move assignments: what the target held is given up first. -/
def moveClaim (c c' : ℕ) : World :=
  if c = c' then w
  else
    let w := w.resetClaim config c'
    { w with claims := Sharing.move w.claims c c' }

def moveObservation (h h' : ℕ) : World :=
  if h = h' then w
  else
    let w := w.release config h'
    { w with observations := Sharing.move w.observations h h' }

def movePending (p p' : ℕ) : World :=
  if p = p' then w
  else
    let w := w.finish config p' false
    { w with pendings := Sharing.move w.pendings p p' }

def tryClaimWrite (c : ℕ) : World :=
  let (state, identity) := w.state.tryClaimWrite config
  { w with state := state, claims := Function.update w.claims c (identity.map (⟨·, none⟩)) }

def encode (conv : Charconv) (config : Config) (w : World) (c : ℕ) (identity : SlotIdentity)
    (admissionSequence : ℕ) (record : RecordView) : World :=
  let (state, result) := w.state.encode conv config identity.index record
  { w with
    state := state
    bound := admissionSequence + 1
    claims := Function.update w.claims c (some ⟨identity, some ⟨admissionSequence, result,
      read (state.buffers identity.index) 0 result.encodedBytes⟩⟩) }

def store (c : ℕ) (identity : SlotIdentity) (call : StoreCall) : World :=
  if call.result.complete && w.state.names config identity .reserved then
    { w with
      state := w.state.store identity.index call.admissionSequence call.result.encodedBytes
      claims := Function.update w.claims c none
      submitted := w.submitted ++ [(call.admissionSequence, call.frame)]
      outcomes := w.outcomes ++ completion call.admissionSequence w.state.submission.2 }
  else w.resetClaim config c

def stop : World :=
  { w with
    state := w.state.stop config
    outcomes := w.outcomes ++
      ((List.range config.capacityRecords).filter (w.state.interrupted config)).map fun i ↦
        ((w.state.deliveries i).admissionSequence, .cancelled) }

def tryTakePendingDelivery (p : ℕ) : World :=
  let (state, identity) := w.state.tryTakePendingDelivery config
  { w with
    state := state
    pendings := Function.update w.pendings p (identity.map fun identity ↦
      ⟨identity, (w.state.deliveries identity.index).admissionSequence,
        (w.state.deliveries identity.index).encodedBytes⟩) }

def tryTake (h : ℕ) : World :=
  let (state, identity) := w.state.tryTake config
  { w with
    state := state
    observations := Function.update w.observations h (identity.map fun identity ↦
      ⟨identity, (w.state.deliveries identity.index).admissionSequence⟩)
    taken := w.taken ++ (identity.map fun identity ↦
      (w.state.deliveries identity.index).admissionSequence).toList }

/-- The claim is in a `StoreRaw` call. -/
def storing (w : World) (c : ℕ) : Bool := (w.claims c).any (·.storing.isSome)

/-- A call returns a handle into a variable without one, and nobody touches the claim that a
`StoreRaw` call runs on. -/
def step (conv : Charconv) (config : Config) (w : World) : Action → Option World
  | .tryClaimWrite c => if (w.claims c).isSome then none else some (w.tryClaimWrite config c)
  | .encode c admissionSequence record =>
    match w.claims c with
    | none => some w
    | some ⟨identity, none⟩ =>
      some (if config.capacityRecords ≤ identity.index then w
        else w.encode conv config c identity admissionSequence record)
    | some ⟨_, some _⟩ => none
  | .store c =>
    match w.claims c with
    | some ⟨identity, some call⟩ => some (w.store config c identity call)
    | _ => none
  | .resetClaim c => if w.storing c then none else some (w.resetClaim config c)
  | .moveClaim c c' =>
    if w.storing c || w.storing c' then none else some (w.moveClaim config c c')
  | .tryRetire admissionSequence =>
    some { w with state := (w.state.tryRetire config admissionSequence).1 }
  | .stop => some (w.stop config)
  | .discardInFlight => some { w with state := w.state.discardInFlight config }
  | .tryTakePendingDelivery p =>
    if (w.pendings p).isSome then none else some (w.tryTakePendingDelivery config p)
  | .finish p delivered => some (w.finish config p delivered)
  | .movePending p p' => some (w.movePending config p p')
  | .tryTake h => if (w.observations h).isSome then none else some (w.tryTake config h)
  | .release h => some (w.release config h)
  | .moveObservation h h' => some (w.moveObservation config h h')
  | .setDeliveryMode mode => some { w with state := { w.state with deliveryMode := mode } }
  | .resume => some { w with state := { w.state with paused := false } }

end World

def machine (conv : Charconv) (config : Config) : Machine World Action where
  init := { state := { paused := config.startPaused } }
  step := World.step conv config

/-- The worker's part: it stores increasing sequences, and discards only after it stopped. -/
def Disciplined : World → Action → Prop
  | w, .encode _ admissionSequence _ => w.bound ≤ admissionSequence
  | w, .discardInFlight => w.state.stopped = true
  | _, _ => True

instance (w : World) (action : Action) : Decidable (Disciplined w action) := by
  cases action <;> unfold Disciplined <;> infer_instance

/-- The handle is for the slot with the lowest sequence in a state; without one no slot is in it. -/
def Lowest (config : Config) (s : State) (state : SlotState) : Option SlotIdentity → Prop
  | none => ∀ i < config.capacityRecords, (s.owners i).state ≠ state
  | some identity => identity.index < config.capacityRecords ∧
      (s.owners identity.index).state = state ∧
      ∀ i < config.capacityRecords, (s.owners i).state = state →
        (s.deliveries identity.index).admissionSequence ≤ (s.deliveries i).admissionSequence

/-- Deliveries complete once, and slots are not reused early. -/
structure Exactly (conv : Charconv) (config : Config) (w : World) : Prop where
  /-- A submitted sequence has at most one outcome, and nothing else has one. -/
  once : (w.outcomes.map Prod.fst).Nodup ∧
    ∀ o ∈ w.outcomes, o.1 ∈ w.submitted.map Prod.fst ∧
      (o.2 = .delivered ∨ o.2 = .failed ∨ o.2 = .cancelled)
  /-- After `Stop` it has one. -/
  stopped : w.state.stopped = true → ∀ f ∈ w.submitted, f.1 ∈ w.outcomes.map Prod.fst
  /-- The outcome that `TryRetire` returns is the one of the sequence. -/
  retired : ∀ n retirement, (w.state.tryRetire config n).2 = some retirement →
    (n, retirement.outcome.state) ∈ w.outcomes
  /-- A delivered frame is ready until it is taken. -/
  available : ∀ n frame, (n, frame) ∈ w.submitted → (n, .delivered) ∈ w.outcomes → n ∉ w.taken →
    ∃ i < config.capacityRecords, (w.state.owners i).state = .ready ∧
      (w.state.deliveries i).admissionSequence = n ∧
      read (w.state.buffers i) 0 (w.state.deliveries i).encodedBytes = frame
  /-- A frame is taken once, and only if it was delivered. -/
  taken : w.taken.Nodup ∧ ∀ o ∈ w.outcomes, o.2 ≠ .delivered → o.1 ∉ w.taken
  taken_delivered : ∀ n ∈ w.taken, (n, .delivered) ∈ w.outcomes
  /-- `TryTake` and `TryTakePendingDelivery` take the lowest sequence in their state. -/
  lowest : Lowest config w.state .ready (w.state.tryTake config).2 ∧
    Lowest config w.state .pending (w.state.tryTakePendingDelivery config).2
  /-- After `Stop`, `Complete` and `Fail` return `kCancelled` and change no slot. -/
  cancelled : w.state.stopped = true → ∀ p pending delivered, w.pendings p = some pending →
    w.state.finish config pending.identity delivered = (w.state, .cancelled)
  /-- What a live handle shows is a submitted frame. -/
  pending : ∀ p pending, w.pendings p = some pending →
    (pending.admissionSequence, w.state.pendingBytes pending) ∈ w.submitted
  observed : ∀ h o, w.observations h = some o → o.admissionSequence ∈ w.taken ∧
    w.state.observe config o.identity ∈ w.submitted ∧
      (w.state.observe config o.identity).1 = o.admissionSequence
  /-- No step changes what a live handle shows. -/
  constant : ∀ action w', Disciplined w action → w.step conv config action = some w' →
    (∀ p p' pending, w.pendings p = some pending → w'.pendings p' = some pending →
      w'.state.pendingBytes pending = w.state.pendingBytes pending) ∧
    ∀ h h' o, w.observations h = some o → w'.observations h' = some o →
      w'.state.observe config o.identity = w.state.observe config o.identity
  /-- A claimed slot is free and retired, and no handle is on it. -/
  claimed : ∀ c w' claim, w.step conv config (.tryClaimWrite c) = some w' →
    w'.claims c = some claim →
      (w.state.owners claim.identity.index).state = .free ∧
      (w.state.deliveries claim.identity.index).state = .retired ∧
      (∀ p pending, w.pendings p = some pending →
        pending.identity.index ≠ claim.identity.index) ∧
      ∀ h o, w.observations h = some o → o.identity.index ≠ claim.identity.index

end Ulog.Encoded
