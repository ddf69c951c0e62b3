import Ulog.Foundation.Machine

/-!
# The prototype ring of the ingress benchmark

`BoundedMpscRing` is a ring of cells with a turn each. A producer that finds the turn of its
position reserves the position by a compare-exchange, writes the envelope and sets the turn to the
next number; the consumer that finds this number takes the envelope and sets the turn to the
position that will use the cell next, one lap later.

One action is one atomic access with the local code behind it, so the runs of the machine are the
sequentially consistent interleavings of any number of producers with the one consumer. The history
at the end of the state is only written: the handle of every reserved position, and what the calls
returned. `Fifo` says what the ring is for.
-/

namespace Ulog.Mpsc

def maximumConcurrentPublishers : ℕ := 32

structure RecordHandle where
  slotIndex : ℕ := 0
  generation : ℕ := 0
  serializedBytes : ℕ := 0
  accountingChargeBytes : ℕ := 0
  deriving DecidableEq, Repr

inductive PublishStatus where
  | accepted
  | full
  | contended
  | invalid
  deriving DecidableEq, Repr

structure PublishResult where
  status : PublishStatus := .invalid
  admissionSequence : Option ℕ := none
  publicationActions : ℕ := 0
  deriving DecidableEq, Repr

inductive ConsumeStatus where
  | empty
  | pending
  | record
  deriving DecidableEq, Repr

structure ConsumedRecord where
  record : RecordHandle := {}
  admissionSequence : ℕ := 0
  deriving DecidableEq, Repr

structure ConsumeResult where
  status : ConsumeStatus := .empty
  record : Option ConsumedRecord := none
  deriving DecidableEq, Repr

/-! ## The ring -/

/-- The capacities that the static assertions admit. -/
structure Admitted (capacity : ℕ) : Prop where
  pos : 0 < capacity
  powerOfTwo : capacity &&& (capacity - 1) = 0
  word : capacity ≤ 2 ^ 64 - 1

structure Cell where
  turn : ℕ
  envelope : ConsumedRecord := {}
  deriving DecidableEq, Repr

structure Ring where
  cells : ℕ → Cell := fun index ↦ { turn := index }
  enqueuePosition : ℕ := 0
  dequeuePosition : ℕ := 0

/-- `BoundedMpscRing::Index`. -/
def index (capacity position : ℕ) : ℕ := position &&& (capacity - 1)

/-- `BoundedMpscRing::IsValid`. -/
def isValid (capacity : ℕ) (record : RecordHandle) : Bool :=
  let maximumPerRecord := (2 ^ 64 - 1) / capacity
  0 < record.serializedBytes && record.serializedBytes ≤ record.accountingChargeBytes &&
    record.serializedBytes ≤ maximumPerRecord && record.accountingChargeBytes ≤ maximumPerRecord

/-- The turn of the cell that a position addresses. -/
def Ring.turn (ring : Ring) (capacity position : ℕ) : ℕ :=
  (ring.cells (index capacity position)).turn

def Ring.setCell (ring : Ring) (capacity position : ℕ) (cell : Cell) : Ring :=
  { ring with cells := Function.update ring.cells (index capacity position) cell }

/-! ## TryPublish -/

inductive PublishPc where
  | loadPosition
  | loadTurn
  | exchange
  | reload
  | writeEnvelope
  | storeTurn
  deriving DecidableEq, Repr

/-- A publication under way. -/
structure PublishCall where
  pc : PublishPc := .loadPosition
  record : RecordHandle
  position : ℕ := 0
  probe : ℕ := 0
  actions : ℕ := 1
  deriving DecidableEq, Repr

/-- A call goes on or returns. -/
inductive Outcome (call result : Type) where
  | running (call : call)
  | returned (result : result)

/-- The next round of the probe loop, or the end of it. -/
def PublishCall.nextProbe (call : PublishCall) (position : ℕ) :
    Outcome PublishCall PublishResult :=
  if call.probe + 1 < maximumConcurrentPublishers then
    .running { call with
      pc := .loadTurn, position := position, probe := call.probe + 1, actions := call.actions + 1 }
  else .returned { status := .contended, publicationActions := call.actions + 1 + 2 }

/-- One atomic access of `TryPublish`. -/
def publishStep (capacity : ℕ) (ring : Ring) (call : PublishCall) :
    Ring × Outcome PublishCall PublishResult :=
  match call.pc with
  | .loadPosition =>
    (ring, .running { call with
      pc := .loadTurn, position := ring.enqueuePosition, actions := call.actions + 1 })
  | .loadTurn =>
    let turn := ring.turn capacity call.position
    let actions := call.actions + 1
    if turn = call.position then (ring, .running { call with pc := .exchange, actions := actions })
    else if turn < call.position then
      (ring, .returned { status := .full, publicationActions := actions + 2 })
    else (ring, .running { call with pc := .reload, actions := actions })
  | .exchange =>
    if ring.enqueuePosition = call.position then
      ({ ring with enqueuePosition := call.position + 1 },
        .running { call with pc := .writeEnvelope, actions := call.actions + 1 })
    -- a failed exchange leaves the current position in the expected value
    else (ring, call.nextProbe ring.enqueuePosition)
  | .reload => (ring, call.nextProbe ring.enqueuePosition)
  | .writeEnvelope =>
    (ring.setCell capacity call.position
        ⟨ring.turn capacity call.position, ⟨call.record, call.position⟩⟩,
      .running { call with pc := .storeTurn })
  | .storeTurn =>
    (ring.setCell capacity call.position
        ⟨call.position + 1, (ring.cells (index capacity call.position)).envelope⟩,
      .returned
        { status := .accepted, admissionSequence := some call.position,
          publicationActions := call.actions + 4 })

/-! ## TryConsume -/

inductive ConsumePc where
  | loadPosition
  | loadTurn
  | loadEnqueue
  | readEnvelope
  | storeTurn
  | storePosition
  deriving DecidableEq, Repr

/-- The consumption under way. -/
structure ConsumeCall where
  pc : ConsumePc := .loadPosition
  position : ℕ := 0
  consumed : ConsumedRecord := {}
  deriving DecidableEq, Repr

/-- One access of `TryConsume`. -/
def consumeStep (capacity : ℕ) (ring : Ring) (call : ConsumeCall) :
    Ring × Outcome ConsumeCall ConsumeResult :=
  match call.pc with
  | .loadPosition =>
    (ring, .running { call with pc := .loadTurn, position := ring.dequeuePosition })
  | .loadTurn =>
    if ring.turn capacity call.position ≠ call.position + 1 then
      (ring, .running { call with pc := .loadEnqueue })
    else (ring, .running { call with pc := .readEnvelope })
  | .loadEnqueue =>
    (ring, .returned
      { status := if call.position < ring.enqueuePosition then .pending else .empty })
  | .readEnvelope =>
    (ring, .running { call with
      pc := .storeTurn, consumed := (ring.cells (index capacity call.position)).envelope })
  | .storeTurn =>
    (ring.setCell capacity call.position
        ⟨call.position + capacity, (ring.cells (index capacity call.position)).envelope⟩,
      .running { call with pc := .storePosition })
  | .storePosition =>
    ({ ring with dequeuePosition := call.position + 1 },
      .returned { status := .record, record := some call.consumed })

/-! ## Runs -/

structure State where
  ring : Ring := {}
  publishers : ℕ → Option PublishCall := fun _ ↦ none
  consumer : Option ConsumeCall := none
  /-- The handle of every reserved position. -/
  reserved : List RecordHandle := []
  /-- What the publications returned, with the handles they were given. -/
  results : List (RecordHandle × PublishResult) := []
  /-- What the consumptions returned. -/
  consumptions : List ConsumeResult := []

inductive Action where
  | tryPublish (thread producerIndex : ℕ) (record : RecordHandle)
  | publish (thread : ℕ)
  | tryConsume
  | consume
  deriving DecidableEq, Repr

namespace State

/-- Entering `TryPublish`: the checks before the first access. -/
def tryPublish (capacity : ℕ) (s : State) (thread producerIndex : ℕ) (record : RecordHandle) :
    Option State :=
  if (s.publishers thread).isSome then none
  else if maximumConcurrentPublishers ≤ producerIndex ∨ !isValid capacity record then
    some
      { s with
        results := s.results ++ [(record, { status := .invalid, publicationActions := 3 })] }
  else some { s with publishers := Function.update s.publishers thread (some { record := record }) }

/-- One access of a publication. -/
def publish (capacity : ℕ) (s : State) (thread : ℕ) (call : PublishCall) : State :=
  let after := publishStep capacity s.ring call
  let reserved :=
    if after.1.enqueuePosition = s.ring.enqueuePosition then s.reserved
    else s.reserved ++ [call.record]
  match after.2 with
  | .running call' =>
    { s with
      ring := after.1
      publishers := Function.update s.publishers thread (some call')
      reserved := reserved }
  | .returned result =>
    { s with
      ring := after.1
      publishers := Function.update s.publishers thread none
      reserved := reserved
      results := s.results ++ [(call.record, result)] }

/-- One access of the consumption. -/
def consume (capacity : ℕ) (s : State) (call : ConsumeCall) : State :=
  let after := consumeStep capacity s.ring call
  match after.2 with
  | .running call' => { s with ring := after.1, consumer := some call' }
  | .returned result =>
    { s with ring := after.1, consumer := none, consumptions := s.consumptions ++ [result] }

def step (capacity : ℕ) (s : State) : Action → Option State
  | .tryPublish thread producerIndex record => s.tryPublish capacity thread producerIndex record
  | .publish thread => (s.publishers thread).map (s.publish capacity thread)
  | .tryConsume => if s.consumer.isSome then none else some { s with consumer := some {} }
  | .consume => s.consumer.map (s.consume capacity)

end State

def machine (capacity : ℕ) : Machine State Action where
  init := {}
  step := State.step capacity

namespace State

/-- The accepted publications: their handles with the sequences returned. -/
def accepted (s : State) : List ConsumedRecord :=
  s.results.filterMap fun r ↦
    if r.2.status = .accepted then r.2.admissionSequence.map (⟨r.1, ·⟩) else none

/-- The records that `TryConsume` has returned. -/
def returned (s : State) : List ConsumedRecord := s.consumptions.filterMap (·.record)

/-- How many positions the consumer has taken: a record is consumed when its cell is given to the
next lap. -/
def consumed (s : State) : ℕ :=
  s.ring.dequeuePosition +
    if s.consumer.any (·.pc = .storePosition) then 1 else 0

/-- The accesses of one `TryConsume` that nothing interrupts. -/
def consumeAlone : List Action := .tryConsume :: List.replicate 5 .consume

end State

/-- The ring is a lossless queue. -/
structure Fifo (capacity : ℕ) (s : State) : Prop where
  /-- The returned records have the sequences `0, 1, 2, …`, and each is an accepted one. -/
  order : s.returned.map (·.admissionSequence) = List.range s.returned.length
  accepted : ∀ c ∈ s.returned, c ∈ s.accepted
  /-- No sequence is accepted twice. -/
  once : (s.accepted.map (·.admissionSequence)).Nodup
  /-- An accepted record that was not consumed is in its cell. -/
  kept : ∀ c ∈ s.accepted, s.consumed ≤ c.admissionSequence →
    s.ring.cells (index capacity c.admissionSequence) = ⟨c.admissionSequence + 1, c⟩
  bounded : (s.accepted.filter (s.consumed ≤ ·.admissionSequence)).length ≤ capacity
  /-- Once the next sequence is accepted, the next `TryConsume` returns its record. -/
  next : ∀ c ∈ s.accepted, c.admissionSequence = s.returned.length → s.consumer = none →
    ∃ s', (machine capacity).run (fun _ _ ↦ True) s State.consumeAlone = some s' ∧
      s'.returned = s.returned ++ [c]
  /-- At the load that decides for `kFull`, so many positions are reserved and not consumed. -/
  full : ∀ thread s' record result, s.step capacity (.publish thread) = some s' →
    s'.results = s.results ++ [(record, result)] → result.status = .full →
      s.consumed + capacity ≤ s.ring.enqueuePosition
  /-- At the load that decides for `kEmpty`, no reserved position is left. -/
  empty : ∀ s' result, s.step capacity .consume = some s' →
    s'.consumptions = s.consumptions ++ [result] → result.status = .empty →
      s.returned.length = s.ring.enqueuePosition ∧ s.consumed = s.ring.enqueuePosition

end Ulog.Mpsc
