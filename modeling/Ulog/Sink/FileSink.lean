import Ulog.Encoding.Raw
import Ulog.Foundation.Machine
import Ulog.Route.Delivery

/-!
# The Raw file sink

The worker encodes a Record into a claimed buffer and queues it; a loop thread appends queued
buffers to the file, one write at a time and lowest sequence first, resumes partial writes, and
closes the file when asked to. Every entry point takes the sink's mutex, so it is one step here,
except for the encoding, which runs outside the mutex.

The loop thread's entry points end in tail calls of one another: a completed write may start the
next one, a submission may fail at once and be finished at once, and the pump may start the close.
`LoopPc` is the call that is due. While it is not `idle` the loop thread holds the mutex.

The file is the list of bytes appended so far. The operating system appends when it executes a
submitted write, which may be long before the loop thread learns of it.
-/

namespace Ulog

open ByteMemory

inductive FileSlotState where
  | free
  | reserved
  | queued
  | writing
  deriving DecidableEq, Repr

/-- The ownership part of a `FileSlot`. -/
structure FileOwner where
  state : FileSlotState := .free
  generation : ℕ := 0
  writtenBytes : ℕ := 0
  deriving DecidableEq, Repr

/-- Injected faults. An injected write does not reach the operating system, so what it reports is an
error or no progress. -/
structure FileFaultPlan where
  maximumWriteBytes : ℕ := 0
  failingWriteCall : ℕ := 2 ^ 64 - 1
  writeError : ℤ := 0
  closeError : ℤ := 0
  writeError_nonpos : writeError ≤ 0 := by decide

/-- A write submitted to the operating system, with its result once it has been executed. -/
structure WriteRequest where
  index : ℕ
  offset : ℕ
  length : ℕ
  result : Option ℤ := none
  deriving DecidableEq, Repr

inductive LoopPc where
  | idle
  | pump
  | startWrite (index : ℕ)
  | finishWrite (result : ℤ)
  | startClose
  | finishClose (result : ℤ)
  deriving DecidableEq, Repr

structure FileSlotIdentity where
  index : ℕ
  generation : ℕ
  deriving DecidableEq, Repr

/-- `RawFileSinkState`, with the contents of the file. -/
structure FileSink where
  bufferCount : ℕ
  bufferBytes : ℕ
  faults : FileFaultPlan
  buffers : ℕ → Mem := fun _ _ ↦ 0
  owners : ℕ → FileOwner := fun _ ↦ {}
  deliveries : ℕ → Delivery := fun _ ↦ {}
  file : Bytes := []
  request : Option WriteRequest := none
  closeSubmitted : Bool := false
  loop : LoopPc := .idle
  writeCalls : ℕ := 0
  writingSlot : ℕ := 0
  failureError : ℤ := 0
  closeResult : ℤ := 0
  asyncOpen : Bool := false
  stopping : Bool := false
  closeRequested : Bool := false
  closing : Bool := false
  closed : Bool := false
  writing : Bool := false

/-- `UV_EIO`. -/
def uvEio : ℤ := -5

namespace FileSink

def setOwner (s : FileSink) (index : ℕ) (owner : FileOwner) : FileSink :=
  { s with owners := Function.update s.owners index owner }

def setDelivery (s : FileSink) (index : ℕ) (delivery : Delivery) : FileSink :=
  { s with deliveries := Function.update s.deliveries index delivery }

/-- Free the buffer and set the outcome of its delivery. -/
def complete (s : FileSink) (index : ℕ) (outcome : DeliveryState) : FileSink :=
  (s.setOwner index { s.owners index with state := .free }).setDelivery index
    { s.deliveries index with state := outcome }

/-- `CancelQueuedLocked`. -/
def cancelQueued (s : FileSink) : FileSink :=
  let isQueued (i : ℕ) : Bool := i < s.bufferCount && (s.owners i).state == .queued
  { s with
    owners := fun i ↦ if isQueued i then { s.owners i with state := .free } else s.owners i
    deliveries := fun i ↦
      if isQueued i then { s.deliveries i with state := .cancelled } else s.deliveries i }

/-! ## The loop thread -/

/-- The queued slot that `PumpLocked` selects. -/
def selectQueued (s : FileSink) : Option ℕ :=
  selectLowest (fun i ↦ (s.owners i).state == .queued) (fun i ↦ (s.deliveries i).admissionSequence)
    s.bufferCount

/-- `PumpLocked`. -/
def pump (s : FileSink) : FileSink :=
  if s.writing || s.closing || s.closed then { s with loop := .idle }
  else
    let selected := if s.failureError = 0 ∧ !s.stopping then s.selectQueued else none
    match selected with
    | some index => { s with loop := .startWrite index }
    | none => { s with loop := if s.closeRequested then .startClose else .idle }

/-- `StartWriteLocked`; a negative `submit` is the error of the submission itself. -/
def startWrite (s : FileSink) (index : ℕ) (submit : ℤ) : FileSink :=
  let remaining := (s.deliveries index).encodedBytes - (s.owners index).writtenBytes
  let length :=
    if s.faults.maximumWriteBytes ≠ 0 ∧ s.faults.maximumWriteBytes < remaining then
      s.faults.maximumWriteBytes
    else remaining
  let s' :=
    { s.setOwner index { s.owners index with state := .writing } with
      writing := true
      writingSlot := index
      writeCalls := s.writeCalls + 1 }
  if s.writeCalls = s.faults.failingWriteCall then
    { s' with loop := .finishWrite s.faults.writeError }
  else if submit < 0 then { s' with loop := .finishWrite submit }
  else
    { s' with
      request := some ⟨index, (s.owners index).writtenBytes, length, none⟩
      loop := .idle }

/-- `FinishWriteLocked`. -/
def finishWrite (s : FileSink) (result : ℤ) : FileSink :=
  let index := s.writingSlot
  let s := { s with writing := false }
  let remaining := (s.deliveries index).encodedBytes - (s.owners index).writtenBytes
  if result < 0 ∨ (result = 0 ∧ remaining ≠ 0) then
    let s :=
      { s.complete index .failed with failureError := if result < 0 then result else uvEio }
    { s.cancelQueued with loop := .pump }
  else
    let written := (s.owners index).writtenBytes + min result.toNat remaining
    let s := s.setOwner index { s.owners index with writtenBytes := written }
    if written < (s.deliveries index).encodedBytes then { s with loop := .startWrite index }
    else { s.complete index .delivered with loop := .pump }

/-- `StartCloseLocked`. -/
def startClose (s : FileSink) (submit : ℤ) : FileSink :=
  let s := { s with closing := true }
  if s.faults.closeError ≠ 0 then { s with loop := .finishClose s.faults.closeError }
  else if submit < 0 then { s with loop := .finishClose submit }
  else { s with closeSubmitted := true, loop := .idle }

/-- `FinishCloseLocked`. -/
def finishClose (s : FileSink) (result : ℤ) : FileSink :=
  { s with
    closing := false
    closed := true
    closeResult := min result 0
    asyncOpen := false
    loop := .idle }

/-- The call that is due in the loop thread's critical section. -/
def loopStep (s : FileSink) (submit : ℤ) : Option FileSink :=
  match s.loop with
  | .idle => none
  | .pump => some s.pump
  | .startWrite index => some (s.startWrite index submit)
  | .finishWrite result => some (s.finishWrite result)
  | .startClose => some (s.startClose submit)
  | .finishClose result => some (s.finishClose result)

/-- The operating system executes the submitted write: it appends as many of the submitted bytes as
it reports, none with an error. Errors are those of a `std::int32_t`. -/
def executeWrite (s : FileSink) (result : ℤ) : Option FileSink :=
  match s.request with
  | some ⟨index, offset, length, none⟩ =>
    if -2 ^ 31 ≤ result ∧ result ≤ length then
      some { s with
        file := s.file ++ read (s.buffers index) offset result.toNat
        request := some ⟨index, offset, length, some result⟩ }
    else none
  | _ => none

/-- `OnWriteComplete`. -/
def onWriteComplete (s : FileSink) : Option FileSink :=
  match s.request with
  | some ⟨_, _, _, some result⟩ =>
    if s.loop = .idle then some { s with request := none, loop := .finishWrite result } else none
  | _ => none

/-- `OnCloseComplete`. -/
def onCloseComplete (s : FileSink) (result : ℤ) : Option FileSink :=
  if s.closeSubmitted ∧ s.loop = .idle then
    some { s with closeSubmitted := false, loop := .finishClose result }
  else none

/-- `OnWake`. -/
def onWake (s : FileSink) : Option FileSink :=
  if s.asyncOpen ∧ s.loop = .idle then some { s with loop := .pump } else none

/-- `RunLoop` has opened the file. -/
def opened (s : FileSink) : Option FileSink :=
  if !s.asyncOpen ∧ !s.closed ∧ s.loop = .idle then some { s with asyncOpen := true } else none

/-! ## The worker -/

/-- `TryClaimWrite`. -/
def tryClaimWrite (s : FileSink) : FileSink × Option FileSlotIdentity :=
  if s.stopping || s.closeRequested || s.failureError != 0 || !s.asyncOpen then (s, none)
  else
    match (List.range s.bufferCount).find? fun i ↦
        (s.owners i).state == .free && (s.deliveries i).state == .retired with
    | none => (s, none)
    | some index =>
      let generation := nextGeneration (s.owners index).generation
      (s.setOwner index { s.owners index with generation := generation, state := .reserved },
        some ⟨index, generation⟩)

/-- A claim still names its buffer. -/
def owns (s : FileSink) (identity : FileSlotIdentity) : Bool :=
  (s.owners identity.index).state == .reserved &&
    (s.owners identity.index).generation == identity.generation

/-- `FileWriteClaim::Reset`. -/
def resetClaim (s : FileSink) (identity : FileSlotIdentity) : FileSink :=
  if s.owns identity then
    s.setOwner identity.index { s.owners identity.index with state := .free }
  else s

/-- The encoding at the start of `StoreRaw`, outside the mutex. -/
def encode (conv : Charconv) (s : FileSink) (index : ℕ) (record : RecordView) :
    FileSink × RawEncodeResult :=
  let (buffer, result) := encodeRawRecord conv record (s.buffers index) s.bufferBytes
  ({ s with buffers := Function.update s.buffers index buffer }, result)

/-- The critical section of `StoreRaw`, with the value of `submitted`. -/
def store (s : FileSink) (identity : FileSlotIdentity) (sequence encodedBytes : ℕ) :
    FileSink × Bool :=
  if !s.owns identity then (s, false)
  else
    let cancelled := s.stopping || s.failureError != 0 || !s.asyncOpen
    let owner := s.owners identity.index
    ((s.setOwner identity.index
        { owner with
          writtenBytes := 0
          state := if cancelled then .free else .queued }).setDelivery identity.index
        { state := if cancelled then .cancelled else .inFlight
          admissionSequence := sequence
          encodedBytes := encodedBytes }, true)

def tryRetire (s : FileSink) (sequence : ℕ) : FileSink × Option DeliveryRetirement :=
  let (deliveries, retirement) := Ulog.tryRetire s.deliveries s.bufferCount sequence
  ({ s with deliveries := deliveries }, retirement)

def summarizeInFlight (s : FileSink) (watermark : ℕ) : InFlightSummary :=
  Ulog.summarizeInFlight s.deliveries s.bufferCount watermark

/-- `Stop`. -/
def stop (s : FileSink) : FileSink :=
  { s with stopping := true, closeRequested := true }.cancelQueued

def requestClose (s : FileSink) : FileSink := { s with closeRequested := true }

/-- `CloseResult`. -/
def closeOutcome (s : FileSink) : Option ℤ := if s.closed then some s.closeResult else none

def discardInFlight (s : FileSink) : FileSink :=
  { s with deliveries := Ulog.discardInFlight s.deliveries s.bufferCount }

end FileSink

/-! ## A worker and the loop thread -/

/-- A `StoreRaw` call between its encoding and its critical section. -/
structure StoreCall where
  identity : FileSlotIdentity
  sequence : ℕ
  result : RawEncodeResult
  frame : Bytes
  deriving DecidableEq, Repr

/-- The sink, the claims the worker holds, and the history of the run: the frame that was last
queued in each buffer, and, with their sequences, all frames that were queued, those whose delivery
reached `kDelivered`, and the one whose delivery reached `kFailed`. -/
structure FileRun where
  sink : FileSink
  claims : List FileSlotIdentity := []
  storing : Option StoreCall := none
  lastSequence : Option ℕ := none
  frames : ℕ → Bytes := fun _ ↦ []
  stored : List (ℕ × Bytes) := []
  delivered : List (ℕ × Bytes) := []
  failed : Option (ℕ × Bytes) := none

inductive FileAction where
  | opened
  | tryClaimWrite
  | resetClaim (claim : ℕ)
  | encode (claim sequence : ℕ) (record : RecordView)
  | store
  | tryRetire (sequence : ℕ)
  | requestClose
  | stop
  | discardInFlight
  | wake
  | loop (submit : ℤ)
  | executeWrite (result : ℤ)
  | writeComplete
  | closeComplete (result : ℤ)

namespace FileRun

/-- The frame in a buffer, with its sequence. -/
def frame (r : FileRun) (index : ℕ) : ℕ × Bytes :=
  ((r.sink.deliveries index).admissionSequence, r.frames index)

/-- The frame being written. -/
def writingFrame (r : FileRun) : Option (ℕ × Bytes) :=
  if (r.sink.owners r.sink.writingSlot).state = .writing then some (r.frame r.sink.writingSlot)
  else none

/-- The frame whose delivery reaches `outcome` when the sink moves to `s`. -/
def reached (r : FileRun) (s : FileSink) (outcome : DeliveryState) : Option (ℕ × Bytes) :=
  let before := (r.sink.deliveries r.sink.writingSlot).state
  let after := (s.deliveries r.sink.writingSlot).state
  if before ≠ outcome ∧ after = outcome then some (r.frame r.sink.writingSlot) else none

def setSink (r : FileRun) (s : FileSink) : FileRun := { r with sink := s }

/-- A step of the loop thread, with the outcome it may set. -/
def afterLoop (r : FileRun) (s : FileSink) : FileRun :=
  { r with
    sink := s
    delivered := r.delivered ++ (r.reached s .delivered).toList
    failed := (r.reached s .failed).or r.failed }

/-- A worker step that takes the mutex. -/
def locked (r : FileRun) (s : FileSink) : Option FileRun :=
  if r.sink.loop = .idle then some (r.setSink s) else none

/-- The critical section that ends `StoreRaw`. -/
def finishStore (r : FileRun) (call : StoreCall) : FileRun :=
  let r := { r with storing := none }
  if !call.result.complete then r.setSink (r.sink.resetClaim call.identity)
  else
    let s := (r.sink.store call.identity call.sequence call.result.encodedBytes).1
    if (s.owners call.identity.index).state = .queued then
      { r with
        sink := s
        frames := Function.update r.frames call.identity.index call.frame
        stored := r.stored ++ [(call.sequence, call.frame)] }
    else r.setSink s

def step (conv : Charconv) (r : FileRun) : FileAction → Option FileRun
  | .opened => r.sink.opened.map r.setSink
  | .tryClaimWrite =>
    if r.sink.loop = .idle then
      let (s, claim) := r.sink.tryClaimWrite
      some { r with sink := s, claims := claim.toList ++ r.claims }
    else none
  | .resetClaim claim =>
    match r.claims[claim]? with
    | none => none
    | some identity =>
      { r with claims := r.claims.eraseIdx claim }.locked (r.sink.resetClaim identity)
  | .encode claim sequence record =>
    match r.claims[claim]?, r.storing with
    | some identity, none =>
      let (s, result) := r.sink.encode conv identity.index record
      some { r with
        sink := s
        claims := r.claims.eraseIdx claim
        storing := some ⟨identity, sequence, result,
          encodedFrame conv record (r.sink.buffers identity.index) r.sink.bufferBytes⟩
        lastSequence := some sequence }
    | _, _ => none
  | .store =>
    match r.storing with
    | none => none
    | some call => if r.sink.loop = .idle then some (r.finishStore call) else none
  | .tryRetire sequence => r.locked (r.sink.tryRetire sequence).1
  | .requestClose => r.locked r.sink.requestClose
  | .stop => r.locked r.sink.stop
  | .discardInFlight => r.locked r.sink.discardInFlight
  | .wake => r.sink.onWake.map r.setSink
  | .loop submit => (r.sink.loopStep submit).map r.afterLoop
  | .executeWrite result => (r.sink.executeWrite result).map r.setSink
  | .writeComplete => r.sink.onWriteComplete.map r.setSink
  | .closeComplete result => (r.sink.onCloseComplete result).map r.setSink

def machine (conv : Charconv) (bufferCount maximumRecordBytes : ℕ) (faults : FileFaultPlan) :
    Machine FileRun FileAction where
  init :=
    { sink :=
        { bufferCount := bufferCount
          bufferBytes := maximumRawEncodedBytes maximumRecordBytes
          faults := faults } }
  step := step conv

/-- How the worker uses the sink: sequences increase, and in-flight deliveries are discarded only
after `Stop`. -/
def Disciplined (r : FileRun) : FileAction → Prop
  | .encode _ sequence _ => ∀ last ∈ r.lastSequence, last < sequence
  | .discardInFlight => r.sink.stopping
  | _ => True

instance (r : FileRun) : ∀ a, Decidable (r.Disciplined a)
  | .encode _ sequence _ => inferInstanceAs (Decidable (∀ last ∈ r.lastSequence, last < sequence))
  | .discardInFlight => inferInstanceAs (Decidable (r.sink.stopping = true))
  | .opened | .tryClaimWrite | .resetClaim _ | .store | .tryRetire _ | .requestClose | .stop
  | .wake | .loop _ | .executeWrite _ | .writeComplete | .closeComplete _ => isTrue trivial

/-! ## What a step can do -/

/-- The steps of a run, with what each of them requires. -/
inductive Move (conv : Charconv) (r : FileRun) : FileAction → FileRun → Prop
  | opened : r.sink.closed = false → r.sink.loop = .idle →
      Move conv r .opened (r.setSink { r.sink with asyncOpen := true })
  | tryClaimWrite : r.sink.loop = .idle →
      Move conv r .tryClaimWrite
        { r with
          sink := r.sink.tryClaimWrite.1
          claims := r.sink.tryClaimWrite.2.toList ++ r.claims }
  | resetClaim {claim : ℕ} {identity : FileSlotIdentity} : r.claims[claim]? = some identity →
      r.sink.loop = .idle →
      Move conv r (.resetClaim claim)
        { r with claims := r.claims.eraseIdx claim, sink := r.sink.resetClaim identity }
  | encode {claim sequence : ℕ} {record : RecordView} {identity : FileSlotIdentity} :
      r.claims[claim]? = some identity → r.storing = none →
      Move conv r (.encode claim sequence record)
        { r with
          sink := (r.sink.encode conv identity.index record).1
          claims := r.claims.eraseIdx claim
          storing := some ⟨identity, sequence, (r.sink.encode conv identity.index record).2,
            encodedFrame conv record (r.sink.buffers identity.index) r.sink.bufferBytes⟩
          lastSequence := some sequence }
  | store {call : StoreCall} : r.storing = some call → r.sink.loop = .idle →
      Move conv r .store (r.finishStore call)
  | tryRetire {sequence : ℕ} : r.sink.loop = .idle →
      Move conv r (.tryRetire sequence) (r.setSink (r.sink.tryRetire sequence).1)
  | requestClose : r.sink.loop = .idle →
      Move conv r .requestClose (r.setSink r.sink.requestClose)
  | stop : r.sink.loop = .idle → Move conv r .stop (r.setSink r.sink.stop)
  | discardInFlight : r.sink.loop = .idle →
      Move conv r .discardInFlight (r.setSink r.sink.discardInFlight)
  | wake : r.sink.loop = .idle → Move conv r .wake (r.setSink { r.sink with loop := .pump })
  | pump {submit : ℤ} : r.sink.loop = .pump → Move conv r (.loop submit) (r.afterLoop r.sink.pump)
  | startWrite {submit : ℤ} {index : ℕ} : r.sink.loop = .startWrite index →
      Move conv r (.loop submit) (r.afterLoop (r.sink.startWrite index submit))
  | finishWrite {submit result : ℤ} : r.sink.loop = .finishWrite result →
      Move conv r (.loop submit) (r.afterLoop (r.sink.finishWrite result))
  | startClose {submit : ℤ} : r.sink.loop = .startClose →
      Move conv r (.loop submit) (r.afterLoop (r.sink.startClose submit))
  | finishClose {submit result : ℤ} : r.sink.loop = .finishClose result →
      Move conv r (.loop submit) (r.afterLoop (r.sink.finishClose result))
  | executeWrite {result : ℤ} {index offset length : ℕ} :
      r.sink.request = some ⟨index, offset, length, none⟩ → result ≤ length →
      Move conv r (.executeWrite result)
        (r.setSink
          { r.sink with
            file := r.sink.file ++ read (r.sink.buffers index) offset result.toNat
            request := some ⟨index, offset, length, some result⟩ })
  | writeComplete {result : ℤ} {index offset length : ℕ} :
      r.sink.request = some ⟨index, offset, length, some result⟩ → r.sink.loop = .idle →
      Move conv r .writeComplete
        (r.setSink { r.sink with request := none, loop := .finishWrite result })
  | closeComplete {result : ℤ} : r.sink.closeSubmitted = true → r.sink.loop = .idle →
      Move conv r (.closeComplete result)
        (r.setSink { r.sink with closeSubmitted := false, loop := .finishClose result })

variable {conv : Charconv} {r r' : FileRun}

theorem Move.of_loopStep {submit : ℤ} {s' : FileSink} (h : r.sink.loopStep submit = some s') :
    Move conv r (.loop submit) (r.afterLoop s') := by
  rw [FileSink.loopStep] at h
  split at h
  · cases h
  all_goals
    next hloop =>
      cases h
      constructor
      exact hloop

theorem Move.of_step {a : FileAction} (h : r.step conv a = some r') : Move conv r a r' := by
  cases a with
  | opened =>
    obtain ⟨_, hs, rfl⟩ := Option.map_eq_some_iff.mp h
    obtain ⟨⟨-, hclosed, hidle⟩, heq⟩ := Option.ite_none_right_eq_some.mp hs
    cases heq
    exact .opened (by simpa using hclosed) hidle
  | tryClaimWrite =>
    obtain ⟨hidle, heq⟩ := Option.ite_none_right_eq_some.mp h
    cases heq
    exact .tryClaimWrite hidle
  | resetClaim claim =>
    simp only [step] at h
    split at h
    · cases h
    · next hclaim =>
      obtain ⟨hidle, heq⟩ := Option.ite_none_right_eq_some.mp h
      cases heq
      exact .resetClaim hclaim hidle
  | encode claim sequence record =>
    simp only [step] at h
    split at h
    · next hclaim hstoring =>
      cases h
      exact .encode hclaim hstoring
    · cases h
  | store =>
    simp only [step] at h
    split at h
    · cases h
    · next hcall =>
      obtain ⟨hidle, heq⟩ := Option.ite_none_right_eq_some.mp h
      cases heq
      exact .store hcall hidle
  | tryRetire sequence | requestClose | stop | discardInFlight =>
    obtain ⟨hidle, heq⟩ := Option.ite_none_right_eq_some.mp h
    cases heq
    constructor
    exact hidle
  | wake =>
    obtain ⟨_, hs, rfl⟩ := Option.map_eq_some_iff.mp h
    obtain ⟨⟨-, hidle⟩, heq⟩ := Option.ite_none_right_eq_some.mp hs
    cases heq
    exact .wake hidle
  | loop submit =>
    obtain ⟨_, hs, rfl⟩ := Option.map_eq_some_iff.mp h
    exact .of_loopStep hs
  | executeWrite result =>
    obtain ⟨_, hs, rfl⟩ := Option.map_eq_some_iff.mp h
    rw [FileSink.executeWrite] at hs
    split at hs
    · next hrequest =>
      obtain ⟨⟨-, hle⟩, heq⟩ := Option.ite_none_right_eq_some.mp hs
      cases heq
      exact .executeWrite hrequest hle
    · cases hs
  | writeComplete =>
    obtain ⟨_, hs, rfl⟩ := Option.map_eq_some_iff.mp h
    rw [FileSink.onWriteComplete] at hs
    split at hs
    · next hrequest =>
      obtain ⟨hidle, heq⟩ := Option.ite_none_right_eq_some.mp hs
      cases heq
      exact .writeComplete hrequest hidle
    · cases hs
  | closeComplete result =>
    obtain ⟨_, hs, rfl⟩ := Option.map_eq_some_iff.mp h
    obtain ⟨⟨hsubmitted, hidle⟩, heq⟩ := Option.ite_none_right_eq_some.mp hs
    cases heq
    exact .closeComplete hsubmitted hidle

end FileRun

end Ulog
