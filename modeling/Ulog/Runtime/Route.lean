import Ulog.Runtime.Config

/-!
# The route of a Runtime

`RuntimeRoute` is a variant of the three destinations, and its functions choose by the alternative.
A destination keeps its own machine: every function here is one step of it, or nothing where the
alternative has nothing to do. What the application or the loop thread does to a destination while
the Runtime uses it are the other steps of the same machine.

The worker holds at most one write claim, in the variable with the number zero. A function that
needs the mutex of the file sink is not enabled while the loop thread is in its critical section.
-/

namespace Ulog

inductive RuntimeRoute where
  | structured (config : Destination.Config) (w : Destination.World)
  | encoded (config : Encoded.Config) (w : Encoded.World)
  | file (r : FileRun)

/-- A step of a destination. -/
inductive RouteAction where
  | structured (action : Destination.Action)
  | encoded (action : Encoded.Action)
  | file (action : FileAction)

namespace RouteAction

/-- The step is one of the application's or of the loop thread's. -/
def outside : RouteAction → Bool
  | .structured a =>
    match a with
    | .tryTake _ | .release _ | .moveObservation .. | .resume => true
    | _ => false
  | .encoded a =>
    match a with
    | .tryTakePendingDelivery _ | .finish .. | .movePending .. | .tryTake _ | .release _
    | .moveObservation .. | .setDeliveryMode _ | .resume => true
    | _ => false
  | .file a =>
    match a with
    | .opened | .wake | .loop _ | .executeWrite _ | .writeComplete | .closeComplete _ => true
    | _ => false

end RouteAction

/-- The constructor of `RuntimeRoute`. -/
def RouteConfig.create (config : RuntimeConfig) : RouteConfig → RuntimeRoute
  | .structured destination => .structured destination (Destination.machine destination).init
  | .encoded destination =>
    .encoded destination { state := { paused := destination.startPaused } }
  | .file writeBuffers faults =>
    .file
      { sink :=
          { bufferCount := writeBuffers
            bufferBytes := maximumRawEncodedBytes config.maximumRecordBytes
            faults := faults } }

namespace RuntimeRoute

variable (conv : Charconv)

def step : RuntimeRoute → RouteAction → Option RuntimeRoute
  | .structured config w, .structured a => (w.step config a).map (.structured config)
  | .encoded config w, .encoded a => (w.step conv config a).map (.encoded config)
  | .file r, .file a => (r.step conv a).map .file
  | _, _ => none

/-- The mutex of the destination is free. -/
def unlocked : RuntimeRoute → Bool
  | .structured .. | .encoded .. => true
  | .file r => r.sink.loop == .idle

/-- `WaitForWrite` or `TryClaimWrite`, and whether there is a claim. -/
def tryClaim : RuntimeRoute → Option (RuntimeRoute × Bool)
  | .structured config w =>
    (w.step config (.waitForWrite 0)).map fun w' ↦ (.structured config w', (w'.claims 0).isSome)
  | .encoded config w =>
    (w.step conv config (.tryClaimWrite 0)).map fun w' ↦
      (.encoded config w', (w'.claims 0).isSome)
  | .file r =>
    (r.step conv .tryClaimWrite).map fun r' ↦ (.file r', r.sink.tryClaimWrite.2.isSome)

/-- The part of `Store` or `StoreRaw` before the mutex is taken. -/
def encode (sequence : ℕ) (record : RecordView) : RuntimeRoute → Option RuntimeRoute
  | .structured config w => (w.step config (.copy 0 sequence record)).map (.structured config)
  | .encoded config w => (w.step conv config (.encode 0 sequence record)).map (.encoded config)
  | .file r => (r.step conv (.encode 0 sequence record)).map .file

/-- What the critical section of `StoreRaw` will return. `Store` returns nothing, and what it stored
counts as submitted. -/
def storeResult : RuntimeRoute → StoreResult
  | .structured .. => ⟨0, true⟩
  | .encoded config w =>
    match w.claims 0 with
    | some ⟨identity, some call⟩ =>
      if call.result.complete && w.state.names config identity .reserved then
        ⟨call.result.encodedBytes, true⟩
      else {}
    | _ => {}
  | .file r =>
    match r.storing with
    | some call =>
      if call.result.complete &&
          (r.sink.store call.identity call.sequence call.result.encodedBytes).2 then
        ⟨call.result.encodedBytes, true⟩
      else {}
    | none => {}

/-- The critical section of `Store` or `StoreRaw`. -/
def store : RuntimeRoute → Option RuntimeRoute
  | .structured config w => (w.step config (.commit 0)).map (.structured config)
  | .encoded config w => (w.step conv config (.store 0)).map (.encoded config)
  | .file r => (r.step conv .store).map .file

/-- The destructor of the claim. -/
def dropClaim : RuntimeRoute → Option RuntimeRoute
  | .structured config w => (w.step config (.resetClaim 0)).map (.structured config)
  | .encoded config w => (w.step conv config (.resetClaim 0)).map (.encoded config)
  | .file r => if r.claims = [] then some (.file r) else (r.step conv (.resetClaim 0)).map .file

def tryRetire (sequence : ℕ) : RuntimeRoute → Option (RuntimeRoute × Option DeliveryRetirement)
  | .structured config w => some (.structured config w, none)
  | .encoded config w =>
    (w.step conv config (.tryRetire sequence)).map fun w' ↦
      (.encoded config w', (w.state.tryRetire config sequence).2)
  | .file r =>
    (r.step conv (.tryRetire sequence)).map fun r' ↦ (.file r', (r.sink.tryRetire sequence).2)

def summarizeInFlight (watermark : ℕ) : RuntimeRoute → InFlightSummary
  | .structured .. => {}
  | .encoded config w =>
    Ulog.summarizeInFlight w.state.deliveries config.capacityRecords watermark
  | .file r => r.sink.summarizeInFlight watermark

/-- `TerminalError`. -/
def terminalError : RuntimeRoute → ℤ
  | .structured .. | .encoded .. => 0
  | .file r => r.sink.failureError

def stop : RuntimeRoute → Option RuntimeRoute
  | .structured config w => (w.step config .stop).map (.structured config)
  | .encoded config w => (w.step conv config .stop).map (.encoded config)
  | .file r => (r.step conv .stop).map .file

def requestClose : RuntimeRoute → Option RuntimeRoute
  | .structured config w => some (.structured config w)
  | .encoded config w => some (.encoded config w)
  | .file r => (r.step conv .requestClose).map .file

/-- `CloseResult`. -/
def closeResult : RuntimeRoute → Option ℤ
  | .structured .. | .encoded .. => some 0
  | .file r => r.sink.closeOutcome

def discardInFlight : RuntimeRoute → Option RuntimeRoute
  | .structured config w => some (.structured config w)
  | .encoded config w => (w.step conv config .discardInFlight).map (.encoded config)
  | .file r => (r.step conv .discardInFlight).map .file

end RuntimeRoute

end Ulog
