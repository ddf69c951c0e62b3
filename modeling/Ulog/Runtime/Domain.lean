import Ulog.Control.Reserve
import Ulog.Producer.Kernel
import Ulog.Runtime.Route

/-!
# The Runtime domain

One worker moves Records from the producer kernel to the route and accounts for them in a ledger;
callers start Drain and Shutdown, which the worker or the caller itself completes with a report; the
destructor asks the worker to stop. All of them share the state mutex.

`RuntimeDomain` is the product of the three components with the Runtime's own members. A component
is used through its own machine: the worker and the callers start calls of the kernel and of the
control reserve and wait until those are done, and the calls themselves advance by steps of the
component. The same goes for what producers, the application and the loop thread do.

A critical section is one step as long as it touches at most one thing that the state mutex does not
protect; else `mutex` says who is in it. Waiting for a wake-up and the wake-up itself are left out,
since the worker looks again after an interval in any case.

An `OperationCompletion` is named by the number of its variable in the control reserve, and moving
it hands on the number.
-/

namespace Ulog

inductive ControlActionKind where
  | drain
  | shutdown
  deriving DecidableEq, Repr

structure RouteLedger where
  processedRecords : ℕ := 0
  processedBytes : ℕ := 0
  retiredRecords : ℕ := 0
  deliveredRecords : ℕ := 0
  deliveredBytes : ℕ := 0
  failedRecords : ℕ := 0
  failedBytes : ℕ := 0
  encodingFailedRecords : ℕ := 0
  encodingFailedSequence : Option ℕ := none
  settled : Bool := false
  deriving DecidableEq, Repr

structure RouteDeliveryResult where
  consumed : ConsumeStatus := .empty
  admissionSequence : ℕ := 0
  encodedBytes : ℕ := 0
  submitted : Bool := false
  retired : Bool := false
  deriving DecidableEq, Repr

/-- A Record that the route took for delivery, with what `StoreRaw` returned. -/
structure Taken where
  sequence : ℕ
  result : StoreResult
  deriving DecidableEq, Repr

/-- What `Deliver` returns, by what the callback left. -/
def RuntimeRoute.deliveryResult (route : RuntimeRoute) (consumed : ConsumeStatus)
    (stored : Option Taken) : RouteDeliveryResult :=
  match route with
  | .structured .. =>
    { consumed := consumed, submitted := consumed == .record, retired := consumed == .record }
  | .encoded .. | .file _ =>
    match stored with
    | some taken =>
      { consumed := consumed
        admissionSequence := taken.sequence
        encodedBytes := taken.result.encodedBytes
        submitted := taken.result.submitted }
    | none => { consumed := consumed }

namespace RouteLedger

/-- The critical section of `RetireCompletedDeliveries`. -/
def retire (l : RouteLedger) (retirement : DeliveryRetirement) : RouteLedger :=
  match retirement.outcome with
  | .delivered =>
    { l with
      retiredRecords := l.retiredRecords + 1
      deliveredRecords := l.deliveredRecords + 1
      deliveredBytes := l.deliveredBytes + retirement.encodedBytes }
  | .failed =>
    { l with
      retiredRecords := l.retiredRecords + 1
      failedRecords := l.failedRecords + 1
      failedBytes := l.failedBytes + retirement.encodedBytes }

/-- The critical section of `RecordProcessed`. -/
def process (l : RouteLedger) (delivery : RouteDeliveryResult) : RouteLedger :=
  let l :=
    { l with
      processedRecords := l.processedRecords + 1
      processedBytes := l.processedBytes + delivery.encodedBytes }
  if delivery.retired then l.retire ⟨.delivered, delivery.encodedBytes⟩ else l

/-- `RecordEncodingFailure`. -/
def failEncoding (l : RouteLedger) (admissionSequence : ℕ) : RouteLedger :=
  { l with
    processedRecords := l.processedRecords + 1
    encodingFailedRecords := l.encodingFailedRecords + 1
    encodingFailedSequence := some admissionSequence }

/-- The critical section of `SettleInFlight`. -/
def settle (l : RouteLedger) (inFlight : InFlightSummary) : RouteLedger :=
  { l with
    deliveredRecords := l.deliveredRecords + inFlight.deliveredRecords
    deliveredBytes := l.deliveredBytes + inFlight.deliveredBytes
    failedRecords := l.failedRecords + inFlight.failedRecords
    failedBytes := l.failedBytes + inFlight.failedBytes
    settled := true }

end RouteLedger

/-! ## Program counters -/

/-- How the worker leaves its loop. -/
inductive WorkerExit where
  | destruction
  | routeFailure
  | shutdown (outcome : OperationOutcome)
  deriving DecidableEq, Repr

/-- The outcome that `CompleteActions` is called with. -/
def WorkerExit.outcome : WorkerExit → OperationOutcome
  | .destruction => .cancelled
  | .routeFailure => .failed
  | .shutdown outcome => outcome

/-- `shutdown_outcome` behind the loop of `Run`. -/
def WorkerExit.shutdownOutcome : WorkerExit → Option OperationOutcome
  | .shutdown outcome => some outcome
  | _ => none

/-- `ControlAction`: an entry of the action table. -/
structure RuntimeControlAction where
  kind : ControlActionKind := .drain
  watermark : ℕ := 0
  completion : ℕ := 0
  active : Bool := false
  deriving DecidableEq, Repr

/-- Where the worker is in `Run`. -/
inductive WorkerPc where
  | start
  /-- the head of the loop -/
  | loop
  -- `RetireCompletedDeliveries`
  | retire
  | recordRetirement (sequence : ℕ) (retirement : DeliveryRetirement)
  | checkFailure
  -- `CompleteReadyDrains`, in `RecordProcessed` or in `RetireCompletedDeliveries`
  | readyDrains (stored : Bool)
  | completeDrain (stored : Bool) (completion : ℕ) (report : OperationReport)
  | completingDrain (stored : Bool)
  | terminalError
  | recordTerminalError (error : ℤ)
  -- `PrepareDestructionStop` and `PrepareRouteFailure`
  | prepare (exit : WorkerExit)
  | resetRegistrations (exit : WorkerExit) (index : ℕ)
  | retireRegistration (exit : WorkerExit) (index : ℕ)
  | stopRoute (exit : WorkerExit)
  -- `CompleteActions`
  | nextAction (exit : WorkerExit)
  | buildReport (exit : WorkerExit) (action : RuntimeControlAction) (watermark : ℕ)
  | completeAction (exit : WorkerExit) (completion : ℕ) (report : OperationReport)
  | completingAction (exit : WorkerExit)
  -- `SettleInFlight`
  | settle (exit : WorkerExit)
  | discardInFlight (exit : WorkerExit)
  -- `IsQuiescent`, in `DrainDiscardedRecords` or in `TryFinishShutdown`
  | isQuiescent (exit : Option WorkerExit)
  | quiescent (exit : Option WorkerExit)
  -- `DrainDiscardedRecords`
  | discardRecord (exit : WorkerExit)
  | discarding (exit : WorkerExit)
  -- `TryFinishShutdown`
  | shutdownRequested
  | acceptedRecords
  | compareRetired (accepted : ℕ)
  | requestClose
  | closeResult
  | recordCloseError (error : ℤ)
  /-- the snapshot before `Deliver` -/
  | retained
  -- `Deliver`
  | claim
  | consume
  | consuming (stored : Option Taken)
  | storing (sequence : ℕ)
  | dropClaim (consumed : ConsumeStatus) (stored : Option Taken)
  | recordProcessed (delivery : RouteDeliveryResult)
  | recordEncodingFailure (admissionSequence : ℕ)
  -- behind the loop
  | finish (exit : WorkerExit)
  | stop
  | stopped
  deriving DecidableEq, Repr

/-- Where a thread of the application is in `StartAction` or `GetLogger`. -/
inductive CallerPc where
  | idle
  -- `StartAction`
  | startAction (kind : ControlActionKind) (completion : ℕ)
  | resetRegistrations (completion index : ℕ)
  | retireRegistration (completion index : ℕ)
  | watermark (kind : ControlActionKind) (completion : ℕ) (outcome : Option OperationOutcome)
  | buildReport (kind : ControlActionKind) (completion : ℕ) (outcome : OperationOutcome)
    (watermark : ℕ)
  | tryComplete (completion : ℕ) (outcome : OperationOutcome) (report : OperationReport)
  | completing
  -- `GetLogger`; whether the thread is registered already
  | getLogger (registered : Bool)
  | registering
  | dropRegistration (slot generation : ℕ)
  | droppingRegistration
  deriving DecidableEq, Repr

/-- Where the destructor is in `RequestDestructionStop`. -/
inductive DestructorPc where
  | idle
  | closeAdmission
  | stopRoute
  | done
  deriving DecidableEq, Repr

/-! ## State -/

/-- An Operation that was started, with the Records that were accepted by then. -/
structure Start where
  kind : ControlActionKind
  ref : ControlRef
  accepted : ℕ

/-- The result that is chosen for an Operation. -/
structure Decision where
  kind : ControlActionKind
  completion : ℕ
  outcome : OperationOutcome
  report : OperationReport

/-- The members of `RuntimeDomain`, where its threads are, and the history of the run. -/
structure RuntimeDomain where
  kernel : Kernel
  route : RuntimeRoute
  control : Control
  actions : ℕ → RuntimeControlAction := fun _ ↦ {}
  registrations : ℕ → Option (ℕ × ℕ) := fun _ ↦ none
  ledger : RouteLedger := {}
  workerStarted : Bool := false
  workerStopped : Bool := false
  acceptingActions : Bool := true
  shutdownRequested : Bool := false
  routeFailed : Bool := false
  routeIoError : ℤ := 0
  destructionStopRequested : Bool := false
  workerRunning : Bool := false
  /-- who is in a critical section of more than one step; the worker is thread zero -/
  mutex : Option ℕ := none
  worker : WorkerPc := .start
  callers : ℕ → CallerPc := fun _ ↦ .idle
  destructor : DestructorPc := .idle
  /-- `shutdown_outcome` behind the loop -/
  shutdownOutcome : Option OperationOutcome := none
  /-- the Operations; a completion has the number of its entry -/
  started : List Start := []
  /-- how many Records the route took -/
  taken : ℕ := 0
  /-- what was retired, by `TryRetire` or with its delivery -/
  retirements : List (ℕ × DeliveryOutcome) := []
  decisions : List Decision := []

inductive DomainAction where
  | worker
  | caller (thread : ℕ)
  | startAction (thread : ℕ) (kind : ControlActionKind) (operation : ℕ)
  | getLogger (thread : ℕ) (registered : Bool)
  | destructor
  /-- a step of a producer, or of a kernel call in progress -/
  | kernel (action : KernelAction)
  /-- a step of the application or of the loop thread -/
  | route (action : RouteAction)
  /-- a step of the application or of the dispatcher, or of a call in progress -/
  | control (action : ControlAction)

/-- The thread of the worker in the control reserve. -/
def workerThread : ℕ := 1

namespace RuntimeDomain

variable (conv : Charconv) (setup : RuntimeSetup) (d : RuntimeDomain)

/-- `accepted_records` of a snapshot. -/
def acceptedRecords : ℕ := d.kernel.memory.nextAdmissionSequence

/-- `retained_records` of a snapshot. -/
def retainedRecords : ℕ := d.acceptedRecords - d.kernel.memory.consumedRecords

def goto (pc : WorkerPc) : RuntimeDomain := { d with worker := pc }

def setCaller (thread : ℕ) (pc : CallerPc) : RuntimeDomain :=
  { d with callers := Function.update d.callers thread pc }

def setAction (index : ℕ) (action : RuntimeControlAction) : RuntimeDomain :=
  { d with actions := Function.update d.actions index action }

def setRoute (route : RuntimeRoute) : RuntimeDomain := { d with route := route }

/-- A step that takes the state mutex. -/
def locked (d' : RuntimeDomain) : Option RuntimeDomain := if d.mutex = none then some d' else none

/-- A step with the mutex of the route. -/
def withRoute (d' : RuntimeDomain) : Option RuntimeDomain :=
  if d.route.unlocked then some d' else none

/-- The first entry of the action table with a property. -/
def findAction (p : RuntimeControlAction → Bool) : Option ℕ :=
  (List.range setup.config.controlOperations).find? fun i ↦ p (d.actions i)

/-- `BuildReportLocked` asks the route. -/
def summarizes (watermark : ℕ) : Bool :=
  !d.ledger.settled && d.ledger.retiredRecords < watermark

/-- `BuildReportLocked`. -/
def buildReport (watermark : ℕ) : OperationReport :=
  let l := d.ledger
  let report : OperationReport :=
    if l.settled then
      { watermarkRecords := watermark
        processedRecords := l.processedRecords
        processedBytes := l.processedBytes
        deliveredRecords := l.deliveredRecords
        deliveredBytes := l.deliveredBytes
        failedRecords := l.failedRecords + l.encodingFailedRecords
        failedBytes := l.failedBytes }
    else
      let inFlight :=
        if l.retiredRecords < watermark then d.route.summarizeInFlight watermark else {}
      let encodingFailed := if l.encodingFailedSequence.any (· < watermark) then 1 else 0
      { watermarkRecords := watermark
        processedRecords := l.retiredRecords + inFlight.records + encodingFailed
        processedBytes := l.deliveredBytes + l.failedBytes + inFlight.bytes
        deliveredRecords := l.deliveredRecords + inFlight.deliveredRecords
        deliveredBytes := l.deliveredBytes + inFlight.deliveredBytes
        failedRecords := l.failedRecords + inFlight.failedRecords + encodingFailed
        failedBytes := l.failedBytes + inFlight.failedBytes }
  -- the subtractions are of unsigned words
  let wrap (z : ℤ) : ℕ := (z % wordModulus).toNat
  { report with
    unfinishedRecords := wrap (watermark - report.deliveredRecords - report.failedRecords)
    unfinishedBytes := wrap (report.processedBytes - report.deliveredBytes - report.failedBytes) }

/-- The result that is chosen now. -/
def decision (kind : ControlActionKind) (completion : ℕ) (outcome : OperationOutcome)
    (watermark : ℕ) : Decision where
  kind := kind
  completion := completion
  outcome := outcome
  report := d.buildReport watermark

/-- A result is chosen. -/
def conclude (kind : ControlActionKind) (completion : ℕ) (outcome : OperationOutcome)
    (watermark : ℕ) : RuntimeDomain :=
  { d with decisions := d.decisions ++ [d.decision kind completion outcome watermark] }

/-- `ActionWatermarkLocked`. -/
def actionWatermark (action : RuntimeControlAction) : ℕ :=
  match action.kind with
  | .drain => action.watermark
  | .shutdown => d.acceptedRecords

/-- The Drain is due. -/
def isReady (action : RuntimeControlAction) : Bool :=
  action.active && action.kind == .drain && action.watermark ≤ d.ledger.retiredRecords

/-- The kernel's call is at its callback, which the worker has not finished. -/
def atCallback : Bool :=
  match d.worker, d.kernel.calls consumerThread with
  | .consuming none, .consume ⟨_, .callback ..⟩ => true
  | .storing _, _ => true
  | _, _ => false

/-! ## The worker -/

def kernelStep (action : KernelAction) (f : Kernel → RuntimeDomain) : Option RuntimeDomain :=
  (d.kernel.step conv setup.kernel action).map f

def controlStep (action : ControlAction) (f : Control → RuntimeDomain) :
    Option RuntimeDomain :=
  (d.control.step action).map f

/-- The worker's next step. -/
def workerStep : Option RuntimeDomain :=
  match d.worker with
  | .start => d.locked { d with workerStarted := true, workerRunning := true, worker := .loop }
  | .loop =>
    some (d.goto (if d.destructionStopRequested then .prepare .destruction else .retire))
  | .retire =>
    if d.ledger.retiredRecords < d.ledger.processedRecords then
      (d.route.tryRetire conv d.ledger.retiredRecords).map fun (route, retirement) ↦
        (d.setRoute route).goto
          (match retirement with
          | none => .terminalError
          | some retirement => .recordRetirement d.ledger.retiredRecords retirement)
    else some (d.goto .terminalError)
  | .recordRetirement sequence retirement =>
    d.locked { d with
      ledger := d.ledger.retire retirement
      retirements := d.retirements ++ [(sequence, retirement.outcome)]
      worker := if retirement.outcome = .failed then .checkFailure else .readyDrains false }
  | .checkFailure =>
    d.withRoute (d.goto (if d.route.terminalError ≠ 0 then .terminalError else .readyDrains false))
  | .readyDrains stored =>
    match d.findAction setup d.isReady with
    | none => d.locked (d.goto (if stored then .loop else .retire))
    | some index =>
      let action := d.actions index
      d.locked (((d.conclude .drain action.completion .succeeded action.watermark).setAction index
        { action with active := false }).goto
          (.completeDrain stored action.completion (d.buildReport action.watermark)))
  | .completeDrain stored completion report =>
    d.controlStep (.tryComplete workerThread completion .succeeded report) fun control ↦
      { d with control := control, worker := .completingDrain stored }
  | .completingDrain stored =>
    if d.control.calls workerThread = none then some (d.goto (.readyDrains stored)) else none
  | .terminalError =>
    d.withRoute (d.goto
      (if d.route.terminalError ≠ 0 then .recordTerminalError d.route.terminalError
      else .shutdownRequested))
  | .recordTerminalError error =>
    d.locked { d with
      routeFailed := true
      routeIoError := error
      worker := .prepare .routeFailure }
  | .prepare exit =>
    (d.kernelStep conv setup .closeAdmission fun kernel ↦
      { d with
        kernel := kernel
        routeFailed := d.routeFailed || exit == .routeFailure
        acceptingActions := false
        mutex := some consumerThread
        worker := .resetRegistrations exit 0 }).bind d.locked
  | .resetRegistrations exit index =>
    if index < maximumProducerSlots then
      match d.registrations index with
      | none => some (d.goto (.resetRegistrations exit (index + 1)))
      | some (slot, generation) =>
        d.kernelStep conv setup (.retire consumerThread slot generation) fun kernel ↦
          { d with
            kernel := kernel
            registrations := Function.update d.registrations index none
            worker := .retireRegistration exit index }
    else some { d with mutex := none, worker := .stopRoute exit }
  | .retireRegistration exit index =>
    d.kernelStep conv setup (.return consumerThread) fun kernel ↦
      { d with kernel := kernel, worker := .resetRegistrations exit (index + 1) }
  | .stopRoute exit =>
    (d.route.stop conv).map fun route ↦ (d.setRoute route).goto (.nextAction exit)
  | .nextAction exit =>
    match d.findAction setup (·.active) with
    | none =>
      d.locked (d.goto (if exit.shutdownOutcome = none then .settle exit else .stop))
    | some index =>
      let action := d.actions index
      d.locked { d.setAction index { action with active := false } with
        mutex := some consumerThread
        worker := .buildReport exit action (d.actionWatermark action) }
  | .buildReport exit action watermark =>
    if !d.summarizes watermark || d.route.unlocked then
      some { d.conclude action.kind action.completion exit.outcome watermark with
        mutex := none
        worker := .completeAction exit action.completion (d.buildReport watermark) }
    else none
  | .completeAction exit completion report =>
    d.controlStep (.tryComplete workerThread completion exit.outcome report) fun control ↦
      { d with control := control, worker := .completingAction exit }
  | .completingAction exit =>
    if d.control.calls workerThread = none then some (d.goto (.nextAction exit)) else none
  | .settle exit =>
    (d.withRoute { d with
      ledger := d.ledger.settle (d.route.summarizeInFlight (2 ^ 64 - 1))
      worker := .discardInFlight exit }).bind d.locked
  | .discardInFlight exit =>
    (d.route.discardInFlight conv).map fun route ↦
      (d.setRoute route).goto (.isQuiescent (some exit))
  | .isQuiescent exit =>
    d.kernelStep conv setup (.quiescent consumerThread) fun kernel ↦
      { d with kernel := kernel, worker := .quiescent exit }
  | .quiescent exit =>
    match d.kernel.calls consumerThread with
    | .quiescent call =>
      d.kernelStep conv setup (.return consumerThread) fun kernel ↦
        { d with
          kernel := kernel
          worker :=
            match exit with
            | none => if call.quiescent then .acceptedRecords else .retained
            | some exit => if call.quiescent then .finish exit else .discardRecord exit }
    | _ => none
  | .discardRecord exit =>
    d.kernelStep conv setup (.consume true) fun kernel ↦
      { d with kernel := kernel, worker := .discarding exit }
  | .discarding exit =>
    d.kernelStep conv setup (.return consumerThread) fun kernel ↦
      { d with kernel := kernel, worker := .isQuiescent (some exit) }
  | .shutdownRequested =>
    d.locked (d.goto (if d.shutdownRequested then .isQuiescent none else .retained))
  | .acceptedRecords => some (d.goto (.compareRetired d.acceptedRecords))
  | .compareRetired accepted =>
    d.locked (d.goto (if d.ledger.retiredRecords ≠ accepted then .retained else .requestClose))
  | .requestClose =>
    (d.route.requestClose conv).map fun route ↦ (d.setRoute route).goto .closeResult
  | .closeResult =>
    d.withRoute (d.goto
      (match d.route.closeResult with
      | none => .retained
      | some error =>
        if error ≠ 0 then .recordCloseError error else .finish (.shutdown .succeeded)))
  | .recordCloseError error =>
    d.locked { d with
      routeFailed := true
      routeIoError := error
      worker := .finish (.shutdown .failed) }
  | .retained => some (d.goto (if d.retainedRecords ≠ 0 then .claim else .loop))
  | .claim =>
    (d.route.tryClaim conv).map fun (route, claimed) ↦
      (d.setRoute route).goto (if claimed then .consume else .loop)
  | .consume =>
    d.kernelStep conv setup (.consume true) fun kernel ↦
      { d with kernel := kernel, worker := .consuming none }
  | .consuming stored =>
    match d.kernel.calls consumerThread, stored with
    | .consume ⟨_, .callback claim view⟩, none =>
      (d.route.encode conv claim.envelope.admissionSequence view).map fun route ↦
        (d.setRoute route).goto (.storing claim.envelope.admissionSequence)
    | .consume ⟨_, .done consumed⟩, _ =>
      d.kernelStep conv setup (.return consumerThread) fun kernel ↦
        { d with kernel := kernel, worker := .dropClaim consumed stored }
    | _, _ => none
  | .storing sequence =>
    (d.route.store conv).map fun route ↦
      { d.setRoute route with
        taken := d.taken + 1
        worker := .consuming (some ⟨sequence, d.route.storeResult⟩) }
  | .dropClaim consumed stored =>
    (d.route.dropClaim conv).map fun route ↦
      let delivery := d.route.deliveryResult consumed stored
      (d.setRoute route).goto
        (if consumed = .record then
          if delivery.submitted then .recordProcessed delivery
          else .recordEncodingFailure delivery.admissionSequence
        else .loop)
  | .recordProcessed delivery =>
    d.locked { d with
      ledger := d.ledger.process delivery
      -- a Record that retires with its delivery is the one that was taken last
      retirements := d.retirements ++ if delivery.retired then [(d.taken - 1, .delivered)] else []
      worker := if delivery.retired then .readyDrains true else .loop }
  | .recordEncodingFailure admissionSequence =>
    d.locked { d with
      ledger := d.ledger.failEncoding admissionSequence
      worker := .prepare .routeFailure }
  | .finish exit =>
    d.locked { d with
      acceptingActions := false
      workerRunning := false
      shutdownOutcome := exit.shutdownOutcome
      worker := if exit.shutdownOutcome = none then .stop else .nextAction exit }
  | .stop => d.locked { d with workerStopped := true, worker := .stopped }
  | .stopped => none

/-! ## Callers -/

/-- The next step of a `StartAction` or `GetLogger` call. -/
def callerStep (t : ℕ) : Option RuntimeDomain :=
  match d.callers t with
  | .idle => none
  | .startAction kind completion =>
    if !d.acceptingActions then
      let outcome : OperationOutcome :=
        if d.destructionStopRequested then .cancelled
        else if d.routeFailed then .failed
        else .succeeded
      d.locked { d.setCaller t (.watermark kind completion (some outcome)) with mutex := some t }
    else if kind = .shutdown ∧ !d.shutdownRequested then
      (d.kernelStep conv setup .closeAdmission fun kernel ↦
        { d.setCaller t (.resetRegistrations completion 0) with
          kernel := kernel
          shutdownRequested := true
          mutex := some t }).bind d.locked
    else d.locked { d.setCaller t (.watermark kind completion none) with mutex := some t }
  | .resetRegistrations completion index =>
    if index < maximumProducerSlots then
      match d.registrations index with
      | none => some (d.setCaller t (.resetRegistrations completion (index + 1)))
      | some (slot, generation) =>
        d.kernelStep conv setup (.retire t slot generation) fun kernel ↦
          { d.setCaller t (.retireRegistration completion index) with
            kernel := kernel
            registrations := Function.update d.registrations index none }
    else some (d.setCaller t (.watermark .shutdown completion none))
  | .retireRegistration completion index =>
    d.kernelStep conv setup (.return t) fun kernel ↦
      { d.setCaller t (.resetRegistrations completion (index + 1)) with kernel := kernel }
  | .watermark kind completion (some outcome) =>
    some (d.setCaller t (.buildReport kind completion outcome d.acceptedRecords))
  | .watermark kind completion none =>
    let watermark := d.acceptedRecords
    if kind = .drain ∧ watermark = d.ledger.retiredRecords then
      some { (d.conclude kind completion .succeeded watermark).setCaller t
          (.tryComplete completion .succeeded (d.buildReport watermark)) with mutex := none }
    else
      match d.findAction setup (!·.active) with
      | none => some (d.setCaller t (.buildReport kind completion .failed watermark))
      | some index =>
        some { (d.setAction index ⟨kind, watermark, completion, true⟩).setCaller t .idle with
          mutex := none }
  | .buildReport kind completion outcome watermark =>
    if !d.summarizes watermark || d.route.unlocked then
      some { (d.conclude kind completion outcome watermark).setCaller t
          (.tryComplete completion outcome (d.buildReport watermark)) with mutex := none }
    else none
  | .tryComplete completion outcome report =>
    d.controlStep (.tryComplete t completion outcome report) fun control ↦
      { d.setCaller t .completing with control := control }
  | .completing => if d.control.calls t = none then some (d.setCaller t .idle) else none
  | .getLogger registered =>
    if !d.acceptingActions || !d.kernel.memory.admissionOpen || registered then
      d.locked (d.setCaller t .idle)
    else
      (d.kernelStep conv setup (.register t) fun kernel ↦
        { d.setCaller t .registering with kernel := kernel, mutex := some t }).bind d.locked
  | .registering =>
    match d.kernel.calls t with
    | .register (.done registration) =>
      d.kernelStep conv setup (.return t) fun kernel ↦
        match registration with
        | none => { d.setCaller t .idle with kernel := kernel, mutex := none }
        | some (slot, generation) =>
          match (List.range maximumProducerSlots).find? fun i ↦ (d.registrations i).isNone with
          | some index =>
            { d.setCaller t .idle with
              kernel := kernel
              registrations := Function.update d.registrations index (some (slot, generation))
              mutex := none }
          | none => { d.setCaller t (.dropRegistration slot generation) with kernel := kernel }
    | _ => none
  | .dropRegistration slot generation =>
    d.kernelStep conv setup (.retire t slot generation) fun kernel ↦
      { d.setCaller t .droppingRegistration with kernel := kernel }
  | .droppingRegistration =>
    d.kernelStep conv setup (.return t) fun kernel ↦
      { d.setCaller t .idle with kernel := kernel, mutex := none }

/-- `TryStart` at the start of `StartAction`. -/
def startAction (t : ℕ) (kind : ControlActionKind) (operation : ℕ) : Option RuntimeDomain :=
  if workerThread < t ∧ d.callers t = .idle then
    d.controlStep (.tryStart operation d.started.length) fun control ↦
      match control.completions d.started.length with
      | none => { d with control := control }
      | some ref =>
        { d.setCaller t (.startAction kind d.started.length) with
          control := control
          started := d.started ++ [⟨kind, ref, d.acceptedRecords⟩] }
  else none

/-- `RequestDestructionStop`. -/
def destructorStep : Option RuntimeDomain :=
  match d.destructor with
  | .idle => some { d with destructionStopRequested := true, destructor := .closeAdmission }
  | .closeAdmission =>
    d.kernelStep conv setup .closeAdmission fun kernel ↦
      { d with kernel := kernel, destructor := .stopRoute }
  | .stopRoute =>
    (d.route.stop conv).map fun route ↦ { d.setRoute route with destructor := .done }
  | .done => none

/-- What producers do, and what a call in progress does. The worker runs the callback itself. -/
def permitsKernel : KernelAction → Bool
  | .publish t .. => t != consumerThread
  | .advance t _ => t != consumerThread || !d.atCallback
  | .return t =>
    match d.kernel.calls t with
    | .publish _ => true
    | _ => false
  | _ => false

/-- What the application and the dispatcher do, and what a call in progress does. The worker's
thread is its own. -/
def permitsControl : ControlAction → Bool
  | .moveOperation .. | .dispatch | .advance _ => true
  | .resetOperation t _ | .onComplete t .. => t != workerThread
  | _ => false

def step : DomainAction → Option RuntimeDomain
  | .worker => d.workerStep conv setup
  | .caller t => d.callerStep conv setup t
  | .startAction t kind operation => d.startAction t kind operation
  | .getLogger t registered =>
    if workerThread < t ∧ d.callers t = .idle then some (d.setCaller t (.getLogger registered))
    else none
  | .destructor => d.destructorStep conv setup
  | .kernel action =>
    if d.permitsKernel action then
      d.kernelStep conv setup action fun kernel ↦ { d with kernel := kernel }
    else none
  | .route action => if action.outside then (d.route.step conv action).map d.setRoute else none
  | .control action =>
    if permitsControl action then
      d.controlStep action fun control ↦ { d with control := control }
    else none

def init : RuntimeDomain where
  kernel := Kernel.init setup.kernel
  route := setup.route.create setup.config
  control := Control.init setup.controlCapacity

def machine : Machine RuntimeDomain DomainAction where
  init := init setup
  step d := d.step conv setup

/-- With one buffer, where no value needs `std::to_chars`. -/
abbrev oneBuffer : Machine RuntimeDomain DomainAction :=
  machine .blank .oneBuffer

end RuntimeDomain

end Ulog
