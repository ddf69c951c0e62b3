import Ulog.Runtime.Domain

/-!
# What a step of the Runtime can do

The steps of the worker, of the callers and of everyone else, each with what it requires. Steps of
the worker that only look at something are `Reads`; those that start or end a call of the kernel are
`CallsKernel`, and those that use the route are `UsesRoute`. All other steps are spelled out.
-/

namespace Ulog.RuntimeDomain

variable (conv : Charconv) (setup : RuntimeSetup) (d : RuntimeDomain)

/-! ## The worker -/

/-- The worker looks at something and goes on. -/
inductive Reads : WorkerPc → WorkerPc → Prop
  | destruction (hstop : d.destructionStopRequested = true) : Reads .loop (.prepare .destruction)
  | loop : Reads .loop .retire
  | retire (hretired : ¬d.ledger.retiredRecords < d.ledger.processedRecords) :
      Reads .retire .terminalError
  | failed (herror : d.route.terminalError ≠ 0) : Reads .checkFailure .terminalError
  | notFailed (herror : d.route.terminalError = 0) : Reads .checkFailure (.readyDrains false)
  | completingDrain {stored : Bool} : Reads (.completingDrain stored) (.readyDrains stored)
  | terminalError (herror : d.route.terminalError ≠ 0) :
      Reads .terminalError (.recordTerminalError d.route.terminalError)
  | noTerminalError (herror : d.route.terminalError = 0) : Reads .terminalError .shutdownRequested
  | resetRegistrations {exit : WorkerExit} {index : ℕ} :
      Reads (.resetRegistrations exit index) (.resetRegistrations exit (index + 1))
  | completingAction {exit : WorkerExit} : Reads (.completingAction exit) (.nextAction exit)
  | shutdown (hmutex : d.mutex = none) (hrequested : d.shutdownRequested = true) :
      Reads .shutdownRequested (.isQuiescent none)
  | noShutdown : Reads .shutdownRequested .retained
  | acceptedRecords : Reads .acceptedRecords (.compareRetired d.acceptedRecords)
  | unretired {accepted : ℕ} : Reads (.compareRetired accepted) .retained
  | allRetired {accepted : ℕ} (hretired : d.ledger.retiredRecords = accepted) :
      Reads (.compareRetired accepted) .requestClose
  | notClosed : Reads .closeResult .retained
  | closeFailed {error : ℤ} (hclose : d.route.closeResult = some error) (herror : error ≠ 0) :
      Reads .closeResult (.recordCloseError error)
  | closed (hclose : d.route.closeResult = some 0) :
      Reads .closeResult (.finish (.shutdown .succeeded))
  | retained : Reads .retained .claim
  | nothingRetained : Reads .retained .loop

/-- The worker starts a call of the kernel, or the call returns. -/
inductive CallsKernel : WorkerPc → KernelAction → WorkerPc → Prop
  | retireRegistration {exit : WorkerExit} {index : ℕ} :
      CallsKernel (.retireRegistration exit index) (.return consumerThread)
        (.resetRegistrations exit (index + 1))
  | isQuiescent {exit : Option WorkerExit} :
      CallsKernel (.isQuiescent exit) (.quiescent consumerThread) (.quiescent exit)
  | quiescent {call : QuiescentFrame} (hcall : d.kernel.calls consumerThread = .quiescent call)
      (hquiescent : call.quiescent = true) :
      CallsKernel (.quiescent none) (.return consumerThread) .acceptedRecords
  | notQuiescent : CallsKernel (.quiescent none) (.return consumerThread) .retained
  | drained {exit : WorkerExit} :
      CallsKernel (.quiescent (some exit)) (.return consumerThread) (.finish exit)
  | notDrained {exit : WorkerExit} :
      CallsKernel (.quiescent (some exit)) (.return consumerThread) (.discardRecord exit)
  | discardRecord {exit : WorkerExit} :
      CallsKernel (.discardRecord exit) (.consume true) (.discarding exit)
  | discarding {exit : WorkerExit} :
      CallsKernel (.discarding exit) (.return consumerThread) (.isQuiescent (some exit))
  | consume : CallsKernel .consume (.consume true) (.consuming none)
  | consuming {stored : Option Taken} {hasConsumer : Bool} {consumed : ConsumeStatus}
      (hcall : d.kernel.calls consumerThread = .consume ⟨hasConsumer, .done consumed⟩) :
      CallsKernel (.consuming stored) (.return consumerThread) (.dropClaim consumed stored)

/-- The worker uses the route. -/
inductive UsesRoute (route : RuntimeRoute) : WorkerPc → WorkerPc → Prop
  | retire {retirement : DeliveryRetirement}
      (hretired : d.ledger.retiredRecords < d.ledger.processedRecords)
      (hroute : d.route.tryRetire conv d.ledger.retiredRecords = some (route, some retirement)) :
      UsesRoute route .retire (.recordRetirement d.ledger.retiredRecords retirement)
  | notCompleted (hroute : d.route.tryRetire conv d.ledger.retiredRecords = some (route, none)) :
      UsesRoute route .retire .terminalError
  | stopRoute {exit : WorkerExit} (hroute : d.route.stop conv = some route) :
      UsesRoute route (.stopRoute exit) (.nextAction exit)
  | discardInFlight {exit : WorkerExit} (hroute : d.route.discardInFlight conv = some route) :
      UsesRoute route (.discardInFlight exit) (.isQuiescent (some exit))
  | requestClose (hroute : d.route.requestClose conv = some route) :
      UsesRoute route .requestClose .closeResult
  | claim (hroute : d.route.tryClaim conv = some (route, true)) :
      UsesRoute route .claim .consume
  | noClaim (hroute : d.route.tryClaim conv = some (route, false)) :
      UsesRoute route .claim .loop
  | encode {hasConsumer : Bool} {claim : ConsumptionClaim} {view : RecordView}
      (hcall : d.kernel.calls consumerThread = .consume ⟨hasConsumer, .callback claim view⟩)
      (hroute : d.route.encode conv claim.envelope.admissionSequence view = some route) :
      UsesRoute route (.consuming none) (.storing claim.envelope.admissionSequence)
  | submitted {stored : Option Taken} (hroute : d.route.dropClaim conv = some route)
      (hsubmitted : (d.route.deliveryResult .record stored).submitted = true) :
      UsesRoute route (.dropClaim .record stored)
        (.recordProcessed (d.route.deliveryResult .record stored))
  | notSubmitted {stored : Option Taken} (hroute : d.route.dropClaim conv = some route)
      (hsubmitted : (d.route.deliveryResult .record stored).submitted = false) :
      UsesRoute route (.dropClaim .record stored)
        (.recordEncodingFailure (d.route.deliveryResult .record stored).admissionSequence)
  | noRecord {consumed : ConsumeStatus} {stored : Option Taken} (hconsumed : consumed ≠ .record)
      (hroute : d.route.dropClaim conv = some route) :
      UsesRoute route (.dropClaim consumed stored) .loop

/-- The worker completes an Operation. -/
inductive Completes : WorkerPc → ℕ → OperationOutcome → OperationReport → WorkerPc → Prop
  | completeDrain {stored : Bool} {completion : ℕ} {report : OperationReport} :
      Completes (.completeDrain stored completion report) completion .succeeded report
        (.completingDrain stored)
  | completeAction {exit : WorkerExit} {completion : ℕ} {report : OperationReport} :
      Completes (.completeAction exit completion report) completion exit.outcome report
        (.completingAction exit)

/-- The steps of the worker. -/
inductive WorkerMove : WorkerPc → RuntimeDomain → Prop
  | reads {pc pc' : WorkerPc} (h : d.Reads pc pc') : WorkerMove pc (d.goto pc')
  | callsKernel {action : KernelAction} {pc pc' : WorkerPc} {kernel : Kernel}
      (h : d.CallsKernel pc action pc')
      (hkernel : d.kernel.step conv setup.kernel action = some kernel) :
      WorkerMove pc { d with kernel := kernel, worker := pc' }
  | usesRoute {route : RuntimeRoute} {pc pc' : WorkerPc} (h : d.UsesRoute conv route pc pc') :
      WorkerMove pc ((d.setRoute route).goto pc')
  | completes {completion : ℕ} {outcome : OperationOutcome} {report : OperationReport}
      {pc pc' : WorkerPc} {control : Control} (h : Completes pc completion outcome report pc')
      (hcontrol : d.control.step (.tryComplete workerThread completion outcome report) =
        some control) :
      WorkerMove pc { d with control := control, worker := pc' }
  | start (hmutex : d.mutex = none) :
      WorkerMove .start { d with workerStarted := true, workerRunning := true, worker := .loop }
  | recordRetirement {sequence : ℕ} {retirement : DeliveryRetirement} (hmutex : d.mutex = none) :
      WorkerMove (.recordRetirement sequence retirement) { d with
        ledger := d.ledger.retire retirement
        retirements := d.retirements ++ [(sequence, retirement.outcome)]
        worker := if retirement.outcome = .failed then .checkFailure else .readyDrains false }
  | noneReady {stored : Bool} (hmutex : d.mutex = none)
      (hfind : d.findAction setup d.isReady = none) :
      WorkerMove (.readyDrains stored) (d.goto (if stored then .loop else .retire))
  | ready {stored : Bool} {index : ℕ} (hmutex : d.mutex = none)
      (hfind : d.findAction setup d.isReady = some index) :
      WorkerMove (.readyDrains stored) (((d.conclude .drain (d.actions index).completion .succeeded
        (d.actions index).watermark).setAction index
          { d.actions index with active := false }).goto
          (.completeDrain stored (d.actions index).completion
            (d.buildReport (d.actions index).watermark)))
  | recordTerminalError {error : ℤ} (hmutex : d.mutex = none) :
      WorkerMove (.recordTerminalError error) { d with
        routeFailed := true
        routeIoError := error
        worker := .prepare .routeFailure }
  | prepare {exit : WorkerExit} {kernel : Kernel} (hmutex : d.mutex = none)
      (hkernel : d.kernel.step conv setup.kernel .closeAdmission = some kernel) :
      WorkerMove (.prepare exit) { d with
        kernel := kernel
        routeFailed := d.routeFailed || exit == .routeFailure
        acceptingActions := false
        mutex := some consumerThread
        worker := .resetRegistrations exit 0 }
  | resetRegistration {exit : WorkerExit} {index slot generation : ℕ} {kernel : Kernel}
      (hkernel : d.kernel.step conv setup.kernel (.retire consumerThread slot generation) =
        some kernel) :
      WorkerMove (.resetRegistrations exit index) { d with
        kernel := kernel
        registrations := Function.update d.registrations index none
        worker := .retireRegistration exit index }
  | prepared {exit : WorkerExit} {index : ℕ} :
      WorkerMove (.resetRegistrations exit index)
        { d with mutex := none, worker := .stopRoute exit }
  | noneActive {exit : WorkerExit} (hmutex : d.mutex = none)
      (hfind : d.findAction setup (·.active) = none) :
      WorkerMove (.nextAction exit)
        (d.goto (if exit.shutdownOutcome = none then .settle exit else .stop))
  | takeAction {exit : WorkerExit} {index : ℕ} (hmutex : d.mutex = none)
      (hfind : d.findAction setup (·.active) = some index) :
      WorkerMove (.nextAction exit)
        { d.setAction index { d.actions index with active := false } with
          mutex := some consumerThread
          worker := .buildReport exit (d.actions index) (d.actionWatermark (d.actions index)) }
  | buildReport {exit : WorkerExit} {action : RuntimeControlAction} {watermark : ℕ} :
      WorkerMove (.buildReport exit action watermark)
        { d.conclude action.kind action.completion exit.outcome watermark with
          mutex := none
          worker := .completeAction exit action.completion (d.buildReport watermark) }
  | settle {exit : WorkerExit} (hmutex : d.mutex = none) :
      WorkerMove (.settle exit) { d with
        ledger := d.ledger.settle (d.route.summarizeInFlight (2 ^ 64 - 1))
        worker := .discardInFlight exit }
  | recordCloseError {error : ℤ} (hmutex : d.mutex = none) :
      WorkerMove (.recordCloseError error) { d with
        routeFailed := true
        routeIoError := error
        worker := .finish (.shutdown .failed) }
  | store {sequence : ℕ} {route : RuntimeRoute} (hroute : d.route.store conv = some route) :
      WorkerMove (.storing sequence) { d.setRoute route with
        taken := d.taken + 1
        worker := .consuming (some ⟨sequence, d.route.storeResult⟩) }
  | recordProcessed {delivery : RouteDeliveryResult} (hmutex : d.mutex = none) :
      WorkerMove (.recordProcessed delivery) { d with
        ledger := d.ledger.process delivery
        retirements := d.retirements ++ if delivery.retired then [(d.taken - 1, .delivered)] else []
        worker := if delivery.retired then .readyDrains true else .loop }
  | recordEncodingFailure {admissionSequence : ℕ} (hmutex : d.mutex = none) :
      WorkerMove (.recordEncodingFailure admissionSequence) { d with
        ledger := d.ledger.failEncoding admissionSequence
        worker := .prepare .routeFailure }
  | finish {exit : WorkerExit} (hmutex : d.mutex = none) :
      WorkerMove (.finish exit) { d with
        acceptingActions := false
        workerRunning := false
        shutdownOutcome := exit.shutdownOutcome
        worker := if exit.shutdownOutcome = none then .stop else .nextAction exit }
  | stop (hmutex : d.mutex = none) :
      WorkerMove .stop { d with workerStopped := true, worker := .stopped }

/-! ## Callers -/

/-- What `StartAction` answers when no actions are accepted. -/
def refusal : OperationOutcome :=
  if d.destructionStopRequested then .cancelled
  else if d.routeFailed then .failed
  else .succeeded

/-- The steps of a caller. -/
inductive CallerMove (t : ℕ) : CallerPc → RuntimeDomain → Prop
  | refuse {kind : ControlActionKind} {completion : ℕ} (haccepting : d.acceptingActions = false)
      (hmutex : d.mutex = none) :
      CallerMove t (.startAction kind completion)
        { d.setCaller t (.watermark kind completion (some d.refusal)) with mutex := some t }
  | close {completion : ℕ} {kernel : Kernel} (haccepting : d.acceptingActions = true)
      (hmutex : d.mutex = none)
      (hkernel : d.kernel.step conv setup.kernel .closeAdmission = some kernel) :
      CallerMove t (.startAction .shutdown completion)
        { d.setCaller t (.resetRegistrations completion 0) with
          kernel := kernel
          shutdownRequested := true
          mutex := some t }
  | enter {kind : ControlActionKind} {completion : ℕ} (haccepting : d.acceptingActions = true)
      (hshutdown : kind = .shutdown → d.shutdownRequested = true) (hmutex : d.mutex = none) :
      CallerMove t (.startAction kind completion)
        { d.setCaller t (.watermark kind completion none) with mutex := some t }
  | nextRegistration {completion index : ℕ} :
      CallerMove t (.resetRegistrations completion index)
        (d.setCaller t (.resetRegistrations completion (index + 1)))
  | resetRegistration {completion index slot generation : ℕ} {kernel : Kernel}
      (hkernel : d.kernel.step conv setup.kernel (.retire t slot generation) = some kernel) :
      CallerMove t (.resetRegistrations completion index)
        { d.setCaller t (.retireRegistration completion index) with
          kernel := kernel
          registrations := Function.update d.registrations index none }
  | retireRegistration {completion index : ℕ} {kernel : Kernel}
      (hkernel : d.kernel.step conv setup.kernel (.return t) = some kernel) :
      CallerMove t (.retireRegistration completion index)
        { d.setCaller t (.resetRegistrations completion (index + 1)) with kernel := kernel }
  | closed {completion index : ℕ} :
      CallerMove t (.resetRegistrations completion index)
        (d.setCaller t (.watermark .shutdown completion none))
  | watermark {kind : ControlActionKind} {completion : ℕ} {outcome : OperationOutcome} :
      CallerMove t (.watermark kind completion (some outcome))
        (d.setCaller t (.buildReport kind completion outcome d.acceptedRecords))
  | drained {completion : ℕ} (hretired : d.acceptedRecords = d.ledger.retiredRecords) :
      CallerMove t (.watermark .drain completion none)
        { (d.conclude .drain completion .succeeded d.acceptedRecords).setCaller t
          (.tryComplete completion .succeeded (d.buildReport d.acceptedRecords)) with
          mutex := none }
  | noEntry {kind : ControlActionKind} {completion : ℕ}
      (hfind : d.findAction setup (!·.active) = none) :
      CallerMove t (.watermark kind completion none)
        (d.setCaller t (.buildReport kind completion .failed d.acceptedRecords))
  | register {kind : ControlActionKind} {completion index : ℕ}
      (hretired : kind = .drain → d.acceptedRecords ≠ d.ledger.retiredRecords)
      (hfind : d.findAction setup (!·.active) = some index) :
      CallerMove t (.watermark kind completion none)
        { (d.setAction index ⟨kind, d.acceptedRecords, completion, true⟩).setCaller t .idle with
          mutex := none }
  | buildReport {kind : ControlActionKind} {completion watermark : ℕ} {outcome : OperationOutcome} :
      CallerMove t (.buildReport kind completion outcome watermark)
        { (d.conclude kind completion outcome watermark).setCaller t
          (.tryComplete completion outcome (d.buildReport watermark)) with mutex := none }
  | tryComplete {completion : ℕ} {outcome : OperationOutcome} {report : OperationReport}
      {control : Control}
      (hcontrol : d.control.step (.tryComplete t completion outcome report) = some control) :
      CallerMove t (.tryComplete completion outcome report)
        { d.setCaller t .completing with control := control }
  | completing : CallerMove t .completing (d.setCaller t .idle)
  | logger {registered : Bool} (hmutex : d.mutex = none) :
      CallerMove t (.getLogger registered) (d.setCaller t .idle)
  | registerProducer {registered : Bool} {kernel : Kernel} (hmutex : d.mutex = none)
      (hkernel : d.kernel.step conv setup.kernel (.register t) = some kernel) :
      CallerMove t (.getLogger registered)
        { d.setCaller t .registering with kernel := kernel, mutex := some t }
  | registered {kernel : Kernel} {registrations : ℕ → Option (ℕ × ℕ)}
      (hkernel : d.kernel.step conv setup.kernel (.return t) = some kernel) :
      CallerMove t .registering { d.setCaller t .idle with
        kernel := kernel
        registrations := registrations
        mutex := none }
  | noPlace {slot generation : ℕ} {kernel : Kernel}
      (hkernel : d.kernel.step conv setup.kernel (.return t) = some kernel) :
      CallerMove t .registering
        { d.setCaller t (.dropRegistration slot generation) with kernel := kernel }
  | dropRegistration {slot generation : ℕ} {kernel : Kernel}
      (hkernel : d.kernel.step conv setup.kernel (.retire t slot generation) = some kernel) :
      CallerMove t (.dropRegistration slot generation)
        { d.setCaller t .droppingRegistration with kernel := kernel }
  | droppingRegistration {kernel : Kernel}
      (hkernel : d.kernel.step conv setup.kernel (.return t) = some kernel) :
      CallerMove t .droppingRegistration
        { d.setCaller t .idle with kernel := kernel, mutex := none }

/-- The steps of the Runtime. -/
inductive Move : DomainAction → RuntimeDomain → Prop
  | worker {pc : WorkerPc} {d' : RuntimeDomain} (hpc : d.worker = pc)
      (h : d.WorkerMove conv setup pc d') : Move .worker d'
  | caller {t : ℕ} {pc : CallerPc} {d' : RuntimeDomain} (hpc : d.callers t = pc)
      (h : d.CallerMove conv setup t pc d') : Move (.caller t) d'
  | startFailed {t operation : ℕ} {kind : ControlActionKind} {control : Control}
      (hcontrol : d.control.step (.tryStart operation d.started.length) = some control)
      (hnone : control.completions d.started.length = none) :
      Move (.startAction t kind operation) { d with control := control }
  | started {t operation : ℕ} {kind : ControlActionKind} {control : Control} {ref : ControlRef}
      (ht : workerThread < t) (hpc : d.callers t = .idle)
      (hcontrol : d.control.step (.tryStart operation d.started.length) = some control)
      (href : control.completions d.started.length = some ref) :
      Move (.startAction t kind operation) { d.setCaller t (.startAction kind d.started.length) with
        control := control
        started := d.started ++ [⟨kind, ref, d.acceptedRecords⟩] }
  | getLogger {t : ℕ} {registered : Bool} (ht : workerThread < t) (hpc : d.callers t = .idle) :
      Move (.getLogger t registered) (d.setCaller t (.getLogger registered))
  | requestDestruction (hpc : d.destructor = .idle) :
      Move .destructor { d with destructionStopRequested := true, destructor := .closeAdmission }
  | closeAdmission {kernel : Kernel} (hpc : d.destructor = .closeAdmission)
      (hkernel : d.kernel.step conv setup.kernel .closeAdmission = some kernel) :
      Move .destructor { d with kernel := kernel, destructor := .stopRoute }
  | stopRoute {route : RuntimeRoute} (hpc : d.destructor = .stopRoute)
      (hroute : d.route.stop conv = some route) :
      Move .destructor { d.setRoute route with destructor := .done }
  | kernel {action : KernelAction} {kernel : Kernel} (hpermits : d.permitsKernel action = true)
      (hkernel : d.kernel.step conv setup.kernel action = some kernel) :
      Move (.kernel action) { d with kernel := kernel }
  | route {action : RouteAction} {route : RuntimeRoute} (houtside : action.outside = true)
      (hroute : d.route.step conv action = some route) : Move (.route action) (d.setRoute route)
  | control {action : ControlAction} {control : Control}
      (hpermits : permitsControl action = true)
      (hcontrol : d.control.step action = some control) :
      Move (.control action) { d with control := control }

/-! ## Every step is one of these -/

variable {conv setup d} {d' : RuntimeDomain}

theorem locked_eq_some {e : RuntimeDomain} :
    d.locked e = some d' ↔ d.mutex = none ∧ e = d' := by
  rw [locked, Option.ite_none_right_eq_some, Option.some_inj]

theorem withRoute_eq_some {e : RuntimeDomain} :
    d.withRoute e = some d' ↔ d.route.unlocked = true ∧ e = d' := by
  rw [withRoute, Option.ite_none_right_eq_some, Option.some_inj]

theorem kernelStep_eq_some {action : KernelAction} {f : Kernel → RuntimeDomain} :
    d.kernelStep conv setup action f = some d' ↔
      ∃ kernel, d.kernel.step conv setup.kernel action = some kernel ∧ f kernel = d' :=
  Option.map_eq_some_iff

theorem controlStep_eq_some {action : ControlAction} {f : Control → RuntimeDomain} :
    d.controlStep action f = some d' ↔
      ∃ control, d.control.step action = some control ∧ f control = d' :=
  Option.map_eq_some_iff

theorem WorkerMove.of_step (h : d.workerStep conv setup = some d') :
    d.WorkerMove conv setup d.worker d' := by
  rw [workerStep] at h
  cases hpc : d.worker <;>
    simp only [hpc, locked_eq_some, withRoute_eq_some, kernelStep_eq_some, controlStep_eq_some,
      Option.map_eq_some_iff] at h
  case start =>
    obtain ⟨hmutex, rfl⟩ := h
    exact .start hmutex
  case loop =>
    cases h
    split
    · next hstop => exact .reads (.destruction hstop)
    · exact .reads .loop
  case retire =>
    split at h
    · next hretired =>
      obtain ⟨⟨route, retirement⟩, hroute, rfl⟩ := Option.map_eq_some_iff.mp h
      cases retirement with
      | none => exact .usesRoute (.notCompleted hroute)
      | some retirement => exact .usesRoute (.retire hretired hroute)
    · next hretired =>
      cases h
      exact .reads (.retire hretired)
  case recordRetirement sequence retirement =>
    obtain ⟨hmutex, rfl⟩ := h
    exact .recordRetirement hmutex
  case checkFailure =>
    obtain ⟨-, rfl⟩ := h
    split
    · next herror => exact .reads (.failed herror)
    · next herror => exact .reads (.notFailed (not_not.mp herror))
  case readyDrains stored =>
    split at h
    · next hfind =>
      obtain ⟨hmutex, rfl⟩ := locked_eq_some.mp h
      exact .noneReady hmutex hfind
    · next index hfind =>
      obtain ⟨hmutex, rfl⟩ := locked_eq_some.mp h
      exact .ready hmutex hfind
  case completeDrain stored completion report =>
    obtain ⟨control, hcontrol, rfl⟩ := h
    exact .completes .completeDrain hcontrol
  case completingDrain stored =>
    split at h
    · cases h
      exact .reads .completingDrain
    · cases h
  case terminalError =>
    obtain ⟨-, rfl⟩ := h
    split
    · next herror => exact .reads (.terminalError herror)
    · next herror => exact .reads (.noTerminalError (not_not.mp herror))
  case recordTerminalError error =>
    obtain ⟨hmutex, rfl⟩ := h
    exact .recordTerminalError hmutex
  case prepare exit =>
    obtain ⟨e, he, hlocked⟩ := Option.bind_eq_some_iff.mp h
    obtain ⟨kernel, hkernel, rfl⟩ := kernelStep_eq_some.mp he
    obtain ⟨hmutex, rfl⟩ := locked_eq_some.mp hlocked
    exact .prepare hmutex hkernel
  case resetRegistrations exit index =>
    split at h
    · split at h
      · cases h
        exact .reads .resetRegistrations
      · obtain ⟨kernel, hkernel, rfl⟩ := kernelStep_eq_some.mp h
        exact .resetRegistration hkernel
    · cases h
      exact .prepared
  case retireRegistration exit index =>
    obtain ⟨kernel, hkernel, rfl⟩ := h
    exact .callsKernel .retireRegistration hkernel
  case stopRoute exit =>
    obtain ⟨route, hroute, rfl⟩ := h
    exact .usesRoute (.stopRoute hroute)
  case nextAction exit =>
    split at h
    · next hfind =>
      obtain ⟨hmutex, rfl⟩ := locked_eq_some.mp h
      exact .noneActive hmutex hfind
    · next index hfind =>
      obtain ⟨hmutex, rfl⟩ := locked_eq_some.mp h
      exact .takeAction hmutex hfind
  case buildReport exit action watermark =>
    split at h
    · cases h
      exact .buildReport
    · cases h
  case completeAction exit completion report =>
    obtain ⟨control, hcontrol, rfl⟩ := h
    exact .completes .completeAction hcontrol
  case completingAction exit =>
    split at h
    · cases h
      exact .reads .completingAction
    · cases h
  case settle exit =>
    obtain ⟨e, he, hlocked⟩ := Option.bind_eq_some_iff.mp h
    obtain ⟨-, rfl⟩ := withRoute_eq_some.mp he
    obtain ⟨hmutex, rfl⟩ := locked_eq_some.mp hlocked
    exact .settle hmutex
  case discardInFlight exit =>
    obtain ⟨route, hroute, rfl⟩ := h
    exact .usesRoute (.discardInFlight hroute)
  case isQuiescent exit =>
    obtain ⟨kernel, hkernel, rfl⟩ := h
    exact .callsKernel .isQuiescent hkernel
  case quiescent exit =>
    split at h
    · next call hcall =>
      obtain ⟨kernel, hkernel, rfl⟩ := kernelStep_eq_some.mp h
      cases exit with
      | none =>
        dsimp only
        split
        · next hquiescent => exact .callsKernel (.quiescent hcall hquiescent) hkernel
        · exact .callsKernel .notQuiescent hkernel
      | some exit =>
        dsimp only
        split
        · exact .callsKernel .drained hkernel
        · exact .callsKernel .notDrained hkernel
    · cases h
  case discardRecord exit =>
    obtain ⟨kernel, hkernel, rfl⟩ := h
    exact .callsKernel .discardRecord hkernel
  case discarding exit =>
    obtain ⟨kernel, hkernel, rfl⟩ := h
    exact .callsKernel .discarding hkernel
  case shutdownRequested =>
    obtain ⟨hmutex, rfl⟩ := h
    split
    · next hrequested => exact .reads (.shutdown hmutex hrequested)
    · exact .reads .noShutdown
  case acceptedRecords =>
    cases h
    exact .reads .acceptedRecords
  case compareRetired accepted =>
    obtain ⟨-, rfl⟩ := h
    split
    · exact .reads .unretired
    · next hretired => exact .reads (.allRetired (not_not.mp hretired))
  case requestClose =>
    obtain ⟨route, hroute, rfl⟩ := h
    exact .usesRoute (.requestClose hroute)
  case closeResult =>
    obtain ⟨-, rfl⟩ := h
    split
    · exact .reads .notClosed
    · next error hclose =>
      split
      · next herror => exact .reads (.closeFailed hclose herror)
      · next herror => exact .reads (.closed (hclose.trans (by rw [not_not.mp herror])))
  case recordCloseError error =>
    obtain ⟨hmutex, rfl⟩ := h
    exact .recordCloseError hmutex
  case retained =>
    cases h
    split
    · exact .reads .retained
    · exact .reads .nothingRetained
  case claim =>
    obtain ⟨⟨route, claimed⟩, hroute, rfl⟩ := h
    cases claimed with
    | true => exact .usesRoute (.claim hroute)
    | false => exact .usesRoute (.noClaim hroute)
  case consume =>
    obtain ⟨kernel, hkernel, rfl⟩ := h
    exact .callsKernel .consume hkernel
  case consuming stored =>
    split at h
    · next hcall =>
      obtain ⟨route, hroute, rfl⟩ := Option.map_eq_some_iff.mp h
      exact .usesRoute (.encode hcall hroute)
    · next hcall =>
      obtain ⟨kernel, hkernel, rfl⟩ := kernelStep_eq_some.mp h
      exact .callsKernel (.consuming hcall) hkernel
    · cases h
  case storing sequence =>
    obtain ⟨route, hroute, rfl⟩ := h
    exact .store hroute
  case dropClaim consumed stored =>
    obtain ⟨route, hroute, rfl⟩ := h
    split
    · next hconsumed =>
      subst hconsumed
      split
      · next hsubmitted => exact .usesRoute (.submitted hroute hsubmitted)
      · next hsubmitted =>
        exact .usesRoute (.notSubmitted hroute (Bool.eq_false_iff.mpr hsubmitted))
    · next hconsumed => exact .usesRoute (.noRecord hconsumed hroute)
  case recordProcessed delivery =>
    obtain ⟨hmutex, rfl⟩ := h
    exact .recordProcessed hmutex
  case recordEncodingFailure admissionSequence =>
    obtain ⟨hmutex, rfl⟩ := h
    exact .recordEncodingFailure hmutex
  case finish exit =>
    obtain ⟨hmutex, rfl⟩ := h
    exact .finish hmutex
  case stop =>
    obtain ⟨hmutex, rfl⟩ := h
    exact .stop hmutex
  case stopped =>
    cases h

theorem CallerMove.of_step {t : ℕ} (h : d.callerStep conv setup t = some d') :
    d.CallerMove conv setup t (d.callers t) d' := by
  rw [callerStep.eq_def] at h
  cases hpc : d.callers t <;>
    simp only [hpc, kernelStep_eq_some, controlStep_eq_some] at h
  case idle =>
    cases h
  case startAction kind completion =>
    split at h
    · next haccepting =>
      obtain ⟨hmutex, rfl⟩ := locked_eq_some.mp h
      exact .refuse (by simpa using haccepting) hmutex
    · next haccepting =>
      replace haccepting : d.acceptingActions = true := by simpa using haccepting
      split at h
      · next hclose =>
        obtain ⟨e, he, hlocked⟩ := Option.bind_eq_some_iff.mp h
        obtain ⟨kernel, hkernel, rfl⟩ := kernelStep_eq_some.mp he
        obtain ⟨hmutex, rfl⟩ := locked_eq_some.mp hlocked
        rw [hclose.1]
        exact .close haccepting hmutex hkernel
      · next hclose =>
        obtain ⟨hmutex, rfl⟩ := locked_eq_some.mp h
        exact .enter haccepting (by simpa using hclose) hmutex
  case resetRegistrations completion index =>
    split at h
    · split at h
      · cases h
        exact .nextRegistration
      · obtain ⟨kernel, hkernel, rfl⟩ := kernelStep_eq_some.mp h
        exact .resetRegistration hkernel
    · cases h
      exact .closed
  case retireRegistration completion index =>
    obtain ⟨kernel, hkernel, rfl⟩ := h
    exact .retireRegistration hkernel
  case watermark kind completion outcome =>
    cases outcome with
    | some outcome =>
      cases h
      exact .watermark
    | none =>
      dsimp only at h
      split at h
      · next hdrain =>
        cases h
        obtain ⟨rfl, hretired⟩ := hdrain
        exact .drained hretired
      · next hdrain =>
        split at h
        · next hfind =>
          cases h
          exact .noEntry hfind
        · next index hfind =>
          cases h
          exact .register (fun hkind hretired ↦ hdrain ⟨hkind, hretired⟩) hfind
  case buildReport kind completion outcome watermark =>
    split at h
    · cases h
      exact .buildReport
    · cases h
  case tryComplete completion outcome report =>
    obtain ⟨control, hcontrol, rfl⟩ := h
    exact .tryComplete hcontrol
  case completing =>
    split at h
    · cases h
      exact .completing
    · cases h
  case getLogger registered =>
    split at h
    · obtain ⟨hmutex, rfl⟩ := locked_eq_some.mp h
      exact .logger hmutex
    · obtain ⟨e, he, hlocked⟩ := Option.bind_eq_some_iff.mp h
      obtain ⟨kernel, hkernel, rfl⟩ := kernelStep_eq_some.mp he
      obtain ⟨hmutex, rfl⟩ := locked_eq_some.mp hlocked
      exact .registerProducer hmutex hkernel
  case registering =>
    split at h
    · next registration hcall =>
      obtain ⟨kernel, hkernel, rfl⟩ := kernelStep_eq_some.mp h
      split
      · exact .registered hkernel
      · split
        · exact .registered hkernel
        · exact .noPlace hkernel
    · cases h
  case dropRegistration slot generation =>
    obtain ⟨kernel, hkernel, rfl⟩ := h
    exact .dropRegistration hkernel
  case droppingRegistration =>
    obtain ⟨kernel, hkernel, rfl⟩ := h
    exact .droppingRegistration hkernel

theorem Move.of_step {action : DomainAction} (h : d.step conv setup action = some d') :
    d.Move conv setup action d' := by
  cases action with
  | worker => exact .worker rfl (.of_step h)
  | caller t => exact .caller rfl (.of_step h)
  | startAction t kind operation =>
    obtain ⟨⟨ht, hpc⟩, hstart⟩ := Option.ite_none_right_eq_some.mp h
    obtain ⟨control, hcontrol, rfl⟩ := controlStep_eq_some.mp hstart
    split
    · next hnone => exact .startFailed hcontrol hnone
    · next href => exact .started ht hpc hcontrol href
  | getLogger t registered =>
    obtain ⟨⟨ht, hpc⟩, heq⟩ := Option.ite_none_right_eq_some.mp h
    cases heq
    exact .getLogger ht hpc
  | destructor =>
    rw [step, destructorStep] at h
    split at h
    · next hpc =>
      cases h
      exact .requestDestruction hpc
    · next hpc =>
      obtain ⟨kernel, hkernel, rfl⟩ := kernelStep_eq_some.mp h
      exact .closeAdmission hpc hkernel
    · next hpc =>
      obtain ⟨route, hroute, rfl⟩ := Option.map_eq_some_iff.mp h
      exact .stopRoute hpc hroute
    · cases h
  | kernel action =>
    obtain ⟨hpermits, hstep⟩ := Option.ite_none_right_eq_some.mp h
    obtain ⟨kernel, hkernel, rfl⟩ := kernelStep_eq_some.mp hstep
    exact .kernel hpermits hkernel
  | route action =>
    obtain ⟨houtside, hstep⟩ := Option.ite_none_right_eq_some.mp h
    obtain ⟨route, hroute, rfl⟩ := Option.map_eq_some_iff.mp hstep
    exact .route houtside hroute
  | control action =>
    obtain ⟨hpermits, hstep⟩ := Option.ite_none_right_eq_some.mp h
    obtain ⟨control, hcontrol, rfl⟩ := controlStep_eq_some.mp hstep
    exact .control hpermits hcontrol

end Ulog.RuntimeDomain
