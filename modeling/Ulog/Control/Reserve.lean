import Mathlib.Data.PNat.Notation
import Ulog.Foundation.Machine

/-!
# The control reserve

The fixed pool of control nodes, the handles that refer to them, and the callback queue that is
threaded through them. A step is one lock section, or the plain accesses between two of them: a node
section, a domain section or a queue section. `TryStart` and the reading of a handle by `OnComplete`
are one step with the section that follows, because a handle object outlives the member functions
that run on it.

Move assignment and destruction of an `OperationCompletion` are `TryComplete` with `kCancelled`, and
those of an `Operation` are `Reset`; a move then goes into the empty object.
-/

namespace Ulog

/-! ## Results -/

inductive OperationOutcome where
  | succeeded
  | cancelled
  | failed
  deriving DecidableEq, Repr

structure OperationReport where
  watermarkRecords : ℕ := 0
  processedRecords : ℕ := 0
  processedBytes : ℕ := 0
  deliveredRecords : ℕ := 0
  deliveredBytes : ℕ := 0
  failedRecords : ℕ := 0
  failedBytes : ℕ := 0
  unfinishedRecords : ℕ := 0
  unfinishedBytes : ℕ := 0
  deriving DecidableEq, Repr

structure OperationResult where
  outcome : OperationOutcome := .failed
  report : OperationReport := {}
  deriving DecidableEq, Repr

inductive OperationCallbackStatus where
  | registered
  | alreadyRegistered
  | invalidOperation
  | invalidCallback
  deriving DecidableEq, Repr

/-- `OperationStartFailure`, whose only code is `kControlReserveExhausted`. -/
structure OperationStartFailure where
  controlCapacity : ℕ
  controlsInUse : ℕ
  deriving DecidableEq, Repr

/-! ## Memory -/

inductive CallbackState where
  | empty
  | installing
  | armed
  | queued
  | running
  | done
  deriving DecidableEq, Repr

/-- What the user's callable is; which one, as a number. -/
abbrev OperationCallback := ℕ

/-- A `ControlNode`; `owner` says whether it points to its domain, and `taskNext` is the link of its
`callback_task`. -/
structure ControlNode where
  ready : Bool := false
  result : OperationResult := {}
  owner : Bool := false
  generation : ℕ := 0
  owners : ℕ := 0
  nextFree : Option ℕ := none
  taskNext : Option ℕ := none
  callback : Option OperationCallback := none
  callbackState : CallbackState := .empty
  completed : Bool := false
  deriving DecidableEq, Repr

/-- The first section of `Recycle`. -/
def ControlNode.clear (node : ControlNode) : ControlNode :=
  { node with
    completed := false
    ready := false
    result := {}
    owners := 0
    taskNext := none
    callback := none
    callbackState := .empty
    owner := false }

/-- The `ControlDomain` with the `CallbackTaskQueue` of its dispatcher. -/
structure ControlMemory where
  capacity : ℕ
  nodes : ℕ → ControlNode
  freeHead : Option ℕ := some 0
  inUse : ℕ := 0
  taskHead : Option ℕ := none
  taskTail : Option ℕ := none

namespace ControlMemory

/-- The constructor of `ControlDomain`. -/
def create (capacity : ℕ) : ControlMemory where
  capacity := capacity
  nodes index := { nextFree := if index + 1 < capacity then some (index + 1) else none }

def setNode (m : ControlMemory) (index : ℕ) (node : ControlNode) : ControlMemory :=
  { m with nodes := Function.update m.nodes index node }

@[simp] theorem nodes_setNode_self (m : ControlMemory) (index : ℕ) (node : ControlNode) :
    (m.setNode index node).nodes index = node := Function.update_self ..

theorem nodes_setNode_of_ne (m : ControlMemory) {index i : ℕ} (h : i ≠ index) (node : ControlNode) :
    (m.setNode index node).nodes i = m.nodes i := Function.update_of_ne h ..

def setTaskNext (m : ControlMemory) (index : ℕ) (next : Option ℕ) : ControlMemory :=
  m.setNode index { m.nodes index with taskNext := next }

/-- `CallbackTaskQueue::Push`. -/
def pushTask (m : ControlMemory) (index : ℕ) : ControlMemory :=
  let m := m.setTaskNext index none
  match m.taskTail with
  | none => { m with taskHead := some index, taskTail := some index }
  | some tail => { m.setTaskNext tail (some index) with taskTail := some index }

/-- `CallbackTaskQueue::Pop`. -/
def popTask (m : ControlMemory) : Option (ControlMemory × ℕ) :=
  match m.taskHead with
  | none => none
  | some index =>
    let head := (m.nodes index).taskNext
    some ({ m.setTaskNext index none with
      taskHead := head
      taskTail := if head = none then none else m.taskTail }, index)

/-- The second section of `Recycle`. -/
def pushFree (m : ControlMemory) (index : ℕ) : ControlMemory :=
  { m.setNode index { m.nodes index with nextFree := m.freeHead } with
    freeHead := some index
    inUse := m.inUse - 1 }

end ControlMemory

/-- The node and the generation that a handle refers to. -/
structure ControlRef where
  node : ℕ
  generation : ℕ
  deriving DecidableEq, Repr

/-- `TryStart`. -/
def ControlMemory.tryStart (m : ControlMemory) :
    ControlMemory × Except OperationStartFailure ControlRef :=
  match m.freeHead with
  | none => (m, .error ⟨m.capacity, m.inUse⟩)
  | some index =>
    let node := m.nodes index
    let generation := node.generation + 1
    ({ m.setNode index
        { node with
          generation := generation
          owners := 2
          completed := false
          ready := false
          result := {}
          callback := none
          callbackState := .empty
          taskNext := none
          owner := true
          nextFree := none } with
      freeHead := node.nextFree
      inUse := m.inUse + 1 }, .ok ⟨index, generation⟩)

/-! ## Calls -/

/-- The function that a call runs. -/
inductive ControlFunction where
  | tryComplete
  | releaseHandle
  | registerCallback
  | runCallback
  deriving DecidableEq, Repr

inductive ControlPc where
  /-- the section of `TryComplete` -/
  | publish (outcome : OperationOutcome) (report : OperationReport)
  /-- `RegisterCallback` moves the callable into the node -/
  | install (callback : OperationCallback)
  /-- the second section of `RegisterCallback` -/
  | arm
  /-- the task goes to the dispatcher -/
  | enqueue
  /-- the first section of `RunCallback` -/
  | start
  | invoke (result : OperationResult)
  | resetCallback
  /-- the second section of `RunCallback` -/
  | finish
  /-- the section of `ReleaseOwner` -/
  | release
  /-- the two sections of `Recycle` -/
  | clear
  | pushFree
  deriving DecidableEq, Repr

/-- A call in progress. -/
structure ControlFrame where
  function : ControlFunction
  node : ℕ
  generation : ℕ
  pc : ControlPc
  deriving DecidableEq, Repr

namespace ControlFrame

def ref (f : ControlFrame) : ControlRef := ⟨f.node, f.generation⟩

def goto (f : ControlFrame) (pc : ControlPc) : ControlFrame := { f with pc := pc }

/-- One step of a call; no frame means that it returns. -/
def step (m : ControlMemory) (f : ControlFrame) : Option (ControlMemory × Option ControlFrame) :=
  let node := m.nodes f.node
  match f.pc with
  | .publish outcome report =>
    if node.generation = f.generation ∧ node.completed = false then
      let node := { node with result := ⟨outcome, report⟩, completed := true, ready := true }
      if node.callbackState = .armed then
        some (m.setNode f.node
          { node with callbackState := .queued, owners := node.owners + 1 }, f.goto .enqueue)
      else some (m.setNode f.node node, f.goto .release)
    else some (m, f.goto .release)
  | .install callback =>
    some (m.setNode f.node { node with callback := some callback }, f.goto .arm)
  | .arm =>
    if node.completed then
      some (m.setNode f.node
        { node with callbackState := .queued, owners := node.owners + 1 }, f.goto .enqueue)
    else some (m.setNode f.node { node with callbackState := .armed }, f.goto .release)
  | .enqueue => some (m.pushTask f.node, f.goto .release)
  | .start =>
    if node.callbackState = .queued then
      some (m.setNode f.node { node with callbackState := .running },
        some { f with generation := node.generation, pc := .invoke node.result })
    else some (m, none)
  | .invoke _ => some (m, f.goto .resetCallback)
  | .resetCallback => some (m.setNode f.node { node with callback := none }, f.goto .finish)
  | .finish => some (m.setNode f.node { node with callbackState := .done }, f.goto .release)
  | .release =>
    if node.generation ≠ f.generation ∨ node.owners = 0 then some (m, none)
    else
      let m := m.setNode f.node { node with owners := node.owners - 1 }
      if node.owners - 1 ≠ 0 then some (m, none)
      -- without a domain to return to, the call dereferences a null pointer
      else if node.owner then some (m, f.goto .clear) else none
  | .clear => some (m.setNode f.node (node.clear), f.goto .pushFree)
  | .pushFree => some (m.pushFree f.node, none)

end ControlFrame

/-! ## The reserve as a machine -/

/-- One invocation of a callable. -/
structure Invocation where
  ref : ControlRef
  callback : Option OperationCallback
  result : OperationResult
  deriving DecidableEq, Repr

/-- The memory, the handle objects, the call of every thread, and the history: the nodes that were
recycled, the results that were published, the answers of `OnComplete` to a callable on an
Operation, the callables that were installed, the tasks that were enqueued, and the invocations. -/
structure Control where
  memory : ControlMemory
  operations : ℕ → Option ControlRef := fun _ ↦ none
  completions : ℕ → Option ControlRef := fun _ ↦ none
  calls : ℕ → Option ControlFrame := fun _ ↦ none
  recycled : List ControlRef := []
  published : List (ControlRef × OperationResult) := []
  answers : List (ControlRef × OperationCallbackStatus) := []
  installed : List (ControlRef × OperationCallback) := []
  enqueued : List ControlRef := []
  invoked : List Invocation := []

/-- The thread of the dispatcher. -/
def dispatcherThread : ℕ := 0

inductive ControlAction where
  | tryStart (operation completion : ℕ)
  | moveOperation (source target : ℕ)
  | moveCompletion (source target : ℕ)
  | resetOperation (thread operation : ℕ)
  | tryComplete (thread completion : ℕ) (outcome : OperationOutcome) (report : OperationReport)
  | onComplete (thread operation : ℕ) (callback : Option OperationCallback)
  /-- the dispatcher takes the next task -/
  | dispatch
  | advance (thread : ℕ)
  deriving DecidableEq, Repr

namespace Control

def setCall (s : Control) (thread : ℕ) (call : Option ControlFrame) : Control :=
  { s with calls := Function.update s.calls thread call }

/-- The thread is free for a call of the user. -/
def Ready (s : Control) (thread : ℕ) : Prop :=
  thread ≠ dispatcherThread ∧ s.calls thread = none

instance (s : Control) (thread : ℕ) : Decidable (s.Ready thread) :=
  inferInstanceAs (Decidable (_ ∧ _))

/-- `OnComplete` up to the end of the first section of `RegisterCallback`. -/
def onComplete (s : Control) (thread operation : ℕ) (callback : Option OperationCallback) :
    Control × Option OperationCallbackStatus :=
  match s.operations operation, callback with
  | none, _ => (s, some .invalidOperation)
  | some _, none => (s, some .invalidCallback)
  | some r, some callback =>
    let node := s.memory.nodes r.node
    let answer := fun status ↦
      ({ s with answers := s.answers ++ [(r, status)] }, some status)
    if node.generation ≠ r.generation then answer .invalidOperation
    else if node.callbackState ≠ .empty then answer .alreadyRegistered
    else
      ({ s.setCall thread (some ⟨.registerCallback, r.node, r.generation, .install callback⟩) with
        memory := s.memory.setNode r.node
          { node with callbackState := .installing, owners := node.owners + 1 } }, none)

/-- What a step of a call adds to the history. -/
def record (s : Control) (f : ControlFrame) (m : ControlMemory) (call : Option ControlFrame) :
    Control :=
  { s with
    recycled := if f.pc = .pushFree then s.recycled ++ [f.ref] else s.recycled
    published :=
      if (s.memory.nodes f.node).completed = false ∧ (m.nodes f.node).completed = true then
        s.published ++ [(f.ref, (m.nodes f.node).result)] else s.published
    answers := if f.function = .registerCallback ∧ call = none then
        s.answers ++ [(f.ref, .registered)] else s.answers
    installed :=
      match f.pc with
      | .install callback => s.installed ++ [(f.ref, callback)]
      | _ => s.installed
    enqueued := if f.pc = .enqueue then s.enqueued ++ [f.ref] else s.enqueued
    invoked :=
      match f.pc with
      | .invoke result => s.invoked ++ [⟨f.ref, (m.nodes f.node).callback, result⟩]
      | _ => s.invoked }

def advance (s : Control) (thread : ℕ) : Option Control :=
  match s.calls thread with
  | none => none
  | some f =>
    (f.step s.memory).map fun (m, call) ↦
      { (s.record f m call).setCall thread call with memory := m }

def step (s : Control) : ControlAction → Option Control
  | .tryStart operation completion =>
    if s.operations operation = none ∧ s.completions completion = none then
      match s.memory.tryStart with
      | (_, .error _) => some s
      | (m, .ok r) =>
        some { s with
          memory := m
          operations := Function.update s.operations operation (some r)
          completions := Function.update s.completions completion (some r) }
    else none
  | .moveOperation source target =>
    if s.operations target = none then
      some { s with
        operations := Function.update (Function.update s.operations source none) target
          (s.operations source) }
    else none
  | .moveCompletion source target =>
    if s.completions target = none then
      some { s with
        completions := Function.update (Function.update s.completions source none) target
          (s.completions source) }
    else none
  | .resetOperation thread operation =>
    if s.Ready thread then
      match s.operations operation with
      | none => some s
      | some r =>
        some { s.setCall thread (some ⟨.releaseHandle, r.node, r.generation, .release⟩) with
          operations := Function.update s.operations operation none }
    else none
  | .tryComplete thread completion outcome report =>
    if s.Ready thread then
      match s.completions completion with
      | none => some s
      | some r =>
        some { s.setCall thread
            (some ⟨.tryComplete, r.node, r.generation, .publish outcome report⟩) with
          completions := Function.update s.completions completion none }
    else none
  | .onComplete thread operation callback =>
    if s.Ready thread then some (s.onComplete thread operation callback).1 else none
  | .dispatch =>
    if s.calls dispatcherThread = none then
      s.memory.popTask.map fun (m, index) ↦
        { s.setCall dispatcherThread
            (some ⟨.runCallback, index, (m.nodes index).generation, .start⟩) with memory := m }
    else none
  | .advance thread => s.advance thread

def init (capacity : ℕ+) : Control where
  memory := .create capacity

/-- The reserve with this many nodes. -/
def machine (capacity : ℕ+) : Machine Control ControlAction where
  init := init capacity
  step := step

/-! ## The kinds of step -/

/-- The state after a step of the call. -/
def afterCall (s : Control) (t : ℕ) (f : ControlFrame) (m : ControlMemory)
    (call : Option ControlFrame) : Control :=
  { (s.record f m call).setCall t call with memory := m }

/-- A step of the reserve, by its effect. -/
inductive Effect (s : Control) : ControlAction → Control → Prop
  /-- a call on an empty object or with an empty callable, or `TryStart` without a free node -/
  | nothing {action : ControlAction} : Effect s action s
  | started {o c : ℕ} {m' : ControlMemory} {r : ControlRef} (ho : s.operations o = none)
      (hc : s.completions c = none) (hstart : s.memory.tryStart = (m', .ok r)) :
      Effect s (.tryStart o c) { s with
        memory := m'
        operations := Function.update s.operations o (some r)
        completions := Function.update s.completions c (some r) }
  | movedOperation {source target : ℕ} (htarget : s.operations target = none) :
      Effect s (.moveOperation source target) { s with
        operations := Function.update (Function.update s.operations source none) target
          (s.operations source) }
  | movedCompletion {source target : ℕ} (htarget : s.completions target = none) :
      Effect s (.moveCompletion source target) { s with
        completions := Function.update (Function.update s.completions source none) target
          (s.completions source) }
  | resetOperation {t o : ℕ} {r : ControlRef} (ht : s.Ready t) (ho : s.operations o = some r) :
      Effect s (.resetOperation t o)
        { s.setCall t (some ⟨.releaseHandle, r.node, r.generation, .release⟩) with
          operations := Function.update s.operations o none }
  | tryComplete {t c : ℕ} {r : ControlRef} {outcome : OperationOutcome}
      {report : OperationReport} (ht : s.Ready t) (hc : s.completions c = some r) :
      Effect s (.tryComplete t c outcome report)
        { s.setCall t (some ⟨.tryComplete, r.node, r.generation, .publish outcome report⟩) with
          completions := Function.update s.completions c none }
  | stale {t o : ℕ} {r : ControlRef} {callback : OperationCallback} (ho : s.operations o = some r)
      (hgeneration : (s.memory.nodes r.node).generation ≠ r.generation) :
      Effect s (.onComplete t o (some callback))
        { s with answers := s.answers ++ [(r, .invalidOperation)] }
  | alreadyRegistered {t o : ℕ} {r : ControlRef} {callback : OperationCallback}
      (ho : s.operations o = some r)
      (hstate : (s.memory.nodes r.node).callbackState ≠ .empty) :
      Effect s (.onComplete t o (some callback))
        { s with answers := s.answers ++ [(r, .alreadyRegistered)] }
  | register {t o : ℕ} {r : ControlRef} {callback : OperationCallback} (ht : s.Ready t)
      (ho : s.operations o = some r)
      (hempty : (s.memory.nodes r.node).callbackState = .empty) :
      Effect s (.onComplete t o (some callback))
        { s.setCall t (some ⟨.registerCallback, r.node, r.generation, .install callback⟩) with
          memory := s.memory.setNode r.node { s.memory.nodes r.node with
            callbackState := .installing, owners := (s.memory.nodes r.node).owners + 1 } }
  | dispatch {m' : ControlMemory} {i : ℕ} (ht : s.calls dispatcherThread = none)
      (hpop : s.memory.popTask = some (m', i)) :
      Effect s .dispatch { s.setCall dispatcherThread
        (some ⟨.runCallback, i, (m'.nodes i).generation, .start⟩) with memory := m' }
  | advance {t : ℕ} {f : ControlFrame} {m' : ControlMemory} {call : Option ControlFrame}
      (hf : s.calls t = some f) (hstep : f.step s.memory = some (m', call)) :
      Effect s (.advance t) (s.afterCall t f m' call)

theorem Effect.of_step {s s' : Control} {action : ControlAction} (hstep : s.step action = some s') :
    Effect s action s' := by
  cases action with
  | tryStart o c =>
    rw [step] at hstep
    split at hstep
    · next hempty =>
      split at hstep
      · cases hstep
        exact .nothing
      · next m r hstart =>
        cases hstep
        exact .started hempty.1 hempty.2 hstart
    · cases hstep
  | moveOperation source target =>
    rw [step] at hstep
    split at hstep
    · next htarget =>
      cases hstep
      exact .movedOperation htarget
    · cases hstep
  | moveCompletion source target =>
    rw [step] at hstep
    split at hstep
    · next htarget =>
      cases hstep
      exact .movedCompletion htarget
    · cases hstep
  | resetOperation t o =>
    rw [step] at hstep
    split at hstep
    · next ht =>
      split at hstep
      · cases hstep
        exact .nothing
      · next r ho =>
        cases hstep
        exact .resetOperation ht ho
    · cases hstep
  | tryComplete t c outcome report =>
    rw [step] at hstep
    split at hstep
    · next ht =>
      split at hstep
      · cases hstep
        exact .nothing
      · next r hc =>
        cases hstep
        exact .tryComplete ht hc
    · cases hstep
  | onComplete t o callback =>
    rw [step] at hstep
    split at hstep
    · next ht =>
      cases hstep
      rw [Control.onComplete.eq_def]
      split
      · exact .nothing
      · exact .nothing
      · next r callback ho =>
        dsimp only
        split
        · next hgeneration => exact .stale ho hgeneration
        · split
          · next hstate => exact .alreadyRegistered ho hstate
          · next hstate => exact .register ht ho (not_not.mp hstate)
    · cases hstep
  | dispatch =>
    rw [step] at hstep
    split at hstep
    · next ht =>
      obtain ⟨⟨m', i⟩, hpop, heq⟩ := Option.map_eq_some_iff.mp hstep
      cases heq
      exact .dispatch ht hpop
    · cases hstep
  | advance t =>
    rw [step, Control.advance] at hstep
    split at hstep
    · cases hstep
    · next f hf =>
      obtain ⟨⟨m', call⟩, hcall, heq⟩ := Option.map_eq_some_iff.mp hstep
      cases heq
      exact .advance hf hcall

end Control

end Ulog
