import Ulog.Record.Layout
import Ulog.Foundation.Machine

/-!
# The credit ledger

Byte credit lives in one central pool, in a cache and a mailbox per producer slot, and in handles:
a `Reservation` made by `TryReserve` and the `Ownership` it is committed to. A reservation takes
only its deficit from the centre, by compare-exchange; unused credit comes back through the slot's
mailbox, which any thread may fill and only the slot's own thread empties.

Every definition below is one atomic step on the shared words. The slot's cache is a plain variable
of the slot's one thread, so an access to it belongs to a neighbouring atomic step; where credit
moves through a register between two atomic steps, the register is part of the call's program
counter. Words are `std::size_t`: additions and subtractions are taken modulo `2 ^ 64`.
-/

namespace Ulog

def wrapAdd (a b : ℕ) : ℕ := (a + b) % wordModulus

def wrapSub (a b : ℕ) : ℕ := (a + (wordModulus - b)) % wordModulus

/-- `CreditLedger::ProducerSlot`. -/
structure CreditSlot where
  localCredit : ℕ := 0
  returnedCredit : ℕ := 0
  logicalCharge : ℕ := 0
  deriving DecidableEq, Repr

namespace CreditSlot

def setLocal (c : CreditSlot) (bytes : ℕ) : CreditSlot := { c with localCredit := bytes }

def setReturned (c : CreditSlot) (bytes : ℕ) : CreditSlot := { c with returnedCredit := bytes }

def setLogical (c : CreditSlot) (bytes : ℕ) : CreditSlot := { c with logicalCharge := bytes }

end CreditSlot

structure CreditLedger where
  slots : ℕ → CreditSlot
  capacityBytes : ℕ
  producerCount : ℕ
  centralAvailable : ℕ

namespace CreditLedger

/-- `CreditLedger::Reset`. -/
def reset (capacityBytes producerCount : ℕ) : CreditLedger where
  slots _ := {}
  capacityBytes := capacityBytes
  producerCount := producerCount
  centralAvailable := capacityBytes

def setSlot (l : CreditLedger) (producer : ℕ) (slot : CreditSlot) : CreditLedger :=
  { l with slots := Function.update l.slots producer slot }

/-- `returned_credit_bytes.exchange(0)`; the credit is now in a register of the caller. -/
def drainMailbox (l : CreditLedger) (producer : ℕ) : CreditLedger :=
  l.setSlot producer ((l.slots producer).setReturned 0)

def addLocal (l : CreditLedger) (producer bytes : ℕ) : CreditLedger :=
  l.setSlot producer
    ((l.slots producer).setLocal (wrapAdd (l.slots producer).localCredit bytes))

def subLocal (l : CreditLedger) (producer bytes : ℕ) : CreditLedger :=
  l.setSlot producer
    ((l.slots producer).setLocal (wrapSub (l.slots producer).localCredit bytes))

def addLogical (l : CreditLedger) (producer bytes : ℕ) : CreditLedger :=
  l.setSlot producer
    ((l.slots producer).setLogical (wrapAdd (l.slots producer).logicalCharge bytes))

def subLogical (l : CreditLedger) (producer bytes : ℕ) : CreditLedger :=
  l.setSlot producer
    ((l.slots producer).setLogical (wrapSub (l.slots producer).logicalCharge bytes))

/-- `ReturnToMailbox`. -/
def returnToMailbox (l : CreditLedger) (producer bytes : ℕ) : CreditLedger :=
  if bytes = 0 then l
  else
    l.setSlot producer
      ((l.slots producer).setReturned (wrapAdd (l.slots producer).returnedCredit bytes))

end CreditLedger

/-! ## TryReserve -/

/-- Where a `TryReserve` call stands. -/
inductive ReservePc where
  /-- before the exchange on the mailbox -/
  | drain
  /-- the mailbox credit is in a register -/
  | gather (returned : ℕ)
  | loadCentral (deficit : ℕ)
  /-- before a compare-exchange that expects `available` -/
  | compareExchange (deficit available : ℕ)
  /-- the refill is in a register -/
  | refill (deficit : ℕ)
  | takeLocal
  /-- the charge has left the cache and is in a register -/
  | chargeLogical
  deriving DecidableEq, Repr

structure ReserveCall where
  producer : ℕ
  worstCaseBytes : ℕ
  chargeBytes : ℕ
  pc : ReservePc
  deriving DecidableEq, Repr

inductive ReserveResult where
  | running (call : ReserveCall)
  | refused
  | reserved
  deriving DecidableEq, Repr

namespace CreditLedger

/-- The checks at the entry of `TryReserve`. -/
def startReserve (l : CreditLedger) (producer worstCaseBytes : ℕ) : Option ReserveCall :=
  let chargeBytes := accountingCharge worstCaseBytes
  if ¬producer < l.producerCount ∨ chargeBytes = 0 ∨ l.capacityBytes < chargeBytes then none
  else some ⟨producer, worstCaseBytes, chargeBytes, .drain⟩

/-- One step of `TryReserve`. A weak compare-exchange may fail for no reason (`spurious`). -/
def reserveStep (l : CreditLedger) (c : ReserveCall) (spurious : Bool) :
    CreditLedger × ReserveResult :=
  match c.pc with
  | .drain =>
    (l.drainMailbox c.producer,
      .running { c with pc := .gather (l.slots c.producer).returnedCredit })
  | .gather returned =>
    let l := l.addLocal c.producer returned
    let localCredit := (l.slots c.producer).localCredit
    (l, .running
      { c with
        pc := if localCredit < c.chargeBytes then .loadCentral (c.chargeBytes - localCredit)
          else .takeLocal })
  | .loadCentral deficit =>
    if deficit ≤ l.centralAvailable then
      (l, .running { c with pc := .compareExchange deficit l.centralAvailable })
    else (l, .refused)
  | .compareExchange deficit available =>
    if l.centralAvailable = available ∧ !spurious then
      ({ l with centralAvailable := wrapSub available deficit },
        .running { c with pc := .refill deficit })
    else if deficit ≤ l.centralAvailable then
      (l, .running { c with pc := .compareExchange deficit l.centralAvailable })
    else (l, .refused)
  | .refill deficit => (l.addLocal c.producer deficit, .running { c with pc := .takeLocal })
  | .takeLocal =>
    (l.subLocal c.producer c.chargeBytes, .running { c with pc := .chargeLogical })
  | .chargeLogical => (l.addLogical c.producer c.worstCaseBytes, .reserved)

end CreditLedger

/-! ## TryReconcileProducer -/

inductive ReconcilePc where
  | loadLogical
  | drain
  | gather (returned : ℕ)
  /-- before the cache goes back to the centre -/
  | giveBack
  deriving DecidableEq, Repr

/-- One step of `TryReconcileProducer`: the next program counter or the returned value. -/
def CreditLedger.reconcileStep (l : CreditLedger) (producer : ℕ) :
    ReconcilePc → CreditLedger × (ReconcilePc ⊕ Bool)
  | .loadLogical =>
    if ¬producer < l.producerCount ∨ (l.slots producer).logicalCharge ≠ 0 then (l, .inr false)
    else (l, .inl .drain)
  | .drain => (l.drainMailbox producer, .inl (.gather (l.slots producer).returnedCredit))
  | .gather returned => (l.addLocal producer returned, .inl .giveBack)
  | .giveBack =>
    let localCredit := (l.slots producer).localCredit
    if localCredit = 0 then (l, .inr true)
    else
      ({ l.setSlot producer ((l.slots producer).setLocal 0) with
          centralAvailable := wrapAdd l.centralAvailable localCredit }, .inr true)

/-! ## Handles -/

/-- A `Reservation`, or the `Ownership` it was committed to, with the call that is in progress on
it. -/
inductive Handle where
  | empty
  /-- the object that a running `TryReserve` returns into -/
  | pending
  | reservation (producer requested charge : ℕ)
  | ownership (producer retained charge : ℕ)
  /-- `Commit` has returned the surplus and has not yet lowered the logical charge -/
  | committing (producer requested retained retainedCharge : ℕ)
  /-- `Abandon` or `Release` has lowered the logical charge and not yet returned the credit -/
  | releasing (producer charge : ℕ)
  deriving DecidableEq, Repr

/-- No call is in progress on the object. -/
def Handle.isSettled : Handle → Bool
  | .empty | .reservation .. | .ownership .. => true
  | .pending | .committing .. | .releasing .. => false

namespace CreditLedger

/-- The first step of `Abandon` or `Release`. -/
def startRelease (l : CreditLedger) : Handle → CreditLedger × Handle
  | .reservation producer requested charge =>
    (l.subLogical producer requested, .releasing producer charge)
  | .ownership producer retained charge =>
    (l.subLogical producer retained, .releasing producer charge)
  | h => (l, h)

/-- The first step of `Commit`; a request that cannot be met abandons the reservation. -/
def startCommit (l : CreditLedger) (retained : ℕ) : Handle → CreditLedger × Handle
  | .reservation producer requested charge =>
    let retainedCharge := accountingCharge retained
    if requested < retained ∨ retainedCharge = 0 ∨ charge < retainedCharge then
      l.startRelease (.reservation producer requested charge)
    else
      (l.returnToMailbox producer (charge - retainedCharge),
        .committing producer requested retained retainedCharge)
  | h => (l, h)

/-- The second step of `Commit`, `Abandon` or `Release`. -/
def finishHandle (l : CreditLedger) : Handle → CreditLedger × Handle
  | .committing producer requested retained retainedCharge =>
    (l.subLogical producer (requested - retained), .ownership producer retained retainedCharge)
  | .releasing producer charge => (l.returnToMailbox producer charge, .empty)
  | h => (l, h)

end CreditLedger

/-! ## All ledger operations of a program -/

/-- The one call of `TryReserve` or `TryReconcileProducer` that a slot's thread is in. -/
inductive SlotCall where
  | idle
  | reserving (call : ReserveCall) (target : ℕ)
  | reconciling (pc : ReconcilePc)
  deriving DecidableEq, Repr

/-- A ledger, the running call of each slot and the handle objects of the program. -/
structure LedgerState where
  ledger : CreditLedger
  calls : ℕ → SlotCall
  handles : ℕ → Handle

inductive LedgerAction where
  | reserve (producer worstCaseBytes target : ℕ)
  | reconcile (producer : ℕ)
  /-- the slot's thread makes its next step -/
  | advance (producer : ℕ) (spurious : Bool)
  | commit (handle retained : ℕ)
  | release (handle : ℕ)
  /-- the second step of a call on a handle -/
  | finish (handle : ℕ)
  /-- a move into an object that holds nothing -/
  | move (source target : ℕ)
  /-- the load of the central pool in `GetSnapshot` -/
  | snapshot
  deriving DecidableEq, Repr

namespace LedgerState

def init (capacityBytes producerCount : ℕ) : LedgerState where
  ledger := .reset capacityBytes producerCount
  calls _ := .idle
  handles _ := .empty

def setHandle (s : LedgerState) (handle : ℕ) (h : Handle) : LedgerState :=
  { s with handles := Function.update s.handles handle h }

def setCall (s : LedgerState) (producer : ℕ) (c : SlotCall) : LedgerState :=
  { s with calls := Function.update s.calls producer c }

/-- A step of a call on one handle. -/
def onHandle (s : LedgerState) (handle : ℕ) (f : Handle → CreditLedger × Handle) : LedgerState :=
  { s with
    ledger := (f (s.handles handle)).1
    handles := Function.update s.handles handle (f (s.handles handle)).2 }

/-- The next step of the call that runs on a slot. -/
def advance (s : LedgerState) (producer : ℕ) (spurious : Bool) : Option LedgerState :=
  match s.calls producer with
  | .idle => none
  | .reserving call target =>
    match s.ledger.reserveStep call spurious with
    | (l, .running call') =>
      some ({ s with ledger := l }.setCall producer (.reserving call' target))
    | (l, .refused) =>
      some (({ s with ledger := l }.setCall producer .idle).setHandle target .empty)
    | (l, .reserved) =>
      some (({ s with ledger := l }.setCall producer .idle).setHandle target
        (.reservation producer call.worstCaseBytes call.chargeBytes))
  | .reconciling pc =>
    match s.ledger.reconcileStep producer pc with
    | (l, .inl pc') => some ({ s with ledger := l }.setCall producer (.reconciling pc'))
    | (l, .inr _) => some ({ s with ledger := l }.setCall producer .idle)

/-- One atomic step, in a program with `objects` handle objects. -/
def step (objects : ℕ) (s : LedgerState) : LedgerAction → Option LedgerState
  | .reserve producer worstCaseBytes target =>
    if target < objects ∧ s.calls producer = .idle ∧ s.handles target = .empty then
      match s.ledger.startReserve producer worstCaseBytes with
      | none => some s
      | some call => some ((s.setCall producer (.reserving call target)).setHandle target .pending)
    else none
  | .reconcile producer =>
    if producer < s.ledger.producerCount ∧ s.calls producer = .idle then
      some (s.setCall producer (.reconciling .loadLogical))
    else none
  | .advance producer spurious => s.advance producer spurious
  | .commit handle retained =>
    if handle < objects then some (s.onHandle handle (s.ledger.startCommit retained)) else none
  | .release handle =>
    if handle < objects then some (s.onHandle handle s.ledger.startRelease) else none
  | .finish handle =>
    if handle < objects then some (s.onHandle handle s.ledger.finishHandle) else none
  | .move source target =>
    if target < objects ∧ (s.handles source).isSettled ∧ s.handles target = .empty then
      some ((s.setHandle target (s.handles source)).setHandle source .empty)
    else none
  | .snapshot => some s

def machine (capacityBytes producerCount objects : ℕ) : Machine LedgerState LedgerAction where
  init := init capacityBytes producerCount
  step := step objects

/-! ## Subtractions

The operands of the `std::size_t` subtractions a step evaluates: the `fetch_sub` on the logical
charge, and all others.
-/

def logicalSubtractions (s : LedgerState) : LedgerAction → List (ℕ × ℕ)
  | .commit handle retained =>
    match s.handles handle with
    | .reservation producer requested charge =>
      if requested < retained ∨ accountingCharge retained = 0 ∨
          charge < accountingCharge retained then
        [((s.ledger.slots producer).logicalCharge, requested)]
      else []
    | _ => []
  | .release handle =>
    match s.handles handle with
    | .reservation producer requested _ => [((s.ledger.slots producer).logicalCharge, requested)]
    | .ownership producer retained _ => [((s.ledger.slots producer).logicalCharge, retained)]
    | _ => []
  | .finish handle =>
    match s.handles handle with
    | .committing producer requested retained _ =>
      [((s.ledger.slots producer).logicalCharge, requested - retained)]
    | _ => []
  | _ => []

def creditSubtractions (s : LedgerState) : LedgerAction → List (ℕ × ℕ)
  | .advance producer _ =>
    match s.calls producer with
    | .reserving call _ =>
      match call.pc with
      | .gather returned =>
        let localCredit := wrapAdd (s.ledger.slots call.producer).localCredit returned
        if localCredit < call.chargeBytes then [(call.chargeBytes, localCredit)] else []
      | .compareExchange deficit available => [(available, deficit)]
      | .takeLocal => [((s.ledger.slots call.producer).localCredit, call.chargeBytes)]
      | _ => []
    | _ => []
  | .commit handle retained =>
    match s.handles handle with
    | .reservation _ requested charge =>
      if requested < retained ∨ accountingCharge retained = 0 ∨
          charge < accountingCharge retained then
        []
      else [(charge, accountingCharge retained)]
    | _ => []
  | .finish handle =>
    match s.handles handle with
    | .committing _ requested retained _ => [(requested, retained)]
    | _ => []
  | .snapshot => [(s.ledger.capacityBytes, min s.ledger.centralAvailable s.ledger.capacityBytes)]
  | _ => []

end LedgerState

end Ulog
