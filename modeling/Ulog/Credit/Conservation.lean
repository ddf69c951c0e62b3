import Ulog.Credit.Moves
import Mathlib.Algebra.BigOperators.Ring.Finset
import Mathlib.Algebra.Order.BigOperators.Group.Finset
import Mathlib.Tactic.Ring

/-!
# Credit is conserved

Every byte of the capacity is in exactly one of five places: the central pool, the slots (cache and
mailbox), a register of a slot's running call, a live handle, or a register of a call on a handle.
Each step moves credit between two of them. The logical charge of a slot follows the bytes asked for
and retained through it, modulo the word size: a slot may have several commits that have returned
their surplus and not yet lowered the logical charge, so for huge capacities the charge can exceed
what a word holds.
-/

namespace Ulog

open Finset

variable {a : LedgerAction} {s' : LedgerState} {i : ℕ}

/-! ## What each place holds -/

/-- The credit in the registers of a slot's running call. -/
def SlotCall.register : SlotCall → ℕ
  | .idle => 0
  | .reserving call _ => call.pc.register call.chargeBytes
  | .reconciling pc => pc.register

def CreditLedger.slotCredit (l : CreditLedger) : ℕ :=
  ∑ i ∈ range l.producerCount, (l.slots i).credit

namespace LedgerState

def callRegisters (s : LedgerState) : ℕ := ∑ i ∈ range s.ledger.producerCount, (s.calls i).register

def liveCharges (objects : ℕ) (s : LedgerState) : ℕ := ∑ h ∈ range objects, (s.handles h).liveCharge

def handleRegisters (objects : ℕ) (s : LedgerState) : ℕ :=
  ∑ h ∈ range objects, (s.handles h).register

def logicalBytes (objects : ℕ) (s : LedgerState) (i : ℕ) : ℕ :=
  ∑ h ∈ range objects, (s.handles h).logicalBytes i

end LedgerState

/-! ## Steps in sums over the slots -/

namespace CreditLedger

variable {l l' : CreditLedger} {producer : ℕ}

theorem credit_le_slotCredit (hp : producer < l.producerCount) :
    (l.slots producer).credit ≤ l.slotCredit :=
  single_le_sum (f := fun i ↦ (l.slots i).credit) (fun _ _ ↦ Nat.zero_le _) (mem_range.mpr hp)

/-- A step on one slot moves the sum by the difference of that slot. -/
theorem slotCredit_of_slotMove (h : SlotMove producer l l') (hp : producer < l.producerCount) :
    l'.slotCredit + (l.slots producer).credit = l.slotCredit + (l'.slots producer).credit := by
  have hslots : l'.slots = Function.update l.slots producer (l'.slots producer) := by
    refine (Function.update_eq_iff.mpr ⟨rfl, fun i hi ↦ (h.slots i hi).symm⟩).symm
  have hsum := sum_update_add (mem_range.mpr hp) l.slots CreditSlot.credit (l'.slots producer)
  rw [← hslots] at hsum
  rw [slotCredit, h.producerCount]
  exact hsum

end CreditLedger

/-- What one step of a call on a handle does to the ledger and to the handle. -/
structure HandleMove (l : CreditLedger) (h : Handle) (l' : CreditLedger) (h' : Handle) :
    Prop where
  capacityBytes : l'.capacityBytes = l.capacityBytes
  producerCount : l'.producerCount = l.producerCount
  centralAvailable : l'.centralAvailable = l.centralAvailable
  localCredit : ∀ i, (l'.slots i).localCredit = (l.slots i).localCredit
  credit : l'.slotCredit + h'.weight = l.slotCredit + h.weight
  logical : ∀ i, (l'.slots i).logicalCharge + h.logicalBytes i
    ≡ (l.slots i).logicalCharge + h'.logicalBytes i [MOD wordModulus]
  logical_lt : ∀ i, (l.slots i).logicalCharge < wordModulus →
    (l'.slots i).logicalCharge < wordModulus
  ok : h'.Ok l'.producerCount l'.capacityBytes
  pending : h' = .pending ↔ h = .pending

theorem HandleMove.refl {l : CreditLedger} {h : Handle}
    (hok : h.Ok l.producerCount l.capacityBytes) : HandleMove l h l h :=
  ⟨rfl, rfl, rfl, fun _ ↦ rfl, rfl, fun _ ↦ rfl, fun _ hi ↦ hi, hok, Iff.rfl⟩

theorem HandleStep.move {l l' : CreditLedger} {h h' : Handle} (hstep : HandleStep l h l' h')
    (hp : h.producer < l.producerCount) (hroom : l.slotCredit + h.weight < wordModulus) :
    HandleMove l h l' h' := by
  have hcases : ∀ {P : ℕ → Prop}, P h.producer → (∀ i, i ≠ h.producer → P i) → ∀ i, P i := by
    intro P hself hother i
    by_cases hi : i = h.producer
    · exact hi ▸ hself
    · exact hother i hi
  refine { hstep with localCredit := ?_, credit := ?_, logical := ?_, logical_lt := ?_ }
  · exact hcases hstep.localCredit fun i hi ↦ by rw [hstep.slots i hi]
  · have hle := CreditLedger.credit_le_slotCredit hp
    have hsum := CreditLedger.slotCredit_of_slotMove hstep.toSlotMove hp
    have hcredit := hstep.credit.eq (by omega)
    omega
  · refine hcases hstep.logical fun i hi ↦ ?_
    have hzero : h'.logicalBytes i = 0 := by
      rcases hstep.producer with rfl | hproducer
      · rfl
      · exact Handle.logicalBytes_of_ne (hproducer ▸ hi)
    rw [hstep.slots i hi, Handle.logicalBytes_of_ne hi, hzero]
  · exact hcases hstep.logical_lt fun i hi hlt ↦ by rwa [hstep.slots i hi]

namespace CreditLedger

variable {l : CreditLedger}

section Calls

variable {h : Handle} (hcapacity : l.capacityBytes < wordModulus)
  (hok : h.Ok l.producerCount l.capacityBytes) (hroom : l.slotCredit + h.weight < wordModulus)

include hcapacity hok hroom

theorem handleMove_startRelease :
    HandleMove l h (l.startRelease h).1 (l.startRelease h).2 := by
  cases h with
  | empty | pending => exact .refl hok
  | _ => exact (handleStep_startRelease hcapacity hok).move hok.1 hroom

theorem handleMove_startCommit (retained : ℕ) :
    HandleMove l h (l.startCommit retained h).1 (l.startCommit retained h).2 := by
  cases h with
  | empty | pending => exact .refl hok
  | _ => exact (handleStep_startCommit hcapacity hok retained).move hok.1 hroom

theorem handleMove_finishHandle :
    HandleMove l h (l.finishHandle h).1 (l.finishHandle h).2 := by
  cases h with
  | empty | pending => exact .refl hok
  | _ => exact (handleStep_finishHandle hcapacity hok).move hok.1 hroom

end Calls

end CreditLedger

structure ReserveCall.Ok (l : CreditLedger) (c : ReserveCall) : Prop where
  producer : c.producer < l.producerCount
  charge_eq : c.chargeBytes = accountingCharge c.worstCaseBytes
  charge_ne : c.chargeBytes ≠ 0
  charge_le : c.chargeBytes ≤ l.capacityBytes
  pc : c.pc.Ok (l.slots c.producer).localCredit c.chargeBytes

/-- What one step of `TryReserve` does. -/
structure ReserveMove (l : CreditLedger) (c : ReserveCall) (l' : CreditLedger)
    (r : ReserveResult) : Prop extends SlotMove c.producer l l' where
  credit : l'.centralAvailable + l'.slotCredit + r.register c.chargeBytes
    = l.centralAvailable + l.slotCredit + c.pc.register c.chargeBytes
  running : ∀ c', r = .running c' →
    c' = { c with pc := c'.pc } ∧ c'.pc.Ok (l'.slots c.producer).localCredit c.chargeBytes
  logical : (l'.slots c.producer).logicalCharge =
    if r = .reserved then wrapAdd (l.slots c.producer).logicalCharge c.worstCaseBytes
    else (l.slots c.producer).logicalCharge

/-- What one step of `TryReconcileProducer` does. -/
structure ReconcileMove (producer : ℕ) (l : CreditLedger) (pc : ReconcilePc) (l' : CreditLedger)
    (r : ReconcilePc ⊕ Bool) : Prop extends SlotMove producer l l' where
  credit : l'.centralAvailable + l'.slotCredit + r.elim ReconcilePc.register (fun _ ↦ 0)
    = l.centralAvailable + l.slotCredit + pc.register
  logical : (l'.slots producer).logicalCharge = (l.slots producer).logicalCharge

namespace CreditLedger

variable {l l' : CreditLedger} {producer before after : ℕ}

/-- A balanced step on one slot keeps the sum of the centre and all slots. -/
theorem credit_of_slotMove (hmove : SlotMove producer l l') (hp : producer < l.producerCount)
    (hcredit : Balanced (l.available producer + before) (l'.available producer + after))
    (hroom : l.centralAvailable + l.slotCredit + before < wordModulus) :
    l'.centralAvailable + l'.slotCredit + after = l.centralAvailable + l.slotCredit + before := by
  have hle := credit_le_slotCredit hp
  have hsum := slotCredit_of_slotMove hmove hp
  rw [available, available] at hcredit
  have heq := hcredit.eq (by omega)
  omega

theorem reserveMove_reserveStep {c : ReserveCall} (hok : c.Ok l)
    (hcapacity : l.capacityBytes < wordModulus)
    (hroom : l.centralAvailable + l.slotCredit + c.pc.register c.chargeBytes ≤ l.capacityBytes)
    (spurious : Bool) :
    ReserveMove l c (l.reserveStep c spurious).1 (l.reserveStep c spurious).2 := by
  have hstep := reserveStep_spec hok.pc (hok.charge_le.trans_lt hcapacity) spurious
  exact ⟨hstep.toSlotMove, credit_of_slotMove hstep.toSlotMove hok.producer hstep.credit
    (hroom.trans_lt hcapacity), hstep.running, hstep.logical⟩

theorem reconcileMove_reconcileStep (hp : producer < l.producerCount) (pc : ReconcilePc)
    (hcapacity : l.capacityBytes < wordModulus)
    (hroom : l.centralAvailable + l.slotCredit + pc.register ≤ l.capacityBytes) :
    ReconcileMove producer l pc (l.reconcileStep producer pc).1
      (l.reconcileStep producer pc).2 := by
  have hstep := l.reconcileStep_spec producer pc
  exact ⟨hstep.toSlotMove, credit_of_slotMove hstep.toSlotMove hp hstep.credit
    (hroom.trans_lt hcapacity), hstep.logical⟩

end CreditLedger

/-! ## The invariant of all runs -/

/-- Where the credit is, and what running calls and handles know. -/
structure LedgerInv (objects : ℕ) (s : LedgerState) : Prop where
  capacity_lt : s.ledger.capacityBytes < wordModulus
  credit : s.ledger.centralAvailable + s.ledger.slotCredit + s.callRegisters
    + ∑ h ∈ range objects, (s.handles h).weight = s.ledger.capacityBytes
  reserving : ∀ i call t, s.calls i = .reserving call t →
    call.producer = i ∧ call.Ok s.ledger ∧ t < objects ∧ s.handles t = .pending
  reconciling : ∀ i pc, s.calls i = .reconciling pc → i < s.ledger.producerCount
  target : ∀ i j call call' t, s.calls i = .reserving call t → s.calls j = .reserving call' t →
    i = j
  handle : ∀ h, (s.handles h).Ok s.ledger.producerCount s.ledger.capacityBytes
  outside : ∀ h, objects ≤ h → s.handles h = .empty
  logical_lt : ∀ i, (s.ledger.slots i).logicalCharge < wordModulus
  logical : ∀ i, (s.ledger.slots i).logicalCharge ≡ s.logicalBytes objects i [MOD wordModulus]

theorem ReserveCall.Ok.congr {l l' : CreditLedger} {c : ReserveCall} (h : c.Ok l)
    (hcount : l'.producerCount = l.producerCount) (hcapacity : l'.capacityBytes = l.capacityBytes)
    (hlocal : (l'.slots c.producer).localCredit = (l.slots c.producer).localCredit) : c.Ok l' :=
  ⟨hcount ▸ h.producer, h.charge_eq, h.charge_ne, hcapacity ▸ h.charge_le, hlocal ▸ h.pc⟩

namespace LedgerInv

variable {objects : ℕ} {s : LedgerState}

section

variable (hs : LedgerInv objects s)

include hs

theorem weight_le {h : ℕ} (hh : h < objects) :
    s.ledger.slotCredit + (s.handles h).weight ≤ s.ledger.capacityBytes := by
  have hle : (s.handles h).weight ≤ ∑ h ∈ range objects, (s.handles h).weight :=
    single_le_sum (f := fun h ↦ (s.handles h).weight) (fun _ _ ↦ Nat.zero_le _) (mem_range.mpr hh)
  have := hs.credit
  omega

theorem register_le (hi : i < s.ledger.producerCount) :
    s.ledger.centralAvailable + s.ledger.slotCredit + (s.calls i).register
      ≤ s.ledger.capacityBytes := by
  have hle : (s.calls i).register ≤ s.callRegisters :=
    single_le_sum (f := fun i ↦ (s.calls i).register) (fun _ _ ↦ Nat.zero_le _) (mem_range.mpr hi)
  have := hs.credit
  omega

theorem onHandle {h : ℕ} (hh : h < objects) {f : Handle → CreditLedger × Handle}
    (hf : HandleMove s.ledger (s.handles h) (f (s.handles h)).1 (f (s.handles h)).2) :
    LedgerInv objects (s.onHandle h f) := by
  have hweight := sum_update_add (mem_range.mpr hh) s.handles Handle.weight (f (s.handles h)).2
  have hpending : ∀ t, s.handles t = .pending →
      Function.update s.handles h (f (s.handles h)).2 t = .pending := by
    intro t ht
    by_cases hth : t = h
    · subst hth
      rw [Function.update_self]
      exact hf.pending.mpr ht
    · rw [Function.update_of_ne hth]
      exact ht
  refine ⟨?_, ?_, ?_, ?_, hs.target, ?_, ?_, ?_, ?_⟩
  · exact hf.capacityBytes ▸ hs.capacity_lt
  · have hcredit := hs.credit
    have hmove := hf.credit
    have hcalls : (s.onHandle h f).callRegisters = s.callRegisters :=
      congrArg (fun n ↦ ∑ i ∈ range n, (s.calls i).register) hf.producerCount
    simp only [hcalls]
    simp only [LedgerState.onHandle, hf.centralAvailable, hf.capacityBytes]
    omega
  · intro i call t hcall
    obtain ⟨hproducer, hok, ht, hpend⟩ := hs.reserving i call t hcall
    exact ⟨hproducer, hok.congr hf.producerCount hf.capacityBytes (hf.localCredit _), ht,
      hpending t hpend⟩
  · intro i pc hpc
    exact hf.producerCount ▸ hs.reconciling i pc hpc
  · intro h'
    by_cases hne : h' = h
    · subst hne
      simpa only [LedgerState.onHandle, Function.update_self] using hf.ok
    · simpa only [LedgerState.onHandle, Function.update_of_ne hne, hf.producerCount,
        hf.capacityBytes] using hs.handle h'
  · intro h' hout
    simpa only [LedgerState.onHandle, Function.update_of_ne (show h' ≠ h by omega)]
      using hs.outside h' hout
  · exact fun i ↦ hf.logical_lt i (hs.logical_lt i)
  · intro i
    have hsum := sum_update_add (mem_range.mpr hh) s.handles (Handle.logicalBytes i)
      (f (s.handles h)).2
    have hmove := hf.logical i
    have hold := (hs.logical i).add_right ((f (s.handles h)).2.logicalBytes i)
    refine Nat.ModEq.add_right_cancel' ((s.handles h).logicalBytes i) (hmove.trans (hold.trans ?_))
    rw [LedgerState.logicalBytes, ← hsum]
    rfl

/-- A step of the running call of slot `i`, which changes that call and possibly one handle. -/
theorem slotStep (hi : i < s.ledger.producerCount) {l' : CreditLedger} {call' : SlotCall}
    {handles' : ℕ → Handle} (hmove : SlotMove i s.ledger l')
    (hcredit : l'.centralAvailable + l'.slotCredit + call'.register +
        ∑ h ∈ range objects, (handles' h).weight =
      s.ledger.centralAvailable + s.ledger.slotCredit + (s.calls i).register +
        ∑ h ∈ range objects, (s.handles h).weight)
    (hcall : ∀ call t, call' = .reserving call t → call.producer = i ∧ call.Ok l' ∧ t < objects ∧
      handles' t = .pending)
    (htarget : ∀ call t, call' = .reserving call t → ∃ call₀, s.calls i = .reserving call₀ t)
    (hothers : ∀ j call t, j ≠ i → s.calls j = .reserving call t → handles' t = .pending)
    (hhandle : ∀ h, (handles' h).Ok s.ledger.producerCount s.ledger.capacityBytes)
    (houtside : ∀ h, objects ≤ h → handles' h = .empty)
    (hlt : (l'.slots i).logicalCharge < wordModulus)
    (hlogical : ∀ j, (l'.slots j).logicalCharge ≡
      ∑ h ∈ range objects, (handles' h).logicalBytes j [MOD wordModulus]) :
    LedgerInv objects ⟨l', Function.update s.calls i call', handles'⟩ := by
  have hregisters := sum_update_add (mem_range.mpr hi) s.calls SlotCall.register call'
  refine ⟨hmove.capacityBytes ▸ hs.capacity_lt, ?_, ?_, ?_, ?_, ?_, houtside, ?_, hlogical⟩
  · have hold := hs.credit
    rw [LedgerState.callRegisters] at hold ⊢
    simp only [hmove.producerCount, hmove.capacityBytes]
    omega
  · intro j call t hj
    change Function.update s.calls i call' j = _ at hj
    by_cases hji : j = i
    · subst hji
      rw [Function.update_self] at hj
      exact hcall call t hj
    · rw [Function.update_of_ne hji] at hj
      obtain ⟨hproducer, hok, ht, -⟩ := hs.reserving j call t hj
      refine ⟨hproducer, hok.congr hmove.producerCount hmove.capacityBytes ?_, ht,
        hothers j call t hji hj⟩
      rw [hmove.slots _ (hproducer ▸ hji)]
  · intro j pc hj
    change Function.update s.calls i call' j = _ at hj
    by_cases hji : j = i
    · subst hji
      exact hmove.producerCount ▸ hi
    · rw [Function.update_of_ne hji] at hj
      exact hmove.producerCount ▸ hs.reconciling j pc hj
  · -- the target of the running call has not changed
    have hback : ∀ j call t, Function.update s.calls i call' j = .reserving call t →
        ∃ call₀, s.calls j = .reserving call₀ t := by
      intro j call t hj
      by_cases hji : j = i
      · subst hji
        rw [Function.update_self] at hj
        exact htarget call t hj
      · rw [Function.update_of_ne hji] at hj
        exact ⟨call, hj⟩
    intro j k call call₁ t hj hk
    obtain ⟨call₂, hj'⟩ := hback j call t hj
    obtain ⟨call₃, hk'⟩ := hback k call₁ t hk
    exact hs.target j k call₂ call₃ t hj' hk'
  · intro h
    simpa only [hmove.producerCount, hmove.capacityBytes] using hhandle h
  · intro j
    by_cases hji : j = i
    · rw [hji]
      exact hlt
    · show (l'.slots j).logicalCharge < wordModulus
      rw [hmove.slots j hji]
      exact hs.logical_lt j

theorem reconcileStep {pc : ReconcilePc} (hpc : s.calls i = .reconciling pc) (call' : SlotCall)
    (hcall' : call' = (s.ledger.reconcileStep i pc).2.elim .reconciling (fun _ ↦ .idle)) :
    LedgerInv objects
      ⟨(s.ledger.reconcileStep i pc).1, Function.update s.calls i call', s.handles⟩ := by
  have hi := hs.reconciling i pc hpc
  have hroom := hs.register_le hi
  rw [hpc] at hroom
  have hmove := CreditLedger.reconcileMove_reconcileStep hi pc hs.capacity_lt hroom
  have hnot : ∀ call t, call' ≠ .reserving call t := by
    rintro call t rfl
    cases h : (s.ledger.reconcileStep i pc).2 <;> rw [h] at hcall' <;> cases hcall'
  have hlogical : ∀ j, ((s.ledger.reconcileStep i pc).1.slots j).logicalCharge
      = (s.ledger.slots j).logicalCharge := by
    intro j
    by_cases hji : j = i
    · rw [hji, hmove.logical]
    · rw [hmove.slots j hji]
  refine hs.slotStep hi hmove.toSlotMove ?_ (fun call t h ↦ absurd h (hnot call t))
    (fun call t h ↦ absurd h (hnot call t)) (fun j call t _ hj ↦ (hs.reserving j call t hj).2.2.2)
    hs.handle hs.outside ?_ ?_
  · have hcredit := hmove.credit
    have hreg : call'.register
        = (s.ledger.reconcileStep i pc).2.elim ReconcilePc.register (fun _ ↦ 0) := by
      rw [hcall']
      cases (s.ledger.reconcileStep i pc).2 <;> rfl
    have hold : (s.calls i).register = pc.register := by
      rw [hpc]
      rfl
    omega
  · rw [hlogical]
    exact hs.logical_lt i
  · intro j
    rw [hlogical]
    exact hs.logical j

theorem reserveFinish {t : ℕ} {call : ReserveCall} (hcall : s.calls i = .reserving call t)
    {l' : CreditLedger} {r : ReserveResult} (hmove : ReserveMove s.ledger call l' r)
    (hr : r = .refused ∨ r = .reserved) :
    LedgerInv objects ⟨l', Function.update s.calls i .idle, Function.update s.handles t
      (if r = .reserved then .reservation i call.worstCaseBytes call.chargeBytes else .empty)⟩ := by
  obtain ⟨rfl, hok, ht, hpending⟩ := hs.reserving i call t hcall
  obtain ⟨h', hh'⟩ : ∃ h', (if r = .reserved then
    Handle.reservation call.producer call.worstCaseBytes call.chargeBytes else .empty) = h' :=
      ⟨_, rfl⟩
  rw [hh']
  have hweight := sum_update_add (mem_range.mpr ht) s.handles Handle.weight h'
  have hcredit := hmove.credit
  have hregister : h'.weight = r.register call.chargeBytes := by
    rw [← hh']
    rcases hr with rfl | rfl <;> rfl
  have hbytes : ∀ j, h'.logicalBytes j
      = if r = .reserved ∧ call.producer = j then call.worstCaseBytes else 0 := by
    intro j
    rw [← hh']
    rcases hr with rfl | rfl <;> simp [Handle.logicalBytes]
  refine hs.slotStep hok.producer hmove.toSlotMove ?_ (fun _ _ h ↦ by cases h)
    (fun _ _ h ↦ by cases h) (fun j call' t' hji hj ↦ ?_) (fun h ↦ ?_) (fun h hout ↦ ?_) ?_
    (fun j ↦ ?_)
  · rw [hcall, SlotCall.register, SlotCall.register]
    have hzero : (s.handles t).weight = 0 := by
      rw [hpending]
      rfl
    omega
  · have hne : t' ≠ t := by
      rintro rfl
      exact hji (hs.target _ _ _ _ _ hj hcall)
    rw [Function.update_of_ne hne]
    exact (hs.reserving j call' t' hj).2.2.2
  · by_cases hne : h = t
    · rw [hne, Function.update_self, ← hh']
      split
      · exact ⟨hok.producer, hok.charge_eq, hok.charge_ne, hok.charge_le⟩
      · trivial
    · rw [Function.update_of_ne hne]
      exact hs.handle h
  · rw [Function.update_of_ne (by omega)]
    exact hs.outside h hout
  · rw [hmove.logical]
    split
    · exact Nat.mod_lt _ (by decide)
    · exact hs.logical_lt _
  · have hsum := sum_update_add (mem_range.mpr ht) s.handles (Handle.logicalBytes j) h'
    rw [hpending, hbytes] at hsum
    have hold := hs.logical j
    rw [LedgerState.logicalBytes] at hold
    by_cases hj : j = call.producer
    · subst hj
      rw [hmove.logical]
      split
      · next hreserved =>
        simp only [hreserved, and_self, if_true, Handle.logicalBytes] at hsum
        rw [show (∑ h ∈ range objects, (Function.update s.handles t h' h).logicalBytes
          call.producer) = _ from hsum]
        exact (wrapAdd_modEq _ _).trans (hold.add_right _)
      · next hrefused =>
        simp only [hrefused, false_and, if_false, Handle.logicalBytes] at hsum
        rw [show (∑ h ∈ range objects, (Function.update s.handles t h' h).logicalBytes
          call.producer) = _ from hsum]
        exact hold
    · rw [hmove.slots j hj]
      simp only [Ne.symm hj, and_false, if_false, Handle.logicalBytes] at hsum
      rw [show (∑ h ∈ range objects, (Function.update s.handles t h' h).logicalBytes j)
        = _ from hsum]
      exact hold

theorem advance {spurious : Bool} (hstep : s.advance i spurious = some s') :
    LedgerInv objects s' := by
  rw [LedgerState.advance] at hstep
  cases hcall : s.calls i with
  | idle =>
    rw [hcall] at hstep
    cases hstep
  | reserving call t =>
    obtain ⟨hproducer, hok, ht, hpending⟩ := hs.reserving i call t hcall
    have hroom := hs.register_le (hproducer ▸ hok.producer : i < _)
    rw [hcall] at hroom
    have hmove := CreditLedger.reserveMove_reserveStep hok hs.capacity_lt hroom spurious
    obtain ⟨⟨l', r⟩, heq⟩ : ∃ p, s.ledger.reserveStep call spurious = p := ⟨_, rfl⟩
    rw [heq] at hmove
    simp only [hcall, heq] at hstep
    cases r with
    | running call' =>
      cases hstep
      obtain ⟨hcall', hpc⟩ := hmove.running call' rfl
      have hcredit := hmove.credit
      have hlogical : ∀ j, (l'.slots j).logicalCharge = (s.ledger.slots j).logicalCharge := by
        intro j
        by_cases hj : j = call.producer
        · rw [hj, hmove.logical, if_neg (by simp)]
        · rw [hmove.slots j hj]
      refine hs.slotStep (hproducer ▸ hok.producer) (hproducer ▸ hmove.toSlotMove) ?_ ?_ ?_
        (fun j call₁ t₁ _ hj ↦ (hs.reserving j call₁ t₁ hj).2.2.2) hs.handle hs.outside ?_ ?_
      · rw [hcall, SlotCall.register, SlotCall.register]
        have hcharge : call'.chargeBytes = call.chargeBytes := by rw [hcall']
        rw [hcharge]
        dsimp only [ReserveResult.register] at hcredit ⊢
        omega
      · rintro call₁ t₁ ⟨⟩
        rw [hcall']
        refine ⟨hproducer, ⟨?_, hok.charge_eq, hok.charge_ne, ?_, hpc⟩, ht, hpending⟩
        · exact hmove.producerCount ▸ hok.producer
        · exact hmove.capacityBytes ▸ hok.charge_le
      · rintro call₁ t₁ ⟨⟩
        exact ⟨call, hcall⟩
      · rw [hlogical]
        exact hs.logical_lt i
      · intro j
        rw [hlogical]
        exact hs.logical j
    | refused =>
      cases hstep
      exact hs.reserveFinish hcall hmove (Or.inl rfl)
    | reserved =>
      cases hstep
      exact hs.reserveFinish hcall hmove (Or.inr rfl)
  | reconciling pc =>
    obtain ⟨⟨l', r⟩, heq⟩ : ∃ p, s.ledger.reconcileStep i pc = p := ⟨_, rfl⟩
    have hrec := hs.reconcileStep hcall
    rw [heq] at hrec
    simp only [hcall, heq] at hstep
    cases r with
    | inl pc' =>
      cases hstep
      exact hrec _ rfl
    | inr b =>
      cases hstep
      exact hrec _ rfl

theorem reserveStart {worst t : ℕ} {call : ReserveCall} (ht : t < objects)
    (hidle : s.calls i = .idle) (hempty : s.handles t = .empty)
    (hstart : s.ledger.startReserve i worst = some call) :
    LedgerInv objects ((s.setCall i (.reserving call t)).setHandle t .pending) := by
  rw [CreditLedger.startReserve] at hstart
  split at hstart
  · cases hstart
  · next hvalid =>
    push Not at hvalid
    obtain ⟨hi, hne, hle⟩ := hvalid
    cases hstart
    have hregisters := sum_update_add (mem_range.mpr hi) s.calls SlotCall.register
      (.reserving ⟨i, worst, accountingCharge worst, .drain⟩ t)
    have hweight := sum_update_add (mem_range.mpr ht) s.handles Handle.weight .pending
    have hkept : ∀ h, h ≠ t → Function.update s.handles t .pending h = s.handles h :=
      fun h hne ↦ Function.update_of_ne hne ..
    have hfresh : ∀ j call', s.calls j ≠ .reserving call' t := by
      intro j call' hj
      have := (hs.reserving j call' t hj).2.2.2
      rw [hempty] at this
      cases this
    have hcalls : ∀ j call' t', Function.update s.calls i
        (.reserving ⟨i, worst, accountingCharge worst, .drain⟩ t) j = .reserving call' t' →
        (j = i ∧ call' = ⟨i, worst, accountingCharge worst, .drain⟩ ∧ t' = t) ∨
        (j ≠ i ∧ s.calls j = .reserving call' t') := by
      intro j call' t' hj
      by_cases hji : j = i
      · rw [hji, Function.update_self] at hj
        cases hj
        exact Or.inl ⟨hji, rfl, rfl⟩
      · rw [Function.update_of_ne hji] at hj
        exact Or.inr ⟨hji, hj⟩
    refine ⟨hs.capacity_lt, ?_, fun j call' t' hj ↦ ?_, fun j pc hj ↦ ?_, ?_, fun h ↦ ?_,
      fun h hout ↦ ?_, hs.logical_lt, fun j ↦ ?_⟩
    · have hcredit := hs.credit
      rw [LedgerState.callRegisters] at hcredit ⊢
      rw [hidle] at hregisters
      rw [hempty] at hweight
      dsimp only [SlotCall.register, ReservePc.register, Handle.weight, Handle.liveCharge,
        Handle.register, LedgerState.setHandle, LedgerState.setCall] at hregisters hweight hcredit ⊢
      omega
    · rcases hcalls j call' t' hj with ⟨rfl, rfl, rfl⟩ | ⟨-, hj'⟩
      · exact ⟨rfl, ⟨hi, rfl, hne, hle, trivial⟩, ht, Function.update_self ..⟩
      · obtain ⟨hproducer, hok, ht', hpending⟩ := hs.reserving j call' t' hj'
        refine ⟨hproducer, hok, ht', ?_⟩
        show Function.update s.handles t .pending t' = .pending
        rw [hkept t' (by rintro rfl; exact hfresh j call' hj')]
        exact hpending
    · change Function.update s.calls i _ j = _ at hj
      by_cases hji : j = i
      · exact hji ▸ hi
      · rw [Function.update_of_ne hji] at hj
        exact hs.reconciling j pc hj
    · intro j k call₁ call₂ t' hj hk
      rcases hcalls j call₁ t' hj with ⟨rfl, -, rfl⟩ | ⟨-, hj'⟩ <;>
        rcases hcalls k call₂ t' hk with ⟨rfl, -, h⟩ | ⟨-, hk'⟩
      · rfl
      · exact absurd hk' (hfresh k call₂)
      · exact absurd (h ▸ hj') (hfresh j call₁)
      · exact hs.target j k call₁ call₂ t' hj' hk'
    · show Handle.Ok _ _ (Function.update s.handles t .pending h)
      by_cases hne' : h = t
      · rw [hne', Function.update_self]
        trivial
      · rw [hkept h hne']
        exact hs.handle h
    · show Function.update s.handles t .pending h = .empty
      rw [hkept h (by omega)]
      exact hs.outside h hout
    · have hsum := sum_update_add (mem_range.mpr ht) s.handles (Handle.logicalBytes j) .pending
      rw [hempty] at hsum
      have hold := hs.logical j
      rw [LedgerState.logicalBytes] at hold ⊢
      rw [show (∑ h ∈ range objects, (((s.setCall i _).setHandle t .pending).handles h).logicalBytes
        j) = _ from hsum]
      exact hold

theorem move {source target : ℕ} (ht : target < objects) (hsettled : (s.handles source).isSettled)
    (hempty : s.handles target = .empty) :
    LedgerInv objects ((s.setHandle target (s.handles source)).setHandle source .empty) := by
  -- exchanging an entry with an empty one changes no sum
  have hsum : ∀ w : Handle → ℕ, w .empty = 0 →
      ∑ h ∈ range objects, w (((s.setHandle target (s.handles source)).setHandle source
        .empty).handles h) = ∑ h ∈ range objects, w (s.handles h) := by
    intro w hw
    have hfirst := sum_update_add (mem_range.mpr ht) s.handles w (s.handles source)
    by_cases hsource : source < objects
    · have hsecond := sum_update_add (mem_range.mpr hsource)
        (Function.update s.handles target (s.handles source)) w .empty
      have hat : Function.update s.handles target (s.handles source) source = s.handles source := by
        by_cases heq : source = target
        · rw [heq, Function.update_self]
        · rw [Function.update_of_ne heq]
      rw [hat, hw] at hsecond
      rw [hempty, hw] at hfirst
      dsimp only [LedgerState.setHandle]
      omega
    · have hout := hs.outside source (by omega)
      rw [hempty, hout, hw] at hfirst
      rw [hout]
      refine (sum_congr rfl fun h hh ↦ ?_).trans hfirst
      rw [mem_range] at hh
      show w (Function.update (Function.update s.handles target .empty) source .empty h) = _
      rw [Function.update_of_ne (by omega)]
  have hentry : ∀ h, ((s.setHandle target (s.handles source)).setHandle source .empty).handles h
      = .empty ∨ (h ≠ source ∧ h ≠ target ∧ ((s.setHandle target (s.handles source)).setHandle
        source .empty).handles h = s.handles h) ∨ (h = target ∧ ((s.setHandle target
        (s.handles source)).setHandle source .empty).handles h = s.handles source) := by
    intro h
    show Function.update (Function.update s.handles target (s.handles source)) source .empty h
      = .empty ∨ (_ ∧ _ ∧ Function.update (Function.update s.handles target (s.handles source))
        source .empty h = _) ∨ (_ ∧ Function.update (Function.update s.handles target
        (s.handles source)) source .empty h = _)
    by_cases h1 : h = source
    · rw [h1, Function.update_self]
      exact Or.inl rfl
    · rw [Function.update_of_ne h1]
      by_cases h2 : h = target
      · rw [h2, Function.update_self]
        exact Or.inr (Or.inr ⟨rfl, rfl⟩)
      · rw [Function.update_of_ne h2]
        exact Or.inr (Or.inl ⟨h1, h2, rfl⟩)
  refine ⟨hs.capacity_lt, ?_, fun i call t hi ↦ ?_, hs.reconciling, hs.target, fun h ↦ ?_,
    fun h hout ↦ ?_, hs.logical_lt, fun i ↦ ?_⟩
  · have hcredit := hs.credit
    rw [hsum Handle.weight rfl]
    exact hcredit
  · obtain ⟨hproducer, hok, ht', hpending⟩ := hs.reserving i call t hi
    refine ⟨hproducer, hok, ht', ?_⟩
    show Function.update (Function.update s.handles target (s.handles source)) source .empty t = _
    have h1 : t ≠ source := by
      rintro rfl
      rw [hpending] at hsettled
      cases hsettled
    have h2 : t ≠ target := by
      rintro rfl
      rw [hempty] at hpending
      cases hpending
    rw [Function.update_of_ne h1, Function.update_of_ne h2]
    exact hpending
  · rcases hentry h with hh | ⟨-, -, hh⟩ | ⟨-, hh⟩ <;> rw [hh]
    · trivial
    · exact hs.handle h
    · exact hs.handle source
  · rcases hentry h with hh | ⟨-, -, hh⟩ | ⟨rfl, -⟩
    · exact hh
    · rw [hh]
      exact hs.outside h hout
    · omega
  · rw [LedgerState.logicalBytes, hsum (Handle.logicalBytes i) rfl]
    exact hs.logical i

theorem step (hstep : s.step objects a = some s') : LedgerInv objects s' := by
  have hroom : ∀ h, h < objects → s.ledger.slotCredit + (s.handles h).weight < wordModulus :=
    fun h hh ↦ (hs.weight_le hh).trans_lt hs.capacity_lt
  cases a with
  | reserve i worst t =>
    rw [LedgerState.step] at hstep
    split at hstep
    · next hready =>
      split at hstep
      · cases hstep
        exact hs
      · next call hstart =>
        cases hstep
        exact hs.reserveStart hready.1 hready.2.1 hready.2.2 hstart
    · cases hstep
  | reconcile i =>
    rw [LedgerState.step] at hstep
    split at hstep
    · next hready =>
      cases hstep
      refine hs.slotStep hready.1 (CreditLedger.slotMove_refl _ _) ?_ (fun _ _ h ↦ by cases h)
        (fun _ _ h ↦ by cases h) (fun j call t _ hj ↦ (hs.reserving j call t hj).2.2.2) hs.handle
        hs.outside (hs.logical_lt i) hs.logical
      rw [hready.2]
      rfl
    · cases hstep
  | advance i spurious => exact hs.advance hstep
  | commit h retained =>
    rw [LedgerState.step] at hstep
    split at hstep
    · next hh =>
      cases hstep
      exact hs.onHandle hh (CreditLedger.handleMove_startCommit hs.capacity_lt (hs.handle h)
        (hroom h hh) retained)
    · cases hstep
  | release h =>
    rw [LedgerState.step] at hstep
    split at hstep
    · next hh =>
      cases hstep
      exact hs.onHandle hh (CreditLedger.handleMove_startRelease hs.capacity_lt (hs.handle h)
        (hroom h hh))
    · cases hstep
  | finish h =>
    rw [LedgerState.step] at hstep
    split at hstep
    · next hh =>
      cases hstep
      exact hs.onHandle hh (CreditLedger.handleMove_finishHandle hs.capacity_lt (hs.handle h)
        (hroom h hh))
    · cases hstep
  | move source target =>
    rw [LedgerState.step] at hstep
    split at hstep
    · next hready =>
      cases hstep
      exact hs.move hready.1 hready.2.1 hready.2.2
    · cases hstep
  | snapshot =>
    cases hstep
    exact hs

end

end LedgerInv

/-! ## The capacity of a run -/

/-- The ledger's capacity and number of slots never change. -/
def CreditLedger.SameConfig (l l' : CreditLedger) : Prop :=
  l'.capacityBytes = l.capacityBytes ∧ l'.producerCount = l.producerCount

namespace CreditLedger

theorem sameConfig_reserveStep (l : CreditLedger) (c : ReserveCall) (spurious : Bool) :
    l.SameConfig (l.reserveStep c spurious).1 := by
  rw [reserveStep]
  split
  · exact ⟨rfl, rfl⟩
  · exact ⟨rfl, rfl⟩
  · split <;> exact ⟨rfl, rfl⟩
  · split
    · exact ⟨rfl, rfl⟩
    · split <;> exact ⟨rfl, rfl⟩
  · exact ⟨rfl, rfl⟩
  · exact ⟨rfl, rfl⟩
  · exact ⟨rfl, rfl⟩

theorem sameConfig_reconcileStep (l : CreditLedger) (producer : ℕ) (pc : ReconcilePc) :
    l.SameConfig (l.reconcileStep producer pc).1 := by
  cases pc with
  | loadLogical =>
    rw [reconcileStep]
    split <;> exact ⟨rfl, rfl⟩
  | drain => exact ⟨rfl, rfl⟩
  | gather returned => exact ⟨rfl, rfl⟩
  | giveBack =>
    simp only [reconcileStep]
    split <;> exact ⟨rfl, rfl⟩

theorem sameConfig_returnToMailbox (l : CreditLedger) (producer bytes : ℕ) :
    l.SameConfig (l.returnToMailbox producer bytes) := by
  rw [returnToMailbox]
  split <;> exact ⟨rfl, rfl⟩

theorem sameConfig_startRelease (l : CreditLedger) (h : Handle) :
    l.SameConfig (l.startRelease h).1 := by
  cases h <;> exact ⟨rfl, rfl⟩

theorem sameConfig_startCommit (l : CreditLedger) (retained : ℕ) (h : Handle) :
    l.SameConfig (l.startCommit retained h).1 := by
  cases h with
  | reservation producer requested charge =>
    simp only [startCommit]
    split
    · exact l.sameConfig_startRelease _
    · exact l.sameConfig_returnToMailbox _ _
  | _ => exact ⟨rfl, rfl⟩

theorem sameConfig_finishHandle (l : CreditLedger) (h : Handle) :
    l.SameConfig (l.finishHandle h).1 := by
  cases h with
  | releasing producer charge => exact l.sameConfig_returnToMailbox _ _
  | _ => exact ⟨rfl, rfl⟩

end CreditLedger

theorem LedgerState.sameConfig_step {objects : ℕ} {s : LedgerState}
    (hstep : s.step objects a = some s') : s.ledger.SameConfig s'.ledger := by
  cases a with
  | reserve i worst t =>
    simp only [step] at hstep
    split at hstep
    · split at hstep <;> cases hstep <;> exact ⟨rfl, rfl⟩
    · cases hstep
  | reconcile i =>
    simp only [step] at hstep
    split at hstep <;> cases hstep
    exact ⟨rfl, rfl⟩
  | advance i spurious =>
    simp only [step, advance] at hstep
    split at hstep
    · cases hstep
    · next call t _ =>
      have hconfig := s.ledger.sameConfig_reserveStep call spurious
      split at hstep <;> next heq => (rw [heq] at hconfig; cases hstep; exact hconfig)
    · next pc _ =>
      have hconfig := s.ledger.sameConfig_reconcileStep i pc
      split at hstep <;> next heq => (rw [heq] at hconfig; cases hstep; exact hconfig)
  | commit h retained =>
    simp only [step] at hstep
    split at hstep <;> cases hstep
    exact s.ledger.sameConfig_startCommit _ _
  | release h =>
    simp only [step] at hstep
    split at hstep <;> cases hstep
    exact s.ledger.sameConfig_startRelease _
  | finish h =>
    simp only [step] at hstep
    split at hstep <;> cases hstep
    exact s.ledger.sameConfig_finishHandle _
  | move source target =>
    simp only [step] at hstep
    split at hstep <;> cases hstep
    exact ⟨rfl, rfl⟩
  | snapshot =>
    cases hstep
    exact ⟨rfl, rfl⟩

section Runs

variable {capacity producers objects : ℕ} {s : LedgerState}

theorem LedgerInv.of_reachable (hcapacity : capacity < wordModulus)
    (h : (LedgerState.machine capacity producers objects).Reachable s) :
    LedgerInv objects s ∧ s.ledger.capacityBytes = capacity ∧
      s.ledger.producerCount = producers := by
  refine h.invariant (I := fun s ↦ LedgerInv objects s ∧ s.ledger.capacityBytes = capacity ∧
    s.ledger.producerCount = producers) ⟨?_, rfl, rfl⟩ ?_
  · refine ⟨hcapacity, ?_, fun _ _ _ h ↦ ?_, fun _ _ h ↦ ?_, fun _ _ _ _ _ h ↦ ?_,
      fun _ ↦ trivial, fun _ _ ↦ rfl, fun _ ↦ ?_, fun i ↦ ?_⟩
    · simp [LedgerState.machine, LedgerState.init, CreditLedger.reset, CreditLedger.slotCredit,
        CreditSlot.credit, LedgerState.callRegisters, SlotCall.register, Handle.weight,
        Handle.liveCharge, Handle.register]
    · cases h
    · cases h
    · cases h
    · show 0 < wordModulus
      decide
    · simp [LedgerState.machine, LedgerState.init, CreditLedger.reset, LedgerState.logicalBytes,
        Handle.logicalBytes, Nat.ModEq]
  · rintro s a s' ⟨hs, hcap, hcount⟩ hstep
    obtain ⟨hcap', hcount'⟩ := LedgerState.sameConfig_step hstep
    exact ⟨hs.step hstep, hcap'.trans hcap, hcount'.trans hcount⟩

/-- A handle that counts for a logical charge holds at least one quantum of credit. -/
theorem Handle.Ok.logicalBytes_le {h : Handle} (hok : h.Ok producers capacity) (i : ℕ) :
    accountingQuantumBytes * h.logicalBytes i ≤ capacity * h.weight := by
  have hmul : ∀ {p : Prop} [Decidable p] {bytes charge : ℕ}, bytes ≤ capacity →
      accountingQuantumBytes ≤ charge →
      accountingQuantumBytes * (if p then bytes else 0) ≤ capacity * charge := by
    intro p _ bytes charge hbytes hcharge
    split
    · rw [Nat.mul_comm]
      exact Nat.mul_le_mul hbytes hcharge
    · exact Nat.zero_le _
  cases h with
  | reservation producer requested charge =>
    obtain ⟨-, rfl, hne, hle⟩ := hok
    have hbound := accountingCharge_bounds hne
    exact hmul (hbound.1.trans hle) hbound.2
  | ownership producer retained charge =>
    obtain ⟨-, rfl, hne, hle⟩ := hok
    have hbound := accountingCharge_bounds hne
    exact hmul (hbound.1.trans hle) hbound.2
  | committing producer requested retained retainedCharge =>
    obtain ⟨-, -, hrequested, rfl, hne, -⟩ := hok
    have hweight : (Handle.committing producer requested retained
        (accountingCharge retained)).weight = accountingCharge retained := Nat.zero_add _
    rw [hweight]
    exact hmul hrequested (accountingCharge_bounds hne).2
  | _ => exact Nat.zero_le _

/-- So logical charges are bounded by the square of the capacity. -/
theorem LedgerInv.logicalBytes_le (hs : LedgerInv objects s) (i : ℕ) :
    accountingQuantumBytes * s.logicalBytes objects i
      ≤ s.ledger.capacityBytes * s.ledger.capacityBytes := by
  have hcredit := hs.credit
  calc accountingQuantumBytes * s.logicalBytes objects i
      = ∑ h ∈ range objects, accountingQuantumBytes * (s.handles h).logicalBytes i := by
        rw [LedgerState.logicalBytes, mul_sum]
    _ ≤ ∑ h ∈ range objects, s.ledger.capacityBytes * (s.handles h).weight :=
        sum_le_sum fun h _ ↦ (hs.handle h).logicalBytes_le i
    _ = s.ledger.capacityBytes * ∑ h ∈ range objects, (s.handles h).weight := (mul_sum ..).symm
    _ ≤ s.ledger.capacityBytes * s.ledger.capacityBytes := Nat.mul_le_mul_left _ (by omega)

theorem LedgerInv.logicalBytes_lt (hs : LedgerInv objects s)
    (hcapacity : s.ledger.capacityBytes < 2 ^ 35) (i : ℕ) :
    s.logicalBytes objects i < wordModulus := by
  have hle := hs.logicalBytes_le i
  have hsq : s.ledger.capacityBytes * s.ledger.capacityBytes < 2 ^ 35 * 2 ^ 35 :=
    Nat.mul_self_lt_mul_self hcapacity
  have hw : wordModulus = 2 ^ 64 := rfl
  rw [show accountingQuantumBytes = 64 from rfl] at hle
  omega

/-! ## Subtractions -/

theorem LedgerInv.creditSubtractions_le (hs : LedgerInv objects s) {p : ℕ × ℕ}
    (hp : p ∈ s.creditSubtractions a) : p.2 ≤ p.1 := by
  cases a with
  | advance i spurious =>
    simp only [LedgerState.creditSubtractions] at hp
    split at hp
    · next call t hcall =>
      have hpc := (hs.reserving i call t hcall).2.1.pc
      split at hp
      · split at hp
        · next hlt =>
          rw [List.mem_singleton.mp hp]
          exact hlt.le
        · cases hp
      · next hpc' =>
        rw [List.mem_singleton.mp hp]
        rw [hpc'] at hpc
        exact hpc.2
      · next hpc' =>
        rw [List.mem_singleton.mp hp]
        rw [hpc'] at hpc
        exact hpc
      · cases hp
    · cases hp
  | commit h retained =>
    simp only [LedgerState.creditSubtractions] at hp
    split at hp
    · split at hp
      · cases hp
      · next hfits =>
        rw [List.mem_singleton.mp hp]
        push Not at hfits
        exact hfits.2.2
    · cases hp
  | finish h =>
    simp only [LedgerState.creditSubtractions] at hp
    split at hp
    · next hh =>
      have hok := hs.handle h
      rw [hh] at hok
      rw [List.mem_singleton.mp hp]
      exact hok.2.1
    · cases hp
  | snapshot =>
    rw [List.mem_singleton.mp hp]
    exact Nat.min_le_right _ _
  | _ => cases hp

/-- The `fetch_sub` on a logical charge takes off what a handle contributes to it. -/
theorem LedgerInv.logicalSubtractions_le (hs : LedgerInv objects s)
    (hlt : ∀ i, s.logicalBytes objects i < wordModulus) (hstep : s.step objects a = some s')
    {p : ℕ × ℕ} (hp : p ∈ s.logicalSubtractions a) : p.2 ≤ p.1 := by
  have hlogical : ∀ i, (s.ledger.slots i).logicalCharge = s.logicalBytes objects i := by
    intro i
    have hmod := hs.logical i
    rwa [Nat.ModEq, Nat.mod_eq_of_lt (hs.logical_lt i), Nat.mod_eq_of_lt (hlt i)] at hmod
  have hpart : ∀ {h : ℕ} (i : ℕ), h < objects →
      (s.handles h).logicalBytes i ≤ (s.ledger.slots i).logicalCharge := by
    intro h i hh
    rw [hlogical]
    exact single_le_sum (f := fun h ↦ (s.handles h).logicalBytes i) (fun _ _ ↦ Nat.zero_le _)
      (mem_range.mpr hh)
  cases a with
  | commit h retained =>
    obtain ⟨hlt, -⟩ := Option.ite_none_right_eq_some.mp hstep
    simp only [LedgerState.logicalSubtractions] at hp
    split at hp
    · next producer requested charge hh =>
      split at hp
      · rw [List.mem_singleton.mp hp]
        have := hpart producer hlt
        rwa [hh, Handle.logicalBytes, if_pos rfl] at this
      · cases hp
    · cases hp
  | release h =>
    obtain ⟨hlt, -⟩ := Option.ite_none_right_eq_some.mp hstep
    simp only [LedgerState.logicalSubtractions] at hp
    split at hp
    case h_1 producer _ _ hh | h_2 producer _ _ hh =>
      rw [List.mem_singleton.mp hp]
      have := hpart producer hlt
      rwa [hh, Handle.logicalBytes, if_pos rfl] at this
    · cases hp
  | finish h =>
    obtain ⟨hlt, -⟩ := Option.ite_none_right_eq_some.mp hstep
    simp only [LedgerState.logicalSubtractions] at hp
    split at hp
    · next producer requested retained charge hh =>
      rw [List.mem_singleton.mp hp]
      have := hpart producer hlt
      rw [hh, Handle.logicalBytes, if_pos rfl] at this
      exact (Nat.sub_le _ _).trans this
    · cases hp
  | _ => cases hp

/-- Byte credit is conserved and bounded in every run. The logical charges agree with the live
handles modulo the word size; below a capacity of `2 ^ 35` bytes they agree exactly and no
subtraction of the ledger wraps. -/
theorem credit_conserved (hcapacity : capacity < wordModulus)
    (h : (LedgerState.machine capacity producers objects).Reachable s) :
    s.ledger.centralAvailable
        + ∑ i ∈ range producers,
          ((s.ledger.slots i).localCredit + (s.ledger.slots i).returnedCredit)
        + s.liveCharges objects + (s.callRegisters + s.handleRegisters objects) = capacity ∧
      s.liveCharges objects ≤ capacity ∧
      (∀ i < producers,
        (s.ledger.slots i).logicalCharge = s.logicalBytes objects i % wordModulus) ∧
      (∀ a, ∀ p ∈ s.creditSubtractions a, p.2 ≤ p.1) ∧
      (capacity < 2 ^ 35 →
        (∀ i < producers, (s.ledger.slots i).logicalCharge = s.logicalBytes objects i) ∧
        ∀ a s', s.step objects a = some s' → ∀ p ∈ s.logicalSubtractions a, p.2 ≤ p.1) := by
  obtain ⟨hs, rfl, rfl⟩ := LedgerInv.of_reachable hcapacity h
  have hcredit := hs.credit
  have hsplit : ∑ h ∈ range objects, (s.handles h).weight
      = s.liveCharges objects + s.handleRegisters objects := sum_add_distrib
  have hslots : s.ledger.slotCredit = ∑ i ∈ range s.ledger.producerCount,
      ((s.ledger.slots i).localCredit + (s.ledger.slots i).returnedCredit) := rfl
  have hmod : ∀ i, (s.ledger.slots i).logicalCharge = s.logicalBytes objects i % wordModulus := by
    intro i
    rw [← Nat.mod_eq_of_lt (hs.logical_lt i)]
    exact hs.logical i
  refine ⟨by omega, by omega, fun i _ ↦ hmod i, fun a p hp ↦ hs.creditSubtractions_le hp,
    fun hsmall ↦ ⟨fun i _ ↦ ?_, fun a s' hstep p hp ↦ ?_⟩⟩
  · rw [hmod, Nat.mod_eq_of_lt (hs.logicalBytes_lt hsmall i)]
  · exact hs.logicalSubtractions_le (hs.logicalBytes_lt hsmall) hstep hp

/-- The run of one reservation that is committed to a single byte. -/
theorem credit_conserved_committed :
    ∃ s, (LedgerState.machine 256 2 1).Reachable s ∧ s.liveCharges 1 = 64 ∧
      s.ledger.centralAvailable
        + ∑ i ∈ range 2, ((s.ledger.slots i).localCredit + (s.ledger.slots i).returnedCredit)
        + s.liveCharges 1 + (s.callRegisters + s.handleRegisters 1) = 256 := by
  have hrun : (LedgerState.machine 256 2 1).run (fun _ _ ↦ True) (.init 256 2)
      (.reserve 1 128 0 :: List.replicate 7 (.advance 1 false) ++ [.commit 0 1, .finish 0])
      = some _ := rfl
  have hreach := Machine.Reach.of_run .init hrun
  exact ⟨_, hreach, rfl, (credit_conserved (by decide) hreach).1⟩

/-- Three commits that have returned their surplus but not lowered the logical charge: with a
capacity of `2 ^ 63` bytes the third reservation overflows the logical charge, and the first commit
then subtracts more than it holds. -/
theorem logicalCharge_fetch_sub_wraps :
    ∃ s s', (LedgerState.machine (2 ^ 63) 1 3).Reachable s ∧
      s.step 3 (.finish 0) = some s' ∧
      s.logicalSubtractions (.finish 0) = [(2 ^ 63 - 192, 2 ^ 63 - 1)] := by
  have hrun : (LedgerState.machine (2 ^ 63) 1 3).run (fun _ _ ↦ True) (.init (2 ^ 63) 1)
      (.reserve 0 (2 ^ 63) 0 :: List.replicate 7 (.advance 0 false)
        ++ .commit 0 1 :: .reserve 0 (2 ^ 63 - 64) 1 :: List.replicate 4 (.advance 0 false)
        ++ .commit 1 1 :: .reserve 0 (2 ^ 63 - 128) 2 :: List.replicate 4 (.advance 0 false))
      = some _ := rfl
  exact ⟨_, _, Machine.Reach.of_run .init hrun, rfl, rfl⟩

end Runs

end Ulog
