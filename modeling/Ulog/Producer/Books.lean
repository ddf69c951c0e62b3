import Mathlib.Algebra.BigOperators.Ring.Finset
import Mathlib.Algebra.Order.BigOperators.Group.Finset
import Ulog.Producer.Credit

/-!
# What a slot is credited with

The credit attributed to a producer slot is its cache, its mailbox, what the call on the slot has in
hand, and the charges of the Records in the cells of its lane. A step of a call moves credit between
these places and the centre, and only inside its own slot.

A publication reserves a whole Record while its own cell is empty, and before it turns to the centre
it has emptied the mailbox: what it then has is one Record in hand and at most one in each of the
other cells. So a slot never has more than the capacity of its lane in Records of maximal size, and
if the payload capacity is enough for that in all lanes, the centre never runs out.
-/

namespace Ulog

variable {conv : Charconv} {config : ValidConfig} {m m' : KernelMemory}
  {f f' : PublishFrame} {choice : StepChoice} {k k' : Kernel} {t : ℕ} {action : KernelAction}

/-! ## Sums over a lane -/

theorem ValidConfig.laneCapacity_mul (config : ValidConfig) (p bytes : ℕ) :
    config.laneCapacity p * bytes = (config.laneCapacity p - 1) * bytes + bytes := by
  rw [← Nat.succ_mul, Nat.succ_eq_add_one, Nat.sub_add_cancel (config.laneCapacity_pos p)]

namespace KernelMemory

/-- A quantity summed over the ownerships in the cells of a lane. -/
def laneTotal (config : ValidConfig) (m : KernelMemory) (w : Handle → ℕ) (p : ℕ) : ℕ :=
  ∑ i ∈ Finset.range (config.laneCapacity p), w (m.cells (config.cellIndex p i)).ownership

variable {w : Handle → ℕ} {p q position : ℕ}

theorem laneTotal_congr (h : ∀ i, (m'.cells i).ownership = (m.cells i).ownership) :
    m'.laneTotal config w p = m.laneTotal config w p :=
  Finset.sum_congr rfl fun i _ ↦ by rw [h]

/-- One cell of the lane counts for nothing, and the others for at most `bound`. -/
theorem laneTotal_le {bound : ℕ}
    (hzero : w (m.cells (config.cellIndex p position)).ownership = 0)
    (hle : ∀ i, w (m.cells (config.cellIndex p i)).ownership ≤ bound) :
    m.laneTotal config w p ≤ (config.laneCapacity p - 1) * bound := by
  have hmem : position % config.laneCapacity p ∈ Finset.range (config.laneCapacity p) :=
    Finset.mem_range.mpr (Nat.mod_lt position (config.laneCapacity_pos p))
  have hindex : config.cellIndex p (position % config.laneCapacity p) =
      config.cellIndex p position := by
    rw [ValidConfig.cellIndex, ValidConfig.cellIndex, Nat.mod_mod]
  rw [laneTotal, ← Finset.sum_erase_add _ _ hmem, hindex, hzero, Nat.add_zero]
  refine (Finset.sum_le_card_nsmul _ _ bound fun i _ ↦ hle i).trans ?_
  rw [Finset.card_erase_of_mem hmem, Finset.card_range]
  exact le_rfl

section Write

variable (h : ∀ i, i ≠ config.cellIndex p position →
  (m'.cells i).ownership = (m.cells i).ownership)

include h

theorem laneTotal_write (w : Handle → ℕ) :
    ∃ rest, m.laneTotal config w p = rest + w (m.cells (config.cellIndex p position)).ownership ∧
      m'.laneTotal config w p =
        rest + w (m'.cells (config.cellIndex p position)).ownership := by
  have hpos := Nat.mod_lt position (config.laneCapacity_pos p)
  have hindex : config.cellIndex p position =
      config.cellIndex p (position % config.laneCapacity p) := by
    rw [ValidConfig.cellIndex, ValidConfig.cellIndex, Nat.mod_mod]
  rw [hindex] at h ⊢
  refine exists_sum_rest (f := fun i ↦ w (m.cells (config.cellIndex p i)).ownership)
    (g := fun i ↦ w (m'.cells (config.cellIndex p i)).ownership) (Finset.mem_range.mpr hpos)
    fun i hi hne ↦ ?_
  rw [h]
  intro heq
  rw [ValidConfig.cellIndex, ValidConfig.cellIndex, Nat.mod_mod,
    Nat.mod_eq_of_lt (Finset.mem_range.mp hi)] at heq
  exact hne (Nat.add_left_cancel heq)

theorem laneTotal_write_of_ne (hq : q ≠ p) :
    m'.laneTotal config w q = m.laneTotal config w q :=
  Finset.sum_congr rfl fun i _ ↦ by rw [h _ (config.cellIndex_ne_of_lane_ne hq)]

end Write

end KernelMemory

/-! ## Steps of a call on a slot -/

/-- What a step of a call on slot `p` does to the slot's books, where the call has `hand` in hand
before it and `hand'` after it. -/
structure SlotStep (config : ValidConfig) (m m' : KernelMemory)
    (p hand hand' logical logical' : ℕ) :
    Prop where
  move : SlotMove p m.ledger m'.ledger
  lanes : ∀ q, q ≠ p → ∀ w, m'.laneTotal config w q = m.laneTotal config w q
  credit : Balanced (m.ledger.available p + m.laneTotal config Handle.weight p + hand)
    (m'.ledger.available p + m'.laneTotal config Handle.weight p + hand')
  logical : (m'.ledger.slots p).logicalCharge +
      (m.laneTotal config (Handle.logicalBytes p) p + logical)
    ≡ (m.ledger.slots p).logicalCharge +
      (m'.laneTotal config (Handle.logicalBytes p) p + logical') [MOD wordModulus]

namespace SlotStep

variable {p hand hand' logical logical' : ℕ}

theorem same (hledger : m'.ledger = m.ledger)
    (hcells : ∀ i, (m'.cells i).ownership = (m.cells i).ownership) :
    SlotStep config m m' p hand hand logical logical := by
  refine ⟨?_, fun q _ w ↦ KernelMemory.laneTotal_congr hcells, .of_eq ?_, ?_⟩
  · rw [hledger]
    exact CreditLedger.slotMove_refl ..
  · rw [hledger, KernelMemory.laneTotal_congr hcells]
  · rw [hledger, KernelMemory.laneTotal_congr hcells]

theorem of_publishCredit (h : PublishCredit m m' f f') :
    SlotStep config m m' f.slot f.hand f'.hand f.handLogical f'.handLogical := by
  have htotal : ∀ w p, m'.laneTotal config w p = m.laneTotal config w p := fun _ _ ↦
    KernelMemory.laneTotal_congr h.ownerships
  refine ⟨h.move, fun q _ w ↦ htotal w q, ?_, ?_⟩
  · have hadd := h.credit.add_right (m.laneTotal config Handle.weight f.slot)
    rw [htotal]
    convert hadd using 1 <;> omega
  · have hadd := h.logical.add_right (m.laneTotal config (Handle.logicalBytes f.slot) f.slot)
    rw [htotal]
    convert hadd using 1 <;> omega

theorem onCell {position : ℕ} {h : Handle}
    (hcell : (m.cells (config.cellIndex p position)).ownership = h)
    (hstep : HandleStep m.ledger h m'.ledger
      (m'.cells (config.cellIndex p position)).ownership) (hproducer : h.producer = p)
    (hothers : ∀ i, i ≠ config.cellIndex p position →
      (m'.cells i).ownership = (m.cells i).ownership) :
    SlotStep config m m' p 0 0 0 0 := by
  obtain ⟨weight, hweight, hweight'⟩ := KernelMemory.laneTotal_write hothers Handle.weight
  obtain ⟨bytes, hbytes, hbytes'⟩ :=
    KernelMemory.laneTotal_write hothers (Handle.logicalBytes p)
  obtain ⟨hmove, hcentral, -, hcredit, hlogical, -, -, -, -⟩ := hstep
  rw [hproducer] at hmove hcredit hlogical
  rw [hcell] at hweight hbytes
  refine ⟨hmove, fun q hq w ↦ KernelMemory.laneTotal_write_of_ne hothers hq, ?_, ?_⟩
  · have hadd := hcredit.add_right (m.ledger.centralAvailable + weight)
    rw [hweight, hweight', CreditLedger.available, CreditLedger.available, hcentral]
    convert hadd using 1 <;> omega
  · have hadd := hlogical.add_right bytes
    rw [hbytes, hbytes']
    convert hadd using 1 <;> omega

/-- The ownership goes from the call to its cell. -/
theorem emplace (htidy : f.Tidy config m) (hpc : f.pc = .emplace)
    (hstep : publishStep conv config m f choice = some (m', f')) :
    SlotStep config m m' f.slot f.hand f'.hand f.handLogical f'.handLogical ∧
      m'.ledger = m.ledger := by
  rw [PublishFrame.Tidy, hpc] at htidy
  obtain ⟨hempty, hres, -⟩ := htidy
  have hregister : f.pc.register = 0 := by
    rw [hpc]
    rfl
  rw [publishStep, hpc] at hstep
  dsimp only at hstep
  rw [if_pos hempty] at hstep
  cases hstep
  have hothers : ∀ i, i ≠ config.cellIndex f.slot f.position →
      ((m.setOwnership (f.cell config) f.ownership).cells i).ownership =
        (m.cells i).ownership := by
    intro i hi
    exact congrArg KernelCell.ownership (Function.update_of_ne hi ..)
  have hself : ((m.setOwnership (f.cell config) f.ownership).cells
      (config.cellIndex f.slot f.position)).ownership = f.ownership := by
    simp only [KernelMemory.setOwnership, KernelMemory.setCell, PublishFrame.cell,
      Function.update_self]
  obtain ⟨weight, hweight, hweight'⟩ := KernelMemory.laneTotal_write hothers Handle.weight
  obtain ⟨bytes, hbytes, hbytes'⟩ :=
    KernelMemory.laneTotal_write hothers (Handle.logicalBytes f.slot)
  rw [hself] at hweight' hbytes'
  rw [PublishFrame.cell] at hempty
  rw [hempty] at hweight hbytes
  refine ⟨⟨CreditLedger.slotMove_refl .., fun q hq w ↦
    KernelMemory.laneTotal_write_of_ne hothers hq, .of_eq ?_, ?_⟩, rfl⟩
  · rw [hweight, hweight', PublishFrame.hand, PublishFrame.hand, hregister]
    change m.ledger.available f.slot + _ + (0 + (f.reservation.weight + Handle.empty.weight)) = _
    rw [hres, show Handle.empty.weight = 0 from rfl]
    omega
  · rw [hbytes, hbytes', PublishFrame.handLogical, PublishFrame.handLogical]
    change (m.ledger.slots f.slot).logicalCharge + _ ≡ (m.ledger.slots f.slot).logicalCharge +
      (_ + (f.reservation.logicalBytes f.slot + Handle.empty.logicalBytes f.slot)) [MOD wordModulus]
    rw [hres, show Handle.empty.logicalBytes f.slot = 0 from rfl]
    convert Nat.ModEq.refl _ using 1
    omega

end SlotStep

/-! ## Steps of the consumer -/

/-- An ownership of one Record is charged at most a whole Record. -/
theorem Handle.OwnsRecord.spec {h : Handle} {p : ℕ} (howns : h.OwnsRecord config p)
    (hp : p < config.producerSlots) :
    h.Ok config.producerSlots config.payloadCapacityBytes ∧ h.producer = p ∧
      h.weight ≤ config.maximumRecordBytes := by
  obtain ⟨hmin, hmax, hquantum, hcapacity⟩ := config.maximumRecordBytes_bounds
  obtain ⟨retained, hle, rfl⟩ := howns
  obtain ⟨hne, -, hcharge⟩ := accountingCharge_le hquantum (by omega) hmax hle
  exact ⟨⟨hp, rfl, hne, hcharge.trans hcapacity⟩, rfl, hcharge⟩

section Consume

variable {g : ConsumeFrame} {pc' : ConsumePc} {claim : ConsumptionClaim}

theorem consumeStep_handle (hok : g.Ok config m) (htidy : g.Tidy config m)
    (hfits : m.ledger.Fits config)
    (hpc : g.pc = .releaseOwnership claim ∨ g.pc = .finishOwnership claim)
    (hstep : consumeStep config m g choice = some (m', pc')) :
    HandleStep m.ledger (m.cells claim.cell).ownership m'.ledger
        (m'.cells claim.cell).ownership ∧
      (m.cells claim.cell).ownership.producer = claim.lane ∧
      ∀ i, i ≠ claim.cell → (m'.cells i).ownership = (m.cells i).ownership := by
  have hlane : claim.lane < config.producerSlots := by
    unfold ConsumeFrame.Ok at hok
    rcases hpc with hpc | hpc <;> rw [hpc] at hok <;> exact hok.1.lane
  have hself :
    ∀ l h, (((m.setLedger l).setOwnership claim.cell h).cells claim.cell).ownership = h := by
    intro l h
    simp only [KernelMemory.setOwnership, KernelMemory.setCell, Function.update_self]
  have hothers : ∀ l h i, i ≠ claim.cell →
      (((m.setLedger l).setOwnership claim.cell h).cells i).ownership = (m.cells i).ownership := by
    intro l h i hi
    simp only [KernelMemory.setOwnership, KernelMemory.setCell, KernelMemory.setLedger,
      Function.update_of_ne hi]
  have hcount := hfits.producerCount
  have hcapacity := hfits.capacityBytes
  unfold ConsumeFrame.Tidy at htidy
  rcases hpc with hpc | hpc <;> rw [consumeStep, hpc] at hstep <;> rw [hpc] at htidy <;>
    cases hstep <;> rw [hself]
  · obtain ⟨hhandle, hproducer, -⟩ := Handle.OwnsRecord.spec htidy hlane
    refine ⟨CreditLedger.handleStep_startRelease hfits.capacity_lt ?_, hproducer, hothers _ _⟩
    rw [hcount, hcapacity]
    exact hhandle
  · obtain ⟨charge, hle, howner⟩ := htidy
    obtain ⟨-, -, -, hpayload⟩ := config.maximumRecordBytes_bounds
    refine ⟨CreditLedger.handleStep_finishHandle hfits.capacity_lt ?_, ?_, hothers _ _⟩ <;>
      rw [howner]
    · rw [hcount, hcapacity]
      exact ⟨hlane, hle.trans hpayload⟩
    · rfl

theorem consumeStep_ledger (hrelease : ∀ claim, g.pc ≠ .releaseOwnership claim)
    (hfinish : ∀ claim, g.pc ≠ .finishOwnership claim) (hretire : ∀ lane pc, g.pc ≠ .retire lane pc)
    (hstep : consumeStep config m g choice = some (m', pc')) :
    m'.ledger = m.ledger ∧ ∀ i, (m'.cells i).ownership = (m.cells i).ownership := by
  cases hpc : g.pc with
  | releaseOwnership claim => exact absurd hpc (hrelease claim)
  | finishOwnership claim => exact absurd hpc (hfinish claim)
  | retire lane pc => exact absurd hpc (hretire lane pc)
  | clearCell claim =>
    rw [consumeStep, hpc] at hstep
    cases hstep
    refine ⟨rfl, fun i ↦ ?_⟩
    by_cases hi : i = claim.cell
    · simp only [hi, KernelMemory.setSlot, KernelMemory.setRecord, KernelMemory.setCell,
        Function.update_self]
    · simp only [KernelMemory.setSlot, KernelMemory.setRecord, KernelMemory.setCell,
        Function.update_of_ne hi]
  | _ =>
    rw [consumeStep, hpc] at hstep
    dsimp only at hstep
    repeat' split at hstep
    all_goals cases hstep
    all_goals exact ⟨rfl, fun _ ↦ rfl⟩

/-- The consumer comes to a retirement at its beginning. -/
theorem consumeStep_startRetirement (hretire : ∀ lane pc, g.pc ≠ .retire lane pc)
    (hstep : consumeStep config m g choice = some (m', pc')) {lane : ℕ} {pc : RetirePc}
    (hpc' : pc' = .retire lane pc) : pc = .drained .testPublishing := by
  rw [consumeStep.eq_def] at hstep
  grind [startRetirement]

end Consume

/-! ## Steps of a retirement -/

theorem retireStep_ledger {p : ℕ} {pc : RetirePc} (hpc : ∀ pc', pc ≠ .reconcile pc') :
    (retireStep m p choice pc).1.ledger = m.ledger := by
  cases pc with
  | drained pc => rw [retireStep_drained]
  | exchange =>
    rw [retireStep]
    split <;> rfl
  | reconcile pc => exact absurd rfl (hpc pc)
  | restore | bumpGeneration | storeFree => rfl

/-- The credit in the register of a retirement. -/
def RetirePc.register : RetirePc → ℕ
  | .reconcile pc => pc.register
  | _ => 0

/-- The register of the next step, if there is one. -/
def RetirePc.nextRegister (next : Option RetirePc) : ℕ := next.elim 0 RetirePc.register

theorem retireStep_register (m : KernelMemory) (p : ℕ) (choice : StepChoice) {pc : RetirePc}
    (hpc : ∀ pc', pc ≠ .reconcile pc') :
    pc.register = 0 ∧ RetirePc.nextRegister (retireStep m p choice pc).2 = 0 := by
  cases pc with
  | drained pc =>
    rw [retireStep]
    split <;> exact ⟨rfl, rfl⟩
  | exchange =>
    rw [retireStep]
    split <;> exact ⟨rfl, rfl⟩
  | reconcile pc => exact absurd rfl (hpc pc)
  | restore | bumpGeneration | storeFree => exact ⟨rfl, rfl⟩

theorem retireStep_startReconcile {p : ℕ} {pc : RetirePc} {pc' : ReconcilePc}
    (hpc : ∀ pc', pc ≠ .reconcile pc')
    (hnext : (retireStep m p choice pc).2 = some (.reconcile pc')) : pc' = .loadLogical := by
  cases pc with
  | drained pc =>
    rw [retireStep] at hnext
    split at hnext <;> cases hnext
  | exchange =>
    rw [retireStep] at hnext
    split at hnext <;> cases hnext
    rfl
  | reconcile pc => exact absurd rfl (hpc pc)
  | restore | bumpGeneration | storeFree => cases hnext

theorem retireStep_reconcile (m : KernelMemory) (p : ℕ) (choice : StepChoice) (pc : ReconcilePc) :
    (retireStep m p choice (.reconcile pc)).1.ledger = (m.ledger.reconcileStep p pc).1 ∧
      RetirePc.nextRegister (retireStep m p choice (.reconcile pc)).2 =
        (m.ledger.reconcileStep p pc).2.elim ReconcilePc.register (fun _ ↦ 0) := by
  rw [retireStep]
  split <;> next heq => (rw [heq]; exact ⟨rfl, rfl⟩)

/-- Reconciliation gives credit back to the centre and takes none. -/
theorem CreditLedger.reconcileStep_credit_le (l : CreditLedger) (p : ℕ) (pc : ReconcilePc) :
    ((l.reconcileStep p pc).1.slots p).credit +
        (l.reconcileStep p pc).2.elim ReconcilePc.register (fun _ ↦ 0) ≤
      (l.slots p).credit + pc.register := by
  cases pc with
  | loadLogical =>
    rw [reconcileStep]
    split <;> exact le_rfl
  | drain =>
    simp only [reconcileStep, drainMailbox, slots_setSlot_self, CreditSlot.credit,
      CreditSlot.setReturned, Sum.elim_inl, ReconcilePc.register]
    omega
  | gather returned =>
    have hmod := Nat.mod_le ((l.slots p).localCredit + returned) wordModulus
    simp only [reconcileStep, addLocal, slots_setSlot_self, CreditSlot.credit, CreditSlot.setLocal,
      Sum.elim_inl, ReconcilePc.register, wrapAdd]
    omega
  | giveBack =>
    simp only [reconcileStep]
    split
    · exact le_rfl
    · simp only [slots_setSlot_self, CreditSlot.credit, CreditSlot.setLocal, Sum.elim_inr,
        ReconcilePc.register]
      omega

theorem retireStep_credit_le (p : ℕ) (choice : StepChoice) (pc : RetirePc) :
    ((retireStep m p choice pc).1.ledger.slots p).credit +
        RetirePc.nextRegister (retireStep m p choice pc).2 ≤
      (m.ledger.slots p).credit + pc.register := by
  by_cases hreconcile : ∃ pc', pc = .reconcile pc'
  · obtain ⟨pc, rfl⟩ := hreconcile
    obtain ⟨hledger, hregister⟩ := retireStep_reconcile m p choice pc
    rw [hledger, hregister]
    exact m.ledger.reconcileStep_credit_le p pc
  · have hpc : ∀ pc', pc ≠ .reconcile pc' := fun pc' heq ↦ hreconcile ⟨pc', heq⟩
    obtain ⟨hregister, hnext⟩ := retireStep_register m p choice hpc
    rw [retireStep_ledger hpc, hregister, hnext]

theorem retireStep_slotMove (m : KernelMemory) (p : ℕ) (choice : StepChoice) (pc : RetirePc) :
    SlotMove p m.ledger (retireStep m p choice pc).1.ledger := by
  by_cases hreconcile : ∃ pc', pc = .reconcile pc'
  · obtain ⟨pc, rfl⟩ := hreconcile
    rw [(retireStep_reconcile m p choice pc).1]
    exact (m.ledger.reconcileStep_spec p pc).toSlotMove
  · rw [retireStep_ledger fun pc' heq ↦ hreconcile ⟨pc', heq⟩]
    exact CreditLedger.slotMove_refl ..

theorem SlotStep.retireStep (p : ℕ) (choice : StepChoice) (pc : RetirePc) :
    SlotStep config m (retireStep m p choice pc).1 p pc.register
      (RetirePc.nextRegister (retireStep m p choice pc).2) 0 0 := by
  have hcells : ∀ i, ((Ulog.retireStep m p choice pc).1.cells i).ownership =
      (m.cells i).ownership := fun i ↦ by rw [(ControlEffect.retire p choice pc).sameIngress.cells]
  have htotal : ∀ w q, (Ulog.retireStep m p choice pc).1.laneTotal config w q =
      m.laneTotal config w q := fun _ _ ↦ KernelMemory.laneTotal_congr hcells
  by_cases hreconcile : ∃ pc', pc = .reconcile pc'
  · obtain ⟨pc, rfl⟩ := hreconcile
    obtain ⟨-, hcredit, hlogical⟩ := m.ledger.reconcileStep_spec p pc
    obtain ⟨hledger, hregister⟩ := retireStep_reconcile m p choice pc
    refine ⟨retireStep_slotMove .., fun q _ w ↦ htotal w q, ?_, ?_⟩
    · have hadd := hcredit.add_right (m.laneTotal config Handle.weight p)
      rw [hledger, hregister, htotal, RetirePc.register]
      convert hadd using 1 <;> omega
    · rw [hledger, hlogical, htotal]
  · have hpc : ∀ pc', pc ≠ .reconcile pc' := fun pc' heq ↦ hreconcile ⟨pc', heq⟩
    obtain ⟨hregister, hnext⟩ := retireStep_register m p choice hpc
    rw [hregister, hnext]
    exact .same (retireStep_ledger hpc) hcells

/-- A step of a call that is neither a publication nor a consumption, by what it does to the slots
and to the call's retirement. -/
inductive CallStep (config : ValidConfig) (m : KernelMemory) (choice : StepChoice) :
    KernelCall → KernelMemory → KernelCall → Prop
  /-- a step of `TryFinishRetirement`; when it returns, the call may go on to the next slot -/
  | retirement {call call' : KernelCall} {p : ℕ} {pc : RetirePc}
      (hcall : call.retirement = some (p, pc))
      (hgoes : ∀ pc', (retireStep m p choice pc).2 = some pc' →
        call'.retirement = some (p, pc'))
      (hends : (retireStep m p choice pc).2 = none → ∀ x, call'.retirement = some x →
        x.2 = .drained .testPublishing) :
      CallStep config m choice call (retireStep m p choice pc).1 call'
  | quiet {call call' : KernelCall} (hcall : call.retirement = none)
      (hcall' : ∀ x, call'.retirement = some x → x.2 = .drained .testPublishing) :
      CallStep config m choice call m call'
  /-- the slot becomes retiring, and its retirement is tried at once -/
  | retire {call call' : KernelCall} {p : ℕ} (hcall : call.retirement = none)
      (hstate : (m.controls p).state = .active ∨ call.undone = some p)
      (hcall' : call'.retirement = some (p, .drained .testPublishing)) :
      CallStep config m choice call (m.setState p .retiring) call'
  | register {call call' : KernelCall} {p : ℕ} (hp : p < config.producerSlots)
      (hcall : call.retirement = none) (hstate : (m.controls p).state = .free)
      (hcall' : call'.retirement = none) :
      CallStep config m choice call (m.setState p .active) call'

namespace CallStep

section Retirement

variable {call call' : KernelCall} {p : ℕ} {pc : RetirePc}
  (hcall : call.retirement = some (p, pc))

include hcall

theorem goes {pc' : RetirePc} (heq : retireStep m p choice pc = (m', some pc'))
    (hcall' : call'.retirement = some (p, pc')) : CallStep config m choice call m' call' := by
  obtain rfl : (retireStep m p choice pc).1 = m' := by rw [heq]
  refine .retirement hcall (fun next hnext ↦ ?_) fun hnone ↦ ?_
  · rw [heq] at hnext
    cases hnext
    exact hcall'
  · rw [heq] at hnone
    cases hnone

theorem ends (heq : retireStep m p choice pc = (m', none))
    (hcall' : ∀ x, call'.retirement = some x → x.2 = .drained .testPublishing) :
    CallStep config m choice call m' call' := by
  obtain rfl : (retireStep m p choice pc).1 = m' := by rw [heq]
  refine .retirement hcall (fun next hnext ↦ ?_) fun _ ↦ hcall'
  rw [heq] at hnext
  cases hnext

end Retirement

theorem of_retire {g : RetireFrame} {pc' : RetireProducerPc}
    (hstep : retireProducerStep config m g choice = some (m', pc')) :
    CallStep config m choice (.retire g) m' (.retire { g with pc := pc' }) := by
  obtain ⟨slot, generation, pc⟩ := g
  rw [retireProducerStep.eq_def] at hstep
  cases pc with
  | loadGeneration =>
    dsimp only at hstep
    split at hstep <;> cases hstep <;> exact .quiet rfl nofun
  | exchange =>
    dsimp only at hstep
    split at hstep <;> cases hstep
    · next hstate => exact .retire rfl (.inl hstate) rfl
    · exact .quiet rfl nofun
  | finish pc =>
    dsimp only at hstep
    split at hstep <;> cases hstep
    · next heq => exact .goes rfl heq rfl
    · next heq => exact .ends rfl heq nofun
  | done => cases hstep

theorem of_quiescent {g g' : QuiescentFrame}
    (hstep : quiescentStep config m g choice = some (m', g')) :
    CallStep config m choice (.quiescent g) m' (.quiescent g') := by
  -- the next slot starts with a fresh retirement
  have hfresh : ∀ {g : QuiescentFrame} {b : Bool} x,
      (KernelCall.quiescent (g.next config b)).retirement = some x →
      x.2 = .drained .testPublishing := by
    intro g b x hx
    rw [QuiescentFrame.next, startRetirement] at hx
    split_ifs at hx
    · cases hx
      rfl
    · cases hx
  obtain ⟨slot, quiescent, pc, closed⟩ := g
  rw [quiescentStep.eq_def] at hstep
  cases pc with
  | finish pc =>
    dsimp only at hstep
    split at hstep
    · next heq =>
      cases hstep
      exact .goes rfl heq rfl
    · next heq =>
      split at hstep <;> cases hstep
      · exact .ends rfl heq (by intros; contradiction)
      · exact .ends rfl heq hfresh
  | drained pc =>
    dsimp only at hstep
    split at hstep <;> cases hstep
    · exact .quiet rfl (by intros; contradiction)
    · exact .quiet rfl (by intros; contradiction)
    · exact .quiet rfl hfresh
  | loadState =>
    cases hstep
    exact .quiet rfl hfresh
  | done => cases hstep

theorem of_register {pc pc' : RegisterPc}
    (hstep : registerStep config m choice pc = some (m', pc')) :
    CallStep config m choice (.register pc) m' (.register pc') := by
  rw [registerStep.eq_def] at hstep
  cases pc with
  | admission =>
    cases hstep
    refine .quiet rfl fun x hx ↦ ?_
    split at hx <;> cases hx
  | exchange slot =>
    dsimp only at hstep
    split_ifs at hstep <;> cases hstep
    · next hp hstate => exact .register hp rfl hstate rfl
    · exact .quiet rfl (by intros; contradiction)
    · exact .quiet rfl (by decide)
  | recheck slot =>
    cases hstep
    refine .quiet rfl fun x hx ↦ ?_
    split at hx <;> cases hx
  | storeRetiring slot =>
    cases hstep
    exact .retire rfl (.inr rfl) rfl
  | finish slot pc =>
    dsimp only at hstep
    split at hstep <;> cases hstep
    · next heq => exact .goes rfl heq rfl
    · next heq => exact .ends rfl heq (by decide)
  | loadGeneration slot =>
    cases hstep
    exact .quiet rfl (by intros; contradiction)
  | done => cases hstep

theorem of_consume {g : ConsumeFrame} {pc' : ConsumePc} {lane : ℕ} {pc : RetirePc}
    (hpc : g.pc = .retire lane pc) (hstep : consumeStep config m g choice = some (m', pc')) :
    CallStep config m choice (.consume g) m' (.consume ⟨g.hasConsumer, pc'⟩) := by
  obtain ⟨hasConsumer, _⟩ := g
  cases hpc
  rw [consumeStep.eq_def] at hstep
  dsimp only at hstep
  split at hstep <;> cases hstep
  · next heq => exact .goes rfl heq rfl
  · next heq => exact .ends rfl heq nofun

end CallStep

theorem CreditLedger.reserveStep_places (l : CreditLedger) (c : ReserveCall) (spurious : Bool) :
    (∀ c', (l.reserveStep c spurious).2 = .running c' → c'.pc ≠ .drain ∧
      ((c.pc ≠ .drain → (l.slots c.producer).returnedCredit = 0) →
        ((l.reserveStep c spurious).1.slots c.producer).returnedCredit = 0)) ∧
    ((l.reserveStep c spurious).1.centralAvailable = l.centralAvailable ∨
      ∃ deficit available, c.pc = .compareExchange deficit available ∧
        (l.reserveStep c spurious).2 = .running { c with pc := .refill deficit } ∧
        (l.reserveStep c spurious).1.slots = l.slots) := by
  obtain ⟨producer, worst, charge, pc⟩ := c
  cases pc <;> simp only [reserveStep] <;> repeat' split
  all_goals
    grind [drainMailbox, addLocal, subLocal, addLogical, setSlot, slots_setSlot_self,
      CreditSlot.setReturned, CreditSlot.setLocal]

theorem publishStep_reserve {call : ReserveCall} (hpc : f.pc = .reserve call)
    (hstep : publishStep conv config m f choice = some (m', f')) :
    m'.ledger = (m.ledger.reserveStep call choice.spurious).1 ∧ m'.cells = m.cells ∧
      (∀ c, (m.ledger.reserveStep call choice.spurious).2 = .running c →
        f' = f.goto (.reserve c)) ∧
      ∀ c, f'.pc = .reserve c → (m.ledger.reserveStep call choice.spurious).2 = .running c := by
  rw [publishStep, hpc] at hstep
  dsimp only at hstep
  split at hstep <;> next heq =>
    rw [heq]
    cases hstep
    refine ⟨rfl, rfl, ?_, ?_⟩ <;> rintro c ⟨⟩ <;> rfl

theorem publishStep_startReserve {call : ReserveCall} (hpc : ∀ c, f.pc ≠ .reserve c)
    (hstep : publishStep conv config m f choice = some (m', f')) (hpc' : f'.pc = .reserve call) :
    call.pc = .drain := by
  cases hcase : f.pc with
  | reserve c => exact absurd hcase (hpc c)
  | recheckGeneration =>
    rw [publishStep, hcase] at hstep
    dsimp only at hstep
    repeat' split at hstep
    all_goals cases hstep
    all_goals try cases hpc'
    next hcall =>
    rw [CreditLedger.startReserve] at hcall
    split at hcall <;> cases hcall
    rfl
  | unwind stages outcome =>
    rw [publishStep.eq_def, hcase] at hstep
    cases stages <;> cases hstep <;> cases hpc'
  | done result =>
    rw [publishStep, hcase] at hstep
    cases hstep
  | _ =>
    rw [publishStep, hcase] at hstep
    dsimp only at hstep
    repeat' split at hstep
    all_goals cases hstep
    all_goals cases hpc'

/-! ## Calls one after the other -/

/-- The action starts a call. -/
def KernelAction.Starts : KernelAction → Prop
  | .advance .. | .return _ => False
  | _ => True

instance (action : KernelAction) : Decidable action.Starts :=
  match action with
  | .advance .. | .return _ => inferInstanceAs (Decidable False)
  | .publish .. | .consume _ | .retire .. | .quiescent _ | .register _ | .closeAdmission =>
    inferInstanceAs (Decidable True)

/-- The credit of a slot that a call has in hand. -/
def KernelCall.handOn (p : ℕ) : KernelCall → ℕ
  | .publish f => if p = f.slot then f.hand else 0
  | call =>
    match call.retirement with
    | some (q, pc) => if p = q then pc.register else 0
    | none => 0

theorem KernelCall.handOn_of_retirement {call : KernelCall} {q : ℕ} {pc : RetirePc}
    (h : call.retirement = some (q, pc)) (p : ℕ) :
    call.handOn p = if p = q then pc.register else 0 := by
  rw [handOn.eq_def]
  split
  · cases h
  · rw [h]

theorem KernelCall.handOn_of_fresh {call : KernelCall} (hpublish : ∀ f, call ≠ .publish f)
    (h : ∀ x, call.retirement = some x → x.2 = .drained .testPublishing) (p : ℕ) :
    call.handOn p = 0 := by
  rw [handOn.eq_def]
  split
  · exact absurd rfl (hpublish _)
  · split
    · next q pc heq =>
      obtain rfl : pc = .drained .testPublishing := h _ heq
      exact ite_self 0
    · rfl

theorem KernelCall.Finished.retirement {call : KernelCall} (h : call.Finished) :
    call.retirement = none := by
  cases call with
  | idle => exact h.elim
  | publish f => rfl
  | consume f =>
    obtain ⟨hasConsumer, pc⟩ := f
    obtain ⟨status, rfl⟩ := h
    rfl
  | retire f =>
    obtain ⟨slot, generation, pc⟩ := f
    obtain rfl : pc = .done := h
    rfl
  | quiescent f =>
    obtain ⟨slot, quiescent, pc, closed⟩ := f
    obtain rfl : pc = .done := h
    rfl
  | register pc =>
    obtain ⟨registration, rfl⟩ := h
    rfl

namespace Kernel

/-- Calls are made one after the other. -/
def Sequential (k : Kernel) (action : KernelAction) : Prop :=
  action.Starts → ∀ t, k.calls t = .idle

theorem Entry.retirement {call : KernelCall} (h : Entry m action t call) :
    ∀ x, call.retirement = some x → x.2 = .drained .testPublishing := by
  intro x hx
  cases h with
  | publish | retire | register => cases hx
  | consume => split at hx <;> cases hx
  | quiescent =>
    cases hx
    rfl

theorem Entry.handOn {call : KernelCall} (h : Entry m action t call) (p : ℕ) :
    call.handOn p = 0 := by
  have hfresh := h.retirement
  cases h with
  | publish => exact ite_self 0
  | consume | retire | quiescent | register =>
    refine KernelCall.handOn_of_fresh (fun f hf ↦ ?_) hfresh p
    cases hf

/-- The credit attributed to a slot: its cache and its mailbox, the Records in its lane, and what
the call of thread `t` has in hand. -/
def attributed (config : ValidConfig) (k : Kernel) (t p : ℕ) : ℕ :=
  (k.memory.ledger.slots p).credit + k.memory.laneTotal config Handle.weight p +
    (k.calls t).handOn p

/-- The books of a kernel in which only thread `t` has a call in progress. -/
structure Books (config : ValidConfig) (k : Kernel) (t : ℕ) : Prop where
  others : ∀ t', t' ≠ t → k.calls t' = .idle
  conserved : k.memory.ledger.centralAvailable +
    ∑ p ∈ Finset.range config.producerSlots, k.attributed config t p =
      config.payloadCapacityBytes
  bounded : ∀ p < config.producerSlots,
    k.attributed config t p ≤ config.laneCapacity p * config.maximumRecordBytes
  reserving : ∀ f call, k.calls t = .publish f → f.pc = .reserve call →
    call.pc.Ok (k.memory.ledger.slots f.slot).localCredit call.chargeBytes ∧
      (call.pc ≠ .drain → (k.memory.ledger.slots f.slot).returnedCredit = 0)
  reconciling : ∀ p pc, (k.calls t).retirement = some (p, .reconcile pc) → pc ≠ .loadLogical →
    p < config.producerSlots

section Steps

variable {call : KernelCall} (h : k.Books config t)
  (hcalls : k'.calls = Function.update k.calls t call)

include h hcalls

theorem Books.neutral (hledger : k'.memory.ledger = k.memory.ledger)
    (hcells : ∀ i, (k'.memory.cells i).ownership = (k.memory.cells i).ownership)
    (hhand : ∀ p, call.handOn p = (k.calls t).handOn p)
    (hreserving : ∀ f c, call = .publish f → f.pc ≠ .reserve c)
    (hreconciling : ∀ p pc, call.retirement = some (p, .reconcile pc) → pc = .loadLogical) :
    k'.Books config t := by
  have hcall : k'.calls t = call := by rw [hcalls, Function.update_self]
  have hattributed : ∀ p, k'.attributed config t p = k.attributed config t p := by
    intro p
    rw [attributed, attributed, hcall, hhand, hledger, KernelMemory.laneTotal_congr hcells]
  refine ⟨fun t' ht' ↦ ?_, ?_, fun p hp ↦ ?_, fun f c hf hpc ↦ ?_, fun p pc hpc hne ↦ ?_⟩
  · rw [hcalls, Function.update_of_ne ht', h.others t' ht']
  · rw [Finset.sum_congr rfl fun p _ ↦ hattributed p, hledger]
    exact h.conserved
  · rw [hattributed]
    exact h.bounded p hp
  · exact absurd hpc (hreserving f c (hcall.symm.trans hf))
  · rw [hcall] at hpc
    exact absurd (hreconciling p pc hpc) hne

theorem Books.move {p hand hand' bytes bytes' : ℕ} (hp : p < config.producerSlots)
    (hstep : SlotStep config k.memory k'.memory p hand hand' bytes bytes')
    (hhand : ∀ q, (k.calls t).handOn q = if q = p then hand else 0)
    (hhand' : ∀ q, call.handOn q = if q = p then hand' else 0)
    (hbound : k'.memory.ledger.centralAvailable = k.memory.ledger.centralAvailable ∨
      (k'.memory.ledger.slots p).credit + k'.memory.laneTotal config Handle.weight p + hand' ≤
        config.laneCapacity p * config.maximumRecordBytes)
    (hreserving : ∀ f c, call = .publish f → f.pc = .reserve c →
      c.pc.Ok (k'.memory.ledger.slots f.slot).localCredit c.chargeBytes ∧
        (c.pc ≠ .drain → (k'.memory.ledger.slots f.slot).returnedCredit = 0))
    (hreconciling : ∀ q pc, call.retirement = some (q, .reconcile pc) → q = p) :
    k'.Books config t := by
  have hcall : k'.calls t = call := by rw [hcalls, Function.update_self]
  have hsame : ∀ q, q ≠ p → k'.attributed config t q = k.attributed config t q := by
    intro q hq
    rw [attributed, attributed, hcall, hhand, hhand', if_neg hq, if_neg hq,
      hstep.move.slots q hq, hstep.lanes q hq]
  have hold : k.attributed config t p = (k.memory.ledger.slots p).credit +
      k.memory.laneTotal config Handle.weight p + hand := by
    rw [attributed, hhand, if_pos rfl]
  have hnew : k'.attributed config t p = (k'.memory.ledger.slots p).credit +
      k'.memory.laneTotal config Handle.weight p + hand' := by
    rw [attributed, hcall, hhand', if_pos rfl]
  obtain ⟨rest, hsum, hsum'⟩ := exists_sum_rest (f := k.attributed config t)
    (g := k'.attributed config t) (Finset.mem_range.mpr hp) fun q _ hq ↦ hsame q hq
  have hconserved := h.conserved
  -- no sum wraps around: everything together is the capacity
  have hmoved : k'.memory.ledger.centralAvailable + k'.attributed config t p =
      k.memory.ledger.centralAvailable + k.attributed config t p := by
    have heq := hstep.credit.eq
    have hcapacity := config.payloadCapacityBytes_lt
    rw [CreditLedger.available, CreditLedger.available] at heq
    rw [hold, hnew]
    rw [hsum, hold] at hconserved
    have := heq (by omega)
    omega
  refine ⟨fun t' ht' ↦ ?_, ?_, fun q hq ↦ ?_, fun f c hf hpc ↦ ?_, fun q pc hpc _ ↦ ?_⟩
  · rw [hcalls, Function.update_of_ne ht', h.others t' ht']
  · rw [hsum']
    rw [hsum] at hconserved
    omega
  · by_cases hqp : q = p
    · subst hqp
      have hle := h.bounded q hp
      rcases hbound with heq | hle' <;> omega
    · rw [hsame q hqp]
      exact h.bounded q hq
  · exact hreserving f c (hcall.symm.trans hf) hpc
  · rw [hcall] at hpc
    rw [hreconciling q pc hpc]
    exact hp

end Steps

section

variable (h : k.Books config t) (hinv : k.Inv conv config) (htidy : k.Tidy config)

include h hinv htidy

/-- While a publication reserves and nobody else has a call in progress, its lane holds at most a
Record in each of the other cells. -/
theorem Books.laneTotal_le (hf : k.calls t = .publish f) {call : ReserveCall}
    (hpc : f.pc = .reserve call) :
    k.memory.laneTotal config Handle.weight f.slot ≤
      (config.laneCapacity f.slot - 1) * config.maximumRecordBytes := by
  have hok := hinv.frames t f hf
  have hframe := htidy.frames t f hf
  rw [PublishFrame.Ok, hpc] at hok
  rw [PublishFrame.Tidy, hpc] at hframe
  have hempty : (k.memory.cells (config.cellIndex f.slot f.position)).ownership.weight = 0 := by
    rw [← PublishFrame.cell, hframe.1.ownership]
    rfl
  refine KernelMemory.laneTotal_le hempty fun i ↦ ?_
  obtain ⟨position, hread, hlt, hcell⟩ :=
    config.exists_position f.slot (k.memory.lanes f.slot).readPosition i
  rw [← hcell]
  by_cases hpublished : position < (k.memory.lanes f.slot).publishedPosition
  · rcases htidy.window f.slot position hread hpublished with ⟨g, claim, hg, -⟩ | howns
    · -- the consumer is idle
      by_cases ht : consumerThread = t
      · rw [ht] at hg
        cases hf.symm.trans hg
      · cases (h.others _ ht).symm.trans hg
    · exact (howns.spec hok.slot).2.2
  · rcases htidy.free f.slot position (by omega) hlt with ⟨t', g, hg, -, hslot, hposition⟩ | hfree
    · by_cases ht : t' = t
      · subst ht
        cases hf.symm.trans hg
        rw [← hposition, hempty]
        exact Nat.zero_le _
      · cases (h.others _ ht).symm.trans hg
    · rw [hfree.ownership]
      exact Nat.zero_le _

/-- The refill brings the slot to one Record in hand and one in each of the other cells. -/
theorem Books.refilled (hf : k.calls t = .publish f) {call : ReserveCall}
    (hpc : f.pc = .reserve call) {deficit available : ℕ}
    (hcall : call.pc = .compareExchange deficit available)
    (hslots : m'.ledger.slots = k.memory.ledger.slots) (hcells : m'.cells = k.memory.cells)
    (hf' : f' = f.goto (.reserve { call with pc := .refill deficit })) :
    (m'.ledger.slots f.slot).credit + m'.laneTotal config Handle.weight f.slot + f'.hand ≤
      config.laneCapacity f.slot * config.maximumRecordBytes := by
  have hlane := h.laneTotal_le hinv htidy hf hpc
  have hframe := htidy.frames t f hf
  obtain ⟨hlocal, hreturned⟩ := h.reserving f call hf hpc
  rw [PublishFrame.Tidy, hpc] at hframe
  obtain ⟨-, ⟨⟨hres, howner⟩, -⟩, -, -, hcharge⟩ := hframe
  rw [hcall] at hlocal hreturned
  have hhand : f'.hand = deficit := by
    rw [hf', PublishFrame.hand]
    change deficit + (f.reservation.weight + f.ownership.weight) = deficit
    rw [hres, howner]
    rfl
  have hsum : (k.memory.ledger.slots f.slot).localCredit + deficit = config.maximumRecordBytes :=
    hlocal.1.trans hcharge
  have hzero := hreturned (by rintro ⟨⟩)
  have hmul := config.laneCapacity_mul f.slot config.maximumRecordBytes
  have htotal : m'.laneTotal config Handle.weight f.slot =
      k.memory.laneTotal config Handle.weight f.slot :=
    KernelMemory.laneTotal_congr fun i ↦ by rw [hcells]
  rw [hslots, htotal, hhand, CreditSlot.credit, hmul]
  omega

theorem Books.publish (hfits : k.memory.ledger.Fits config) (hf : k.calls t = .publish f)
    (hstep : publishStep conv config k.memory f choice = some (m', f')) :
    (k.afterPublish t f m' f').Books config t := by
  have hok := hinv.frames t f hf
  have hframe := htidy.frames t f hf
  obtain ⟨_, e⟩ := hinv.stepEffect hf hstep
  have hslot := e.slot
  have hhand : ∀ q, (k.calls t).handOn q = if q = f.slot then f.hand else 0 := by
    intro q
    rw [hf]
    rfl
  have hhand' : ∀ q, (KernelCall.publish f').handOn q = if q = f.slot then f'.hand else 0 := by
    intro q
    rw [← hslot]
    rfl
  by_cases hemplace : f.pc = .emplace
  · obtain ⟨hmove, hledger⟩ := SlotStep.emplace hframe hemplace hstep
    have hp : f.slot < config.producerSlots :=
      hok.slot_lt (by simp [hemplace]) (by simp [hemplace]) (by simp [hemplace])
    refine h.move rfl hp hmove hhand hhand' (.inl ?_) (fun g c hg hpc ↦ ?_)
      (by intros; contradiction)
    · change m'.ledger.centralAvailable = _
      rw [hledger]
    · cases hg
      have hdrain := publishStep_startReserve (by simp [hemplace]) hstep hpc
      rw [hdrain]
      exact ⟨trivial, fun hne ↦ absurd rfl hne⟩
  have hcredit := publishCredit hok hframe hfits
    (fun call hpc ↦ (h.reserving f call hf hpc).1) hstep hemplace
  by_cases hp : f.slot < config.producerSlots
  · refine h.move rfl hp (.of_publishCredit hcredit) hhand hhand' ?_ (fun g c hg hpc ↦ ?_)
      (by intros; contradiction)
    · by_cases hreserve : ∃ call, f.pc = .reserve call
      · obtain ⟨call, hpc⟩ := hreserve
        obtain ⟨hledger, hcells, hgoto, -⟩ := publishStep_reserve hpc hstep
        obtain ⟨-, hcentral⟩ := k.memory.ledger.reserveStep_places call choice.spurious
        rw [← hledger] at hcentral
        refine hcentral.imp_right ?_
        rintro ⟨deficit, available, hcall, hrunning, hslots⟩
        exact h.refilled hinv htidy hf hpc hcall hslots hcells (hgoto _ hrunning)
      · exact .inl (hcredit.centralAvailable fun call hpc ↦ hreserve ⟨call, hpc⟩)
    · cases hg
      rw [hslot]
      refine ⟨hcredit.reserving c hpc, fun hne ↦ ?_⟩
      by_cases hreserve : ∃ call, f.pc = .reserve call
      · obtain ⟨call, hpc₀⟩ := hreserve
        obtain ⟨hledger, -, -, hrunning⟩ := publishStep_reserve hpc₀ hstep
        obtain ⟨hplaces, -⟩ := k.memory.ledger.reserveStep_places call choice.spurious
        have hproducer : call.producer = f.slot := by
          rw [PublishFrame.Tidy, hpc₀] at hframe
          exact hframe.2.2.1
        rw [← hledger, hproducer] at hplaces
        exact (hplaces c (hrunning c hpc)).2 (h.reserving f call hf hpc₀).2
      · exact absurd (publishStep_startReserve (fun c hc ↦ hreserve ⟨c, hc⟩) hstep hpc) hne
  · -- there is no such slot, and the call does nothing
    have hneutral : m'.ledger = k.memory.ledger ∧ m'.cells = k.memory.cells ∧
        f'.hand = f.hand ∧ ∀ c, f'.pc ≠ .reserve c := by
      have hpc : f.pc = .activeState ∨ ∃ outcome, f.pc = .unwind [] outcome := by
        by_contra hnot
        push Not at hnot
        refine hp (hok.slot_lt hnot.1 hnot.2 fun result hpc ↦ ?_)
        rw [publishStep, hpc] at hstep
        cases hstep
      have hregister : f.pc.register = 0 := by
        rcases hpc with hpc | ⟨outcome, hpc⟩ <;> rw [hpc] <;> rfl
      rw [PublishFrame.hand, PublishFrame.hand, hregister]
      rcases hpc with hpc | ⟨outcome, hpc⟩ <;> rw [publishStep, hpc] at hstep
      · dsimp only at hstep
        split at hstep <;> cases hstep <;> exact ⟨rfl, rfl, rfl, by rintro _ ⟨⟩⟩
      · cases hstep
        exact ⟨rfl, rfl, rfl, by rintro _ ⟨⟩⟩
    obtain ⟨hledger, hcells, hsame, hnot⟩ := hneutral
    refine h.neutral rfl hledger (fun i ↦ ?_) (fun q ↦ ?_) (fun g c hg ↦ ?_)
      (by intros; contradiction)
    · change (m'.cells i).ownership = _
      rw [hcells]
    · rw [hhand, hhand', hsame]
    · cases hg
      exact hnot c

end

/-! ## The other calls -/

/-- Outside the ledger a retirement moves no credit, whatever the slot. -/
theorem Books.retirement (h : k.Books config t) (hfits : k.memory.ledger.Fits config)
    {call : KernelCall} {p : ℕ} {pc : RetirePc}
    (hcall : (k.calls t).retirement = some (p, pc)) (hnew : ∀ f, call ≠ .publish f)
    (hgoes : ∀ pc', (retireStep k.memory p choice pc).2 = some pc' →
      call.retirement = some (p, pc'))
    (hends : (retireStep k.memory p choice pc).2 = none → ∀ x, call.retirement = some x →
      x.2 = .drained .testPublishing)
    (hmemory : k'.memory = (retireStep k.memory p choice pc).1)
    (hcalls : k'.calls = Function.update k.calls t call) : k'.Books config t := by
  have hhand := KernelCall.handOn_of_retirement hcall
  have hhand' : ∀ q, call.handOn q =
      if q = p then RetirePc.nextRegister (retireStep k.memory p choice pc).2 else 0 := by
    intro q
    cases hnext : (retireStep k.memory p choice pc).2 with
    | none =>
      rw [KernelCall.handOn_of_fresh hnew (hends hnext)]
      exact (ite_self 0).symm
    | some pc' => exact KernelCall.handOn_of_retirement (hgoes pc' hnext) q
  have hnextPc : ∀ q pc', call.retirement = some (q, .reconcile pc') →
      q = p ∧ (retireStep k.memory p choice pc).2 = some (.reconcile pc') := by
    intro q pc' hq
    cases hnext : (retireStep k.memory p choice pc).2 with
    | none => cases hends hnext _ hq
    | some pc'' =>
      cases (hgoes pc'' hnext).symm.trans hq
      exact ⟨rfl, rfl⟩
  have hslot : SlotStep config k.memory k'.memory p pc.register
      (RetirePc.nextRegister (retireStep k.memory p choice pc).2) 0 0 := by
    rw [hmemory]
    exact SlotStep.retireStep p choice pc
  have hcells : ∀ i, (k'.memory.cells i).ownership = (k.memory.cells i).ownership := fun i ↦ by
    rw [hmemory, (ControlEffect.retire p choice pc).sameIngress.cells]
  by_cases hp : p < config.producerSlots
  · refine h.move hcalls hp hslot hhand hhand' (.inr ?_) (fun f c hf ↦ absurd hf (hnew f))
      fun q pc' hq ↦ (hnextPc q pc' hq).1
    have hbound := h.bounded p hp
    have hle := retireStep_credit_le (m := k.memory) p choice pc
    rw [attributed, hhand, if_pos rfl] at hbound
    rw [KernelMemory.laneTotal_congr hcells, hmemory]
    omega
  · -- for a slot that does not exist nothing is done to the ledger
    have hledger : (retireStep k.memory p choice pc).1.ledger = k.memory.ledger ∧
        pc.register = 0 ∧ RetirePc.nextRegister (retireStep k.memory p choice pc).2 = 0 ∧
        ∀ pc', (retireStep k.memory p choice pc).2 = some (.reconcile pc') →
          pc' = .loadLogical := by
      by_cases hreconcile : ∃ pc', pc = .reconcile pc'
      · obtain ⟨pc, rfl⟩ := hreconcile
        have hload : pc = .loadLogical := by
          by_contra hne
          exact hp (h.reconciling p pc hcall hne)
        have hcount : ¬p < k.memory.ledger.producerCount := by
          rw [hfits.producerCount]
          exact hp
        rw [hload, retireStep, CreditLedger.reconcileStep, if_pos (.inl hcount)]
        exact ⟨rfl, rfl, rfl, by rintro _ ⟨⟩⟩
      · have hpc : ∀ pc', pc ≠ .reconcile pc' := fun pc' heq ↦ hreconcile ⟨pc', heq⟩
        obtain ⟨hregister, hnext⟩ := retireStep_register k.memory p choice hpc
        refine ⟨retireStep_ledger hpc, hregister, hnext, fun pc' hpc' ↦ ?_⟩
        exact retireStep_startReconcile hpc hpc'
    obtain ⟨hledger, hzero, hzero', hload⟩ := hledger
    refine h.neutral hcalls ?_ hcells (fun q ↦ ?_) (fun f c hf ↦ absurd hf (hnew f))
      fun q pc' hq ↦ hload pc' (hnextPc q pc' hq).2
    · rw [hmemory, hledger]
    · rw [hhand, hhand', hzero, hzero']

theorem Books.callStep (h : k.Books config t) (hfits : k.memory.ledger.Fits config)
    {call call' : KernelCall} (hcall : k.calls t = call) (hold : ∀ f, call ≠ .publish f)
    (hnew : ∀ f, call' ≠ .publish f) (hstep : CallStep config k.memory choice call m' call')
    (hmemory : k'.memory = m') (hcalls : k'.calls = Function.update k.calls t call') :
    k'.Books config t := by
  have hquiet : call.retirement = none →
      (∀ x, call'.retirement = some x → x.2 = .drained .testPublishing) →
      k'.memory.ledger = k.memory.ledger → k'.memory.cells = k.memory.cells →
      k'.Books config t := by
    intro hnone hfresh hledger hcells
    refine h.neutral hcalls hledger (fun i ↦ by rw [hcells]) (fun p ↦ ?_)
      (fun f c hf ↦ absurd hf (hnew f)) fun p pc hp ↦ nomatch hfresh _ hp
    rw [hcall, KernelCall.handOn_of_fresh hnew hfresh,
      KernelCall.handOn_of_fresh hold (fun x hx ↦ nomatch hnone.symm.trans hx)]
  cases hstep with
  | retirement hretirement hgoes hends =>
    exact h.retirement hfits (by rw [hcall]; exact hretirement) hnew hgoes hends hmemory hcalls
  | quiet hnone hfresh => exact hquiet hnone hfresh (by rw [hmemory]) (by rw [hmemory])
  | retire hnone hstate hfresh =>
    refine hquiet hnone (fun x hx ↦ ?_) (by rw [hmemory]; rfl) (by rw [hmemory]; rfl)
    cases hfresh.symm.trans hx
    rfl
  | register _ hnone hstate hnone' =>
    exact hquiet hnone (fun x hx ↦ nomatch hnone'.symm.trans hx) (by rw [hmemory]; rfl)
      (by rw [hmemory]; rfl)

theorem Books.consume (h : k.Books config t) (hinv : k.Inv conv config) (htidy : k.Tidy config)
    (hfits : k.memory.ledger.Fits config) {g : ConsumeFrame} {pc' : ConsumePc}
    (hg : k.calls t = .consume g)
    (hstep : consumeStep config k.memory g choice = some (m', pc')) :
    (k.afterConsume t g m' pc').Books config t := by
  obtain ⟨rfl, hok⟩ := hinv.consumer t g hg
  have hframe := htidy.consumer g hg
  by_cases hretire : ∃ lane pc, g.pc = .retire lane pc
  · obtain ⟨lane, pc, hpc⟩ := hretire
    exact h.callStep hfits hg (fun f hf ↦ by cases hf) (fun f hf ↦ by cases hf)
      (.of_consume hpc hstep) rfl rfl
  have hretire' : ∀ lane pc, g.pc ≠ .retire lane pc := fun lane pc hpc ↦ hretire ⟨lane, pc, hpc⟩
  -- outside `TryFinishRetirement` the consumer has nothing in hand
  have hzero : ∀ p, (k.calls consumerThread).handOn p = 0 := by
    intro p
    rw [hg]
    refine KernelCall.handOn_of_fresh (fun f hf ↦ by cases hf) (fun x hx ↦ ?_) p
    obtain ⟨hasConsumer, pc⟩ := g
    cases pc with
    | retire lane pc => exact absurd rfl (hretire' lane pc)
    | _ => cases hx
  have hfresh : ∀ x, (KernelCall.consume ⟨g.hasConsumer, pc'⟩).retirement = some x →
      x.2 = .drained .testPublishing := by
    intro x hx
    cases pc' with
    | retire lane pc =>
      cases hx
      exact consumeStep_startRetirement hretire' hstep rfl
    | _ => cases hx
  have hzero' : ∀ p, (KernelCall.consume ⟨g.hasConsumer, pc'⟩).handOn p = 0 :=
    KernelCall.handOn_of_fresh (fun f hf ↦ by cases hf) hfresh
  by_cases hrelease : ∃ claim, g.pc = .releaseOwnership claim ∨ g.pc = .finishOwnership claim
  · obtain ⟨claim, hpc⟩ := hrelease
    obtain ⟨hhandle, hproducer, hothers⟩ := consumeStep_handle hok hframe hfits hpc hstep
    have hclaim : claim.Ok config k.memory ∧
        claim.cell = config.cellIndex claim.lane claim.readPosition := by
      refine (ConsumeFrame.ok_of_clearing ?_).mp hok
      rcases hpc with hpc | hpc <;> rw [hpc] <;> rfl
    rw [hclaim.2] at hhandle hproducer hothers
    refine h.move rfl hclaim.1.lane (.onCell rfl hhandle hproducer hothers) (fun q ↦ ?_)
      (fun q ↦ ?_) (.inl hhandle.centralAvailable) (fun f c hf ↦ by cases hf)
      fun q pc hq ↦ nomatch hfresh _ hq
    · rw [hzero, ite_self]
    · rw [hzero', ite_self]
  · obtain ⟨hledger, hcells⟩ := consumeStep_ledger (fun claim hpc ↦ hrelease ⟨claim, .inl hpc⟩)
      (fun claim hpc ↦ hrelease ⟨claim, .inr hpc⟩) hretire' hstep
    refine h.neutral rfl hledger hcells (fun q ↦ ?_) (fun f c hf ↦ by cases hf)
      fun q pc hq ↦ nomatch hfresh _ hq
    rw [hzero, hzero']

/-- Without a call in progress the books are those of any thread. -/
theorem Books.of_idle (h : k.Books config t) (hall : ∀ t, k.calls t = .idle) (t' : ℕ) :
    k.Books config t' := by
  have hattributed : ∀ p, k.attributed config t' p = k.attributed config t p := by
    intro p
    rw [attributed, attributed, hall, hall]
  refine ⟨fun t _ ↦ hall t, ?_, fun p hp ↦ ?_, fun f c hf ↦ ?_, fun p pc hp ↦ ?_⟩
  · rw [Finset.sum_congr rfl fun p _ ↦ hattributed p]
    exact h.conserved
  · rw [hattributed]
    exact h.bounded p hp
  · cases (hall t').symm.trans hf
  · rw [hall t'] at hp
    cases hp

theorem Books.step (h : k.Books config t) (hinv : k.Inv conv config) (htidy : k.Tidy config)
    (hfits : k.memory.ledger.Fits config) (hsequential : k.Sequential action)
    (hstep : k.step conv config action = some k') : ∃ t', k'.Books config t' := by
  -- only thread `t` can make a step or return
  have hactive : ∀ {t'}, k.calls t' ≠ .idle → t' = t := by
    intro t' hne
    by_contra ht'
    exact hne (h.others t' ht')
  cases Move.of_step hstep with
  | @enter _ t' call hidle hcall =>
    have hall : ∀ t, k.calls t = .idle := hsequential (by cases hcall <;> trivial)
    refine ⟨t', (h.of_idle hall t').neutral rfl rfl (fun _ ↦ rfl) (fun p ↦ ?_) (fun f c hf ↦ ?_)
      fun p pc hp ↦ nomatch hcall.retirement _ hp⟩
    · rw [hall, hcall.handOn]
      rfl
    · cases hcall <;> cases hf
      nofun
  | closeAdmission => exact ⟨t, { h with }⟩
  | publish hf hcall =>
    obtain rfl := hactive (by rw [hf]; nofun)
    exact ⟨_, h.publish hinv htidy hfits hf hcall⟩
  | consume hf hcall =>
    obtain rfl := hactive (by rw [hf]; nofun)
    exact ⟨_, h.consume hinv htidy hfits hf hcall⟩
  | retire hf hcall =>
    obtain rfl := hactive (by rw [hf]; nofun)
    exact ⟨_, h.callStep hfits hf (fun f hf ↦ by cases hf) (fun f hf ↦ by cases hf)
      (.of_retire hcall) rfl rfl⟩
  | quiescent hf hcall =>
    obtain rfl := hactive (by rw [hf]; nofun)
    exact ⟨_, h.callStep hfits hf (fun f hf ↦ by cases hf) (fun f hf ↦ by cases hf)
      (.of_quiescent hcall) rfl rfl⟩
  | register hf hcall =>
    obtain rfl := hactive (by rw [hf]; nofun)
    exact ⟨_, h.callStep hfits hf (fun f hf ↦ by cases hf) (fun f hf ↦ by cases hf)
      (.of_register hcall) rfl rfl⟩
  | @returnPublish t' f result hf hpc =>
    obtain rfl := hactive (by rw [hf]; nofun)
    refine ⟨t', h.neutral rfl rfl (fun _ ↦ rfl) (fun p ↦ ?_) (fun f c hf ↦ by cases hf) nofun⟩
    have hempty := htidy.frames t' f hf
    rw [PublishFrame.Tidy, hpc] at hempty
    obtain ⟨hhand, -⟩ := PublishFrame.Empty.hand hempty (by rw [hpc]; rfl)
    rw [hf, KernelCall.handOn, hhand]
    exact (ite_self 0).symm
  | @«return» t' hcall hdone =>
    have hne : k.calls t' ≠ .idle := by
      intro hidle
      rw [hidle] at hdone
      exact hdone
    obtain rfl := hactive hne
    refine ⟨t', h.neutral rfl rfl (fun _ ↦ rfl) (fun p ↦ ?_) (fun f c hf ↦ by cases hf) nofun⟩
    refine (KernelCall.handOn_of_fresh hcall (fun x hx ↦ ?_) p).symm
    cases hdone.retirement.symm.trans hx

theorem books_init : (init config).Books config 0 := by
  have hattributed : ∀ p, (init config).attributed config 0 p = 0 := by
    intro p
    have hlane : (init config).memory.laneTotal config Handle.weight p = 0 :=
      Finset.sum_eq_zero fun i _ ↦ rfl
    rw [attributed, hlane]
    rfl
  refine ⟨fun _ _ ↦ rfl, ?_, fun p _ ↦ ?_, fun f c hf ↦ ?_, fun p pc hp ↦ ?_⟩
  · rw [Finset.sum_eq_zero fun p _ ↦ hattributed p]
    rfl
  · rw [hattributed]
    exact Nat.zero_le _
  · cases hf
  · cases hp

theorem books_of_reach (h : (machine conv config).Reach Sequential k) :
    ∃ t, k.Books config t := by
  induction h with
  | init => exact ⟨0, books_init⟩
  | step hk hsequential hstep ih =>
    obtain ⟨t, hbooks⟩ := ih
    exact hbooks.step (Inv.of_reach hk) (Tidy.of_reach hk) (fits_of_reach hk) hsequential hstep

/-! ## Enough for everyone -/

end Kernel

/-- The call is leaving, or has left, for want of credit. -/
def PublishPc.Starved : PublishPc → Prop
  | .unwind _ outcome => outcome = some .budgetExhausted
  | .done result => result.map (·.outcome) = some .budgetExhausted
  | _ => False

/-- Only `TryReserve` starves a call. -/
theorem PublishPc.Starved.of_publishStep (hnot : ¬f.pc.Starved)
    (hstep : publishStep conv config m f choice = some (m', f')) (h : f'.pc.Starved) :
    f.pc = .recheckGeneration ∧ m.ledger.startReserve f.slot config.maximumRecordBytes = none ∨
      ∃ call, f.pc = .reserve call ∧
        (m.ledger.reserveStep call choice.spurious).2 = .refused := by
  cases hpc : f.pc with
  | recheckGeneration =>
    rw [publishStep, hpc] at hstep
    dsimp only at hstep
    split at hstep
    · cases hstep
      cases h
    split at hstep
    · cases hstep
      cases h
    split at hstep
    · next hnone => exact .inl ⟨rfl, hnone⟩
    · cases hstep
      cases h
  | reserve call =>
    rw [publishStep, hpc] at hstep
    dsimp only at hstep
    split at hstep
    · cases hstep
      cases h
    · next heq => exact .inr ⟨call, rfl, by rw [heq]⟩
    · cases hstep
      cases h
  | unwind stages outcome =>
    rw [hpc] at hnot
    rw [publishStep.eq_def, hpc] at hstep
    cases stages with
    | nil =>
      cases hstep
      refine absurd ?_ hnot
      cases outcome with
      | none => cases h
      | some o => exact h
    | cons stage stages =>
      cases hstep
      exact absurd h hnot
  | done result =>
    rw [publishStep, hpc] at hstep
    cases hstep
  | _ =>
    rw [publishStep, hpc] at hstep
    dsimp only at hstep
    repeat' split at hstep
    all_goals cases hstep
    all_goals cases h

namespace Kernel

/-- With room for a whole Record in every cell, what a publication lacks is in the centre. -/
theorem Books.deficit_le (h : k.Books config t) (hinv : k.Inv conv config)
    (htidy : k.Tidy config)
    (hcapacity : config.ingressCells * config.maximumRecordBytes ≤ config.payloadCapacityBytes)
    (hf : k.calls t = .publish f) {call : ReserveCall} (hpc : f.pc = .reserve call)
    (hdrained : call.pc ≠ .drain) (hhand : f.hand = 0) {deficit : ℕ}
    (hlocal : (k.memory.ledger.slots f.slot).localCredit + deficit = call.chargeBytes) :
    deficit ≤ k.memory.ledger.centralAvailable := by
  have hok := hinv.frames t f hf
  have hframe := htidy.frames t f hf
  have hlane := h.laneTotal_le hinv htidy hf hpc
  have hreturned := (h.reserving f call hf hpc).2 hdrained
  have hconserved := h.conserved
  rw [PublishFrame.Ok, hpc] at hok
  rw [PublishFrame.Tidy, hpc] at hframe
  have hcharge := hframe.2.2.2.2
  have hmem : f.slot ∈ Finset.range config.producerSlots := Finset.mem_range.mpr hok.slot
  -- the slot has its cache and the Records in the other cells, the other slots at most their lanes
  have hself : k.attributed config t f.slot ≤ (k.memory.ledger.slots f.slot).localCredit +
      (config.laneCapacity f.slot - 1) * config.maximumRecordBytes := by
    have hzero : (k.calls t).handOn f.slot = 0 := by
      rw [hf, KernelCall.handOn, if_pos rfl, hhand]
    rw [attributed, CreditSlot.credit, hreturned, hzero]
    omega
  have hothers : ∑ p ∈ (Finset.range config.producerSlots).erase f.slot,
        k.attributed config t p ≤
      ∑ p ∈ (Finset.range config.producerSlots).erase f.slot,
        config.laneCapacity p * config.maximumRecordBytes :=
    Finset.sum_le_sum fun p hp ↦
      h.bounded p (Finset.mem_range.mp (Finset.mem_of_mem_erase hp))
  have htotal : ∑ p ∈ (Finset.range config.producerSlots).erase f.slot,
        config.laneCapacity p * config.maximumRecordBytes +
      config.laneCapacity f.slot * config.maximumRecordBytes =
        config.ingressCells * config.maximumRecordBytes := by
    rw [Finset.sum_erase_add _ (fun p ↦ config.laneCapacity p * config.maximumRecordBytes) hmem,
      ← Finset.sum_mul, config.sum_laneCapacity]
  have hmul := config.laneCapacity_mul f.slot config.maximumRecordBytes
  rw [← Finset.sum_erase_add _ _ hmem] at hconserved
  omega

/-- With room for a whole Record in every cell, `TryReserve` is never refused. -/
theorem Books.not_refused (h : k.Books config t) (hinv : k.Inv conv config)
    (htidy : k.Tidy config)
    (hcapacity : config.ingressCells * config.maximumRecordBytes ≤ config.payloadCapacityBytes)
    (hf : k.calls t = .publish f) {call : ReserveCall} (hpc : f.pc = .reserve call)
    (spurious : Bool) : (k.memory.ledger.reserveStep call spurious).2 ≠ .refused := by
  have hframe := htidy.frames t f hf
  obtain ⟨hlocal, -⟩ := h.reserving f call hf hpc
  rw [PublishFrame.Tidy, hpc] at hframe
  obtain ⟨-, ⟨⟨hres, howner⟩, -⟩, -⟩ := hframe
  have hhand : f.hand = call.pc.register call.chargeBytes := by
    rw [PublishFrame.hand, hpc, hres, howner]
    rfl
  rw [CreditLedger.reserveStep]
  cases hcall : call.pc with
  | loadCentral deficit =>
    rw [hcall] at hlocal hhand
    have hle := h.deficit_le hinv htidy hcapacity hf hpc (by rw [hcall]; rintro ⟨⟩) hhand hlocal
    dsimp only
    rw [if_pos hle]
    rintro ⟨⟩
  | compareExchange deficit available =>
    rw [hcall] at hlocal hhand
    have hle := h.deficit_le hinv htidy hcapacity hf hpc (by rw [hcall]; rintro ⟨⟩) hhand hlocal.1
    dsimp only
    rw [if_pos hle]
    split <;> rintro ⟨⟩
  | _ => rintro ⟨⟩

theorem not_starved_step (hk : (machine conv config).Reach Sequential k)
    (hcapacity : config.ingressCells * config.maximumRecordBytes ≤ config.payloadCapacityBytes)
    (h : ∀ t f, k.calls t = .publish f → ¬f.pc.Starved)
    (hstep : k.step conv config action = some k') :
    ∀ t f, k'.calls t = .publish f → ¬f.pc.Starved := by
  obtain ⟨t₀, hbooks⟩ := books_of_reach hk
  have hinv : k.Inv conv config := Inv.of_reach hk
  have htidy : k.Tidy config := Tidy.of_reach hk
  have hother : ∀ {t' call t f}, Function.update k.calls t' call t = .publish f →
      (∀ f, call = .publish f → ¬f.pc.Starved) → ¬f.pc.Starved := by
    intro t' call t f hf hcall
    rcases update_eq_cases hf with ⟨-, heq⟩ | ⟨-, hold⟩
    · exact hcall f heq.symm
    · exact h t f hold
  intro t f hf
  cases Move.of_step hstep with
  | enter _ hcall =>
    refine hother hf fun g hg ↦ ?_
    cases hcall <;> cases hg
    exact id
  | closeAdmission => exact h t f hf
  | @publish t' g g' choice m' hg hcall =>
    refine hother hf ?_
    rintro _ ⟨⟩ hstarved
    obtain rfl : t' = t₀ := by
      by_contra hne
      cases (hbooks.others t' hne).symm.trans hg
    rcases hstarved.of_publishStep (h t' g hg) hcall with ⟨hpc, hnone⟩ | ⟨call, hpc, hrefused⟩
    · -- the slot exists, and a whole Record fits the capacity
      have hok := hinv.frames t' g hg
      have hfits : k.memory.ledger.Fits config := fits_of_reach hk
      obtain ⟨hmin, -, -, hpayload⟩ := config.maximumRecordBytes_bounds
      rw [PublishFrame.Ok, hpc] at hok
      have hslot := hok.slot
      rw [CreditLedger.startReserve, config.accountingCharge_maximumRecordBytes,
        hfits.capacityBytes, hfits.producerCount, if_neg (by omega)] at hnone
      cases hnone
    · exact hbooks.not_refused hinv htidy hcapacity hg hpc _ hrefused
  | consume | retire | quiescent | register | returnPublish | «return» =>
    refine hother hf fun g hg ↦ ?_
    cases hg

theorem not_starved
    (hcapacity : config.ingressCells * config.maximumRecordBytes ≤ config.payloadCapacityBytes)
    (h : (machine conv config).Reach Sequential k) :
    ∀ t f, k.calls t = .publish f → ¬f.pc.Starved := by
  induction h with
  | init =>
    intro t f hf
    cases hf
  | step hk _ hstep ih => exact not_starved_step hk hcapacity ih hstep

/-- When calls are made one after the other, a slot never has more credit than its lane can take in
Records of maximal size. With a payload capacity for that in all lanes no publication is rejected
for want of credit. -/
theorem credit_bounded_by_lane (h : (machine conv config).Reach Sequential k) :
    (∀ t p, p < config.producerSlots →
      k.attributed config t p ≤ config.laneCapacity p * config.maximumRecordBytes) ∧
    (config.ingressCells * config.maximumRecordBytes ≤ config.payloadCapacityBytes →
      ∀ t f r, k.calls t = .publish f → f.pc = .done (some r) →
        r.outcome ≠ .budgetExhausted) := by
  constructor
  · intro t p hp
    obtain ⟨t₀, hbooks⟩ := books_of_reach h
    by_cases ht : t = t₀
    · rw [ht]
      exact hbooks.bounded p hp
    · have hbound := hbooks.bounded p hp
      have hidle : (k.calls t).handOn p = 0 := by
        rw [hbooks.others t ht]
        rfl
      rw [attributed] at hbound ⊢
      omega
  · intro hcapacity t f r hf hpc hout
    refine not_starved hcapacity h t f hf ?_
    rw [hpc]
    exact congrArg some hout

theorem sequential_of_run {actions : List KernelAction}
    (hrun : (machine conv config).run
      (fun k a ↦ a.thread = some t ∧ (a.Starts → k.isIdle t = true)) (init config) actions =
        some k) : (machine conv config).Reach Sequential k := by
  have hboth : (machine conv config).Reach Sequential k ∧ ∀ t', t' ≠ t → k.calls t' = .idle := by
    refine Machine.Reach.invariant (I := fun k ↦ (machine conv config).Reach Sequential k ∧
      ∀ t', t' ≠ t → k.calls t' = .idle) (Machine.Reach.init.of_run hrun) ⟨.init, fun _ _ ↦ rfl⟩ ?_
    rintro k a k' ⟨hk, hothers⟩ ⟨hthread, hstarts⟩ hstep
    refine ⟨.step hk (fun hs t' ↦ ?_) hstep, fun t' ht' ↦ ?_⟩
    · by_cases ht' : t' = t
      · rw [ht', calls_of_isIdle (hstarts hs)]
      · exact hothers t' ht'
    · refine ((Move.of_step hstep).calls_of_ne ?_).trans (hothers t' ht')
      rw [hthread]
      exact fun heq ↦ ht' (Option.some_inj.mp heq).symm
  exact hboth.1

/-- After one publication the single cell holds a Record, and the slot has as much credit as it may
have. -/
theorem credit_bounded_by_lane_published :
    ∃ k : Kernel, (machine .blank .singleCell).Reach Sequential k ∧
      k.returned.map (·.1) = [0] ∧ k.attributed .singleCell 1 0 ≤ 1 * 128 ∧
      ∀ t f r, k.calls t = .publish f → f.pc = .done (some r) → r.outcome ≠ .budgetExhausted := by
  have hrun : ((machine .blank .singleCell).run
      (fun k a ↦ a.thread = some 1 ∧ (a.Starts → k.isIdle 1 = true)) (init .singleCell)
      (List.flatten [[.register 1], advances 1 4, [.return 1],
        [.publish 1 0 1 .info ⟨[0x61], [0x62], 7, 9⟩ true], advances 1 25, [.return 1]])).any
          (fun k ↦ k.returned.map (·.1) = [0]) = true := by
    decide +kernel
  obtain ⟨k, hk, htest⟩ := (Option.any_eq_true _ _).mp hrun
  have hreach := sequential_of_run hk
  have hbound := credit_bounded_by_lane hreach
  exact ⟨k, hreach, of_decide_eq_true htest, hbound.1 1 0 (by decide), hbound.2 (by decide)⟩

end Kernel

end Ulog
