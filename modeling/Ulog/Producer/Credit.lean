import Ulog.Credit.Moves
import Ulog.Producer.Cells
import Ulog.Producer.Retirement

/-!
# The credit of the kernel's calls

A publication has credit in the register of its `TryReserve`, in its reservation, and in the
ownership that goes to its cell; the consumer takes it out of the cell again. This file follows that
credit through every step: what a call takes from the slot of its lane it has in hand or in its
cell, and what it gives up comes back to the slot. The reservation is the only step that takes from
the centre, and reconciliation the only one that gives back to it.
-/

namespace Ulog

variable {conv : Charconv} {config : ValidConfig} {m m' : KernelMemory} {l : CreditLedger}
  {admissions : List Admission} {f f' : PublishFrame} {choice : StepChoice}

/-! ## The ledger of a kernel -/

/-- The ledger has the kernel's configuration, and its logical charges are words. -/
structure CreditLedger.Fits (config : ValidConfig) (l : CreditLedger) : Prop where
  capacityBytes : l.capacityBytes = config.payloadCapacityBytes
  producerCount : l.producerCount = config.producerSlots
  logical_lt : ∀ p, (l.slots p).logicalCharge < wordModulus

namespace CreditLedger.Fits

section

variable (h : l.Fits config)

include h

theorem setSlot {p : ℕ} {v : CreditSlot} (hv : v.logicalCharge < wordModulus) :
    (l.setSlot p v).Fits config := by
  refine ⟨h.capacityBytes, h.producerCount, fun q ↦ ?_⟩
  by_cases hq : q = p
  · rw [hq, slots_setSlot_self]
    exact hv
  · rw [slots_setSlot_of_ne _ hq]
    exact h.logical_lt q

theorem returnToMailbox (p bytes : ℕ) : (l.returnToMailbox p bytes).Fits config := by
  rw [CreditLedger.returnToMailbox]
  split
  · exact h
  · exact h.setSlot (h.logical_lt p)

theorem subLogical (p bytes : ℕ) : (l.subLogical p bytes).Fits config :=
  h.setSlot (Nat.mod_lt _ (by decide))

theorem reserveStep (c : ReserveCall) (spurious : Bool) :
    (l.reserveStep c spurious).1.Fits config := by
  rw [CreditLedger.reserveStep]
  split
  · exact h.setSlot (h.logical_lt c.producer)
  · exact h.setSlot (h.logical_lt c.producer)
  · split <;> exact h
  · split
    · exact ⟨h.capacityBytes, h.producerCount, h.logical_lt⟩
    · split <;> exact h
  · exact h.setSlot (h.logical_lt c.producer)
  · exact h.setSlot (h.logical_lt c.producer)
  · exact h.setSlot (Nat.mod_lt _ (by decide))

theorem startRelease (handle : Handle) : (l.startRelease handle).1.Fits config := by
  cases handle <;> first | exact h | exact h.subLogical _ _

theorem startCommit (retained : ℕ) (handle : Handle) :
    (l.startCommit retained handle).1.Fits config := by
  cases handle with
  | reservation producer requested charge =>
    simp only [CreditLedger.startCommit]
    split
    · exact h.startRelease _
    · exact h.returnToMailbox _ _
  | _ => exact h

theorem finishHandle (handle : Handle) : (l.finishHandle handle).1.Fits config := by
  cases handle with
  | committing => exact h.subLogical _ _
  | releasing => exact h.returnToMailbox _ _
  | _ => exact h

theorem reconcileStep (p : ℕ) (pc : ReconcilePc) : (l.reconcileStep p pc).1.Fits config := by
  cases pc with
  | loadLogical =>
    rw [CreditLedger.reconcileStep]
    split <;> exact h
  | drain => exact h.setSlot (h.logical_lt p)
  | gather returned => exact h.setSlot (h.logical_lt p)
  | giveBack =>
    simp only [CreditLedger.reconcileStep]
    split
    · exact h
    · have hset := h.setSlot (p := p) (v := (l.slots p).setLocal 0) (h.logical_lt p)
      exact ⟨hset.capacityBytes, hset.producerCount, hset.logical_lt⟩

theorem moves {l' : CreditLedger} (hmoves : l.Moves l') : l'.Fits config := by
  cases hmoves with
  | none => exact h
  | reserve call spurious => exact h.reserveStep call spurious
  | startCommit retained handle => exact h.startCommit retained handle
  | startRelease handle => exact h.startRelease handle
  | finishHandle handle => exact h.finishHandle handle
  | reconcile slot pc => exact h.reconcileStep slot pc

end

end CreditLedger.Fits

theorem Kernel.fits_of_reach {ok : Kernel → KernelAction → Prop} {k : Kernel}
    (h : (machine conv config).Reach ok k) : k.memory.ledger.Fits config := by
  refine Machine.Reach.invariant (I := fun k ↦ k.memory.ledger.Fits config) h
    ⟨rfl, rfl, fun _ ↦ Nat.zero_lt_of_lt config.payloadCapacityBytes_lt⟩ fun k a k' hk _ hstep ↦ ?_
  cases Move.of_step hstep with
  | publish _ hcall => exact hk.moves (publishStep_unconsumed hcall).ledger
  | consume _ hcall => exact hk.moves (consumeStep_uncounted hcall).ledger
  | retire _ hcall => exact hk.moves (ControlEffect.of_retireProducerStep hcall).ledger
  | quiescent _ hcall => exact hk.moves (ControlEffect.of_quiescentStep hcall).ledger
  | register _ hcall => exact hk.moves (ControlEffect.of_registerStep hcall).ledger
  | _ => exact hk

/-! ## Credit in the hands of a publication -/

/-- The credit in the register of a `TryReserve`. -/
def PublishPc.register : PublishPc → ℕ
  | .reserve call => call.pc.register call.chargeBytes
  | _ => 0

namespace PublishFrame

/-- The credit that a call has in hand. -/
def hand (f : PublishFrame) : ℕ := f.pc.register + (f.reservation.weight + f.ownership.weight)

/-- The bytes that a call in progress counts for in the logical charge of its slot. -/
def handLogical (f : PublishFrame) : ℕ :=
  f.reservation.logicalBytes f.slot + f.ownership.logicalBytes f.slot

/-- A call without reservation and ownership has nothing. -/
theorem Empty.hand (h : f.Empty) (hpc : f.pc.register = 0) : f.hand = 0 ∧ f.handLogical = 0 := by
  rw [PublishFrame.hand, handLogical, h.1, h.2, hpc]
  exact ⟨rfl, rfl⟩

end PublishFrame

/-- What a step of `TryPublishSlot` does to the credit of its slot, apart from the step that puts an
ownership into the cell. -/
structure PublishCredit (m m' : KernelMemory) (f f' : PublishFrame) : Prop where
  move : SlotMove f.slot m.ledger m'.ledger
  ownerships : ∀ i, (m'.cells i).ownership = (m.cells i).ownership
  credit : Balanced (m.ledger.available f.slot + f.hand) (m'.ledger.available f.slot + f'.hand)
  logical : (m'.ledger.slots f.slot).logicalCharge + f.handLogical
    ≡ (m.ledger.slots f.slot).logicalCharge + f'.handLogical [MOD wordModulus]
  reserving : ∀ call, f'.pc = .reserve call →
    call.pc.Ok (m'.ledger.slots f.slot).localCredit call.chargeBytes
  centralAvailable : (∀ call, f.pc ≠ .reserve call) →
    m'.ledger.centralAvailable = m.ledger.centralAvailable

namespace PublishCredit

theorem same (hledger : m'.ledger = m.ledger) (hslot : f'.slot = f.slot)
    (hregister : f'.pc.register = f.pc.register) (hres : f'.reservation = f.reservation)
    (howner : f'.ownership = f.ownership)
    (hcells : ∀ i, (m'.cells i).ownership = (m.cells i).ownership)
    (hreserving : ∀ call, f'.pc = .reserve call → call.pc = .drain) :
    PublishCredit m m' f f' := by
  have hhand : f'.hand = f.hand := by
    rw [PublishFrame.hand, PublishFrame.hand, hregister, hres, howner]
  have hlogical : f'.handLogical = f.handLogical := by
    rw [PublishFrame.handLogical, PublishFrame.handLogical, hslot, hres, howner]
  refine ⟨?_, hcells, ?_, ?_, fun call hcall ↦ ?_, fun _ ↦ by rw [hledger]⟩
  · rw [hledger]
    exact CreditLedger.slotMove_refl ..
  · rw [hledger, hhand]
    exact .of_eq rfl
  · rw [hledger, hlogical]
  · rw [hreserving call hcall]
    trivial

theorem onReservation {l' : CreditLedger} {h' : Handle}
    (hmove : HandleStep m.ledger f.reservation l' h') (hproducer : f.reservation.producer = f.slot)
    (hledger : m'.ledger = l') (hslot : f'.slot = f.slot) (hregister : f.pc.register = 0)
    (hregister' : f'.pc.register = 0)
    (hhandles : f'.reservation = h' ∧ f'.ownership = f.ownership ∨
      f'.reservation = .empty ∧ f'.ownership = h' ∧ f.ownership = .empty)
    (hcells : ∀ i, (m'.cells i).ownership = (m.cells i).ownership)
    (hreserving : ∀ call, f'.pc ≠ .reserve call) : PublishCredit m m' f f' := by
  obtain ⟨hslots, hcentral, -, hcredit, hlogical, -, -, -, -⟩ := hmove
  rw [hproducer] at hslots hcredit hlogical
  have hweight : f'.reservation.weight + f'.ownership.weight = h'.weight + f.ownership.weight := by
    rcases hhandles with ⟨hres, howner⟩ | ⟨hres, howner, hempty⟩
    · rw [hres, howner]
    · rw [hres, howner, hempty]
      exact Nat.add_comm ..
  have hbytes : f'.handLogical = h'.logicalBytes f.slot + f.ownership.logicalBytes f.slot := by
    rw [PublishFrame.handLogical, hslot]
    rcases hhandles with ⟨hres, howner⟩ | ⟨hres, howner, hempty⟩
    · rw [hres, howner]
    · rw [hres, howner, hempty]
      exact Nat.add_comm ..
  refine ⟨hledger ▸ hslots, hcells, ?_, ?_, fun call hcall ↦ absurd hcall (hreserving call),
    fun _ ↦ ?_⟩
  · have hadd := hcredit.add_right (m.ledger.centralAvailable + f.ownership.weight)
    rw [PublishFrame.hand, PublishFrame.hand, hregister, hregister', hledger, hweight,
      CreditLedger.available, CreditLedger.available, hcentral]
    convert hadd using 1 <;> omega
  · have hadd := hlogical.add_right (f.ownership.logicalBytes f.slot)
    rw [hledger, hbytes, PublishFrame.handLogical]
    convert hadd using 1 <;> omega
  · rw [hledger, hcentral]

end PublishCredit

theorem PublishFrame.Reserves.ok (h : f.Reserves config) (hslot : f.slot < config.producerSlots)
    (hfits : m.ledger.Fits config) :
    f.reservation.Ok m.ledger.producerCount m.ledger.capacityBytes := by
  obtain ⟨hmin, -, -, hcapacity⟩ := config.maximumRecordBytes_bounds
  rw [h.1, hfits.capacityBytes, hfits.producerCount]
  exact ⟨hslot, config.accountingCharge_maximumRecordBytes.symm, by omega, hcapacity⟩

/-- A write that leaves the ownership of its cell leaves all of them. -/
theorem KernelMemory.ownership_setCell {c : ℕ} {cell : KernelCell}
    (h : cell.ownership = (m.cells c).ownership) (i : ℕ) :
    ((m.setCell c cell).cells i).ownership = (m.cells i).ownership := by
  rw [setCell]
  dsimp only
  by_cases hi : i = c
  · rw [hi, Function.update_self, h]
  · rw [Function.update_of_ne hi]

theorem CreditLedger.Fits.capacity_lt (h : l.Fits config) : l.capacityBytes < wordModulus :=
  h.capacityBytes.trans_lt config.payloadCapacityBytes_lt

section Steps

variable (hok : f.Ok conv config m admissions) (htidy : f.Tidy config m)
  (hfits : m.ledger.Fits config)
  (hreserving : ∀ call, f.pc = .reserve call →
    call.pc.Ok (m.ledger.slots f.slot).localCredit call.chargeBytes)
  (hstep : publishStep conv config m f choice = some (m', f'))

include htidy hreserving hstep in
theorem publishCredit_reserve {call : ReserveCall} (hpc : f.pc = .reserve call) :
    PublishCredit m m' f f' := by
  obtain ⟨-, hmax, -, -⟩ := config.maximumRecordBytes_bounds
  rw [PublishFrame.Tidy, hpc] at htidy
  obtain ⟨-, ⟨⟨hres, howner⟩, -⟩, hproducer, hworst, hcharge⟩ := htidy
  have hlt : call.chargeBytes < wordModulus := by
    have h64 : wordModulus = 2 ^ 64 := rfl
    have h16384 : maximumRecordBytes = 16384 := rfl
    omega
  have hreserve := CreditLedger.reserveStep_spec (hproducer ▸ hreserving call hpc) hlt
    choice.spurious
  rw [publishStep, hpc] at hstep
  dsimp only at hstep
  have hhand : f.hand = call.pc.register call.chargeBytes := by
    rw [PublishFrame.hand, hpc, hres, howner]
    rfl
  have hlogical : f.handLogical = 0 := by
    rw [PublishFrame.handLogical, hres, howner]
    rfl
  obtain ⟨⟨l', r⟩, heq⟩ : ∃ x, m.ledger.reserveStep call choice.spurious = x := ⟨_, rfl⟩
  rw [heq] at hstep hreserve
  obtain ⟨hmove, hcredit, hrunning, hlogical'⟩ := hreserve
  dsimp only at hmove hcredit hrunning hlogical' hstep
  rw [hproducer] at hmove hcredit hlogical'
  -- the register of the step is what the next frame has in hand
  have hframe : ∀ {g : PublishFrame} {m₁ : KernelMemory}, m₁.ledger = l' → m₁.cells = m.cells →
      g.hand = r.register call.chargeBytes →
      g.handLogical = (if r = .reserved then call.worstCaseBytes else 0) →
      (∀ call', g.pc = .reserve call' → r = .running call') → PublishCredit m m₁ f g := by
    intro g m₁ hledger hcells hg hg' hcall'
    refine ⟨hledger ▸ hmove, fun i ↦ by rw [hcells], ?_, ?_, ?_, fun hnot ↦ absurd hpc (hnot call)⟩
    · rw [hledger, hg, hhand]
      exact hcredit
    · rw [hledger, hg', hlogical, hlogical']
      split
      · exact wrapAdd_modEq _ _
      · rfl
    · intro call' hcall
      obtain ⟨hcall'', hpc'⟩ := hrunning call' (hcall' call' hcall)
      rw [hledger, hcall'']
      rw [hproducer] at hpc'
      exact hpc'
  cases r with
  | running call' =>
    cases hstep
    obtain ⟨hcall', -⟩ := hrunning call' rfl
    refine hframe rfl rfl ?_ ?_ fun call'' hcall ↦ ?_
    · rw [PublishFrame.hand]
      change call'.pc.register call'.chargeBytes + (f.reservation.weight + f.ownership.weight) = _
      rw [hres, howner, hcall']
      rfl
    · change f.reservation.logicalBytes f.slot + f.ownership.logicalBytes f.slot = _
      rw [hres, howner]
      rfl
    · cases hcall
      rfl
  | refused =>
    cases hstep
    refine hframe rfl rfl ?_ ?_ (by intros; contradiction)
    · change 0 + (f.reservation.weight + f.ownership.weight) = 0
      rw [hres, howner]
      rfl
    · change f.reservation.logicalBytes f.slot + f.ownership.logicalBytes f.slot = 0
      rw [hres, howner]
      rfl
  | reserved =>
    cases hstep
    refine hframe rfl rfl ?_ ?_ (by intros; contradiction)
    · change 0 + ((Handle.reservation f.slot call.worstCaseBytes call.chargeBytes).weight +
        f.ownership.weight) = call.chargeBytes
      rw [howner]
      simp [Handle.weight, Handle.liveCharge, Handle.register]
    · change (Handle.reservation f.slot call.worstCaseBytes call.chargeBytes).logicalBytes f.slot +
        f.ownership.logicalBytes f.slot = _
      rw [howner]
      simp [Handle.logicalBytes]

include hok htidy hfits hstep in
theorem publishCredit_handles (hpc : f.pc = .commit ∨ f.pc = .finishCommit ∨
      ∃ stages outcome, f.pc = .unwind stages outcome) : PublishCredit m m' f f' := by
  have hcapacity := hfits.capacity_lt
  unfold PublishFrame.Tidy at htidy
  rcases hpc with hpc | hpc | ⟨stages, outcome, hpc⟩
  · obtain ⟨hslot, -⟩ := hok.sized (.inl hpc)
    rw [hpc] at htidy
    have hmove := CreditLedger.handleStep_startCommit hcapacity (htidy.2.ok hslot hfits)
      f.record.serializedBytes
    rw [publishStep, hpc] at hstep
    cases hstep
    exact .onReservation hmove (by rw [htidy.2.1]; rfl) rfl rfl (by rw [hpc]; rfl) rfl
      (.inl ⟨rfl, rfl⟩) (fun _ ↦ rfl) (by rintro _ ⟨⟩)
  · obtain ⟨hslot, -, hle, -, hne, -, hle'⟩ := hok.sized (.inr (.inl hpc))
    obtain ⟨-, -, -, hpayload⟩ := config.maximumRecordBytes_bounds
    rw [hpc] at htidy
    obtain ⟨-, howner, hres⟩ := htidy
    have hmove := CreditLedger.handleStep_finishHandle (l := m.ledger) (h := f.reservation)
      hcapacity (by
        rw [hres, hfits.capacityBytes, hfits.producerCount]
        exact ⟨hslot, hle, hpayload, rfl, hne, hle'.trans hpayload⟩)
    rw [publishStep, hpc] at hstep
    dsimp only at hstep
    split at hstep <;> cases hstep
    · exact .onReservation hmove (by rw [hres]; rfl) rfl rfl (by rw [hpc]; rfl) rfl
        (.inr ⟨rfl, rfl, howner⟩) (fun _ ↦ rfl) (by rintro _ ⟨⟩)
    · exact .onReservation hmove (by rw [hres]; rfl) rfl rfl (by rw [hpc]; rfl) rfl
        (.inr ⟨rfl, rfl, howner⟩) (fun _ ↦ rfl) (by rintro _ ⟨⟩)
  · rw [hpc] at htidy
    rw [publishStep.eq_def, hpc] at hstep
    have hregister : f.pc.register = 0 := by
      rw [hpc]
      rfl
    have hslot : stages ≠ [] → f.slot < config.producerSlots := fun hne ↦
      (hok.ownsCell (by rw [hpc]; exact hne)).1
    rcases htidy with ⟨rfl, -⟩ | ⟨rfl, -⟩ | ⟨rfl, hcell, howner, hres⟩ | ⟨rfl, hcell, hres⟩ |
      ⟨rfl, hres, hcell⟩
    · cases hstep
      exact .same rfl rfl hregister.symm rfl rfl (fun _ ↦ rfl) (by intros; contradiction)
    · cases hstep
      exact .same rfl rfl hregister.symm rfl rfl (fun _ ↦ rfl) (by intros; contradiction)
    · have hmove := CreditLedger.handleStep_finishHandle (l := m.ledger) (h := f.reservation)
        hcapacity (by
          obtain ⟨-, -, -, hpayload⟩ := config.maximumRecordBytes_bounds
          rw [hres, hfits.capacityBytes, hfits.producerCount]
          exact ⟨hslot (List.cons_ne_nil _ _), hpayload⟩)
      cases hstep
      exact .onReservation hmove (by rw [hres]; rfl) rfl rfl hregister rfl (.inl ⟨rfl, rfl⟩)
        (fun _ ↦ rfl) (by rintro _ ⟨⟩)
    · have hmove := CreditLedger.handleStep_startRelease hcapacity
        (hres.ok (hslot (List.cons_ne_nil _ _)) hfits)
      cases hstep
      exact .onReservation hmove (by rw [hres.1]; rfl) rfl rfl hregister rfl (.inl ⟨rfl, rfl⟩)
        (fun _ ↦ rfl) (by rintro _ ⟨⟩)
    · cases hstep
      exact .same rfl rfl hregister.symm rfl rfl (KernelMemory.ownership_setCell (by rfl))
        (by intros; contradiction)

include hok htidy hfits hreserving hstep in
/-- Every step of a publication accounts for the credit of its slot. -/
theorem publishCredit (hemplace : f.pc ≠ .emplace) : PublishCredit m m' f f' := by
  cases hpc : f.pc with
  | emplace => exact absurd hpc hemplace
  | reserve call => exact publishCredit_reserve htidy hreserving hstep hpc
  | commit | finishCommit | unwind _ _ =>
    exact publishCredit_handles hok htidy hfits hstep (by simp [hpc])
  | finishEmplace =>
    rw [PublishFrame.Tidy, hpc] at htidy
    exact htidy.elim
  | done result =>
    rw [publishStep, hpc] at hstep
    cases hstep
  | recheckGeneration =>
    rw [publishStep, hpc] at hstep
    dsimp only at hstep
    repeat' split at hstep
    all_goals cases hstep
    · exact .same rfl rfl (by rw [hpc]; rfl) rfl rfl (fun _ ↦ rfl) (by intros; contradiction)
    · exact .same rfl rfl (by rw [hpc]; rfl) rfl rfl (fun _ ↦ rfl) (by intros; contradiction)
    · exact .same rfl rfl (by rw [hpc]; rfl) rfl rfl (fun _ ↦ rfl) (by intros; contradiction)
    · next call hcall =>
      rw [CreditLedger.startReserve] at hcall
      split at hcall <;> cases hcall
      refine .same rfl rfl (by rw [hpc]; rfl) rfl rfl (fun _ ↦ rfl) fun call' hcall' ↦ ?_
      cases hcall'
      rfl
  | _ =>
    have hregister : f.pc.register = 0 := by
      rw [hpc]
      rfl
    rw [publishStep, hpc] at hstep
    dsimp only at hstep
    repeat' split at hstep
    all_goals cases hstep
    all_goals
      refine .same rfl rfl hregister.symm rfl rfl ?_ (by rintro _ ⟨⟩)
      first | exact fun _ ↦ rfl | exact KernelMemory.ownership_setCell (by rfl)

end Steps

end Ulog
