import Ulog.Producer.Books

/-!
# Reclaiming retired slots

Whoever retires a slot tries to free it at once, and the consumer tries again after every Record of
the lane. A try gives up when the lane is claimed, and the publication that has claimed it does not
try when it lets go: if it is rejected, or if its Record is consumed before it lets go, the slot
stays retiring for good. `retired_slot_leaked` is such a run.

`TimelyRetirement` are the clean runs in which a publication lets go of an empty lane of a retiring
slot only while a try is under way, and the exchange that wins a slot finds its lane empty. In these
runs a retiring slot with an empty and unclaimed lane always has a try under way that will succeed:
the logical charge of a slot is the sum of what its calls and its Records account for, so for an
empty lane that nobody works on it is zero, and reconciliation takes everything back.
-/

namespace Ulog

variable {conv : Charconv} {config : ValidConfig} {m m' : KernelMemory}
  {f f' : PublishFrame} {choice : StepChoice} {k k' : Kernel} {t : ℕ} {pc : RetirePc}
  {g : ConsumeFrame} {pc' : ConsumePc} {action : KernelAction}

/-! ## Calls that hold nothing -/

theorem PublishFrame.Tidy.empty (h : f.Tidy config m) (hnot : ¬f.pc.Checked)
    (hunwind : ∀ stages, f.pc = .unwind stages (some .noProducerSlot) →
      stages = [] ∨ stages = [.clear]) : f.Empty := by
  unfold PublishFrame.Tidy at h
  revert h hnot hunwind
  cases f.pc with
  | activeState | activeGeneration | testAndSet | loadPositions | clearFull =>
    exact fun h _ _ ↦ h.1
  | admission | recheckState => exact fun h _ _ ↦ h.2.1
  | done _ => exact fun h _ _ ↦ h
  | unwind stages outcome =>
    intro h hnot hunwind
    rcases h with ⟨-, h⟩ | ⟨-, -, h⟩ | ⟨rfl, -⟩ | ⟨rfl, -⟩ | ⟨rfl, -⟩
    · exact h
    · exact h
    all_goals
      refine absurd (.inr ⟨List.cons_ne_nil _ _, ?_⟩) hnot
      rintro rfl
      rcases hunwind _ rfl with heq | heq <;> cases heq
  | recheckGeneration => exact fun _ hnot _ ↦ absurd (.inl rfl) hnot
  | _ => exact fun _ hnot _ ↦ absurd (.inr trivial) hnot

/-- Before the second check the cell of a call is free. -/
theorem PublishFrame.Tidy.ownership_of_not_checked (h : f.Tidy config m) (howns : f.pc.OwnsCell)
    (hnot : ¬f.pc.Checked) : (m.cells (f.cell config)).ownership = .empty := by
  unfold PublishFrame.Tidy at h
  revert h howns hnot
  cases f.pc with
  | activeState | activeGeneration | testAndSet | loadPositions | clearFull | clear | done _ =>
    exact fun _ howns ↦ howns.elim
  | admission | recheckState => exact fun h _ _ ↦ h.1.ownership
  | unwind stages outcome =>
    intro h howns _
    rcases h with ⟨rfl, -⟩ | ⟨-, h, -⟩ | ⟨-, h, -⟩ | ⟨-, h, -⟩ | ⟨-, -, h⟩
    · exact absurd rfl howns
    all_goals exact h.ownership
  | recheckGeneration => exact fun _ _ hnot ↦ absurd (.inl rfl) hnot
  | _ => exact fun _ _ hnot ↦ absurd (.inr trivial) hnot

/-- Before its second check a call does not touch the ledger. -/
theorem publishStep_ledger (hnot : ¬f.pc.Checked)
    (hunwind : ∀ stages, f.pc = .unwind stages (some .noProducerSlot) →
      stages = [] ∨ stages = [.clear])
    (hstep : publishStep conv config m f choice = some (m', f')) :
    m'.ledger = m.ledger ∧ (m'.lanes f.slot).publishedPosition =
      (m.lanes f.slot).publishedPosition ∧
      ∀ i, (m'.cells i).ownership = (m.cells i).ownership := by
  have hflag : ∀ b, ((m.setPublishing f.slot b).lanes f.slot).publishedPosition =
      (m.lanes f.slot).publishedPosition := by
    intro b
    simp only [KernelMemory.setPublishing, KernelMemory.setLane, Function.update_self]
  cases hpc : f.pc with
  | unwind stages outcome =>
    have hstages : stages = [] ∨ stages = [.clear] := by
      by_cases houtcome : outcome = some .noProducerSlot
      · exact hunwind stages (by rw [hpc, houtcome])
      · left
        by_contra hne
        rw [hpc] at hnot
        exact hnot (.inr ⟨hne, houtcome⟩)
    rw [publishStep.eq_def, hpc] at hstep
    rcases hstages with rfl | rfl <;> cases hstep
    · exact ⟨rfl, rfl, fun _ ↦ rfl⟩
    · exact ⟨rfl, hflag _, fun _ ↦ rfl⟩
  | done result =>
    rw [publishStep, hpc] at hstep
    cases hstep
  | activeState | activeGeneration | loadPositions | admission | recheckState =>
    rw [publishStep, hpc] at hstep
    dsimp only at hstep
    split at hstep <;> cases hstep <;> exact ⟨rfl, rfl, fun _ ↦ rfl⟩
  | testAndSet =>
    rw [publishStep, hpc] at hstep
    dsimp only at hstep
    split at hstep <;> cases hstep
    · exact ⟨rfl, rfl, fun _ ↦ rfl⟩
    · exact ⟨rfl, hflag _, fun _ ↦ rfl⟩
  | clearFull =>
    rw [publishStep, hpc] at hstep
    cases hstep
    exact ⟨rfl, hflag _, fun _ ↦ rfl⟩
  | recheckGeneration => exact absurd (.inl hpc) hnot
  | _ =>
    rw [hpc] at hnot
    exact absurd (.inr trivial) hnot

/-- A call that finds no producer has nothing to give back but its lane. -/
theorem publishStep_unwinding
    (hunwind : ∀ stages, f.pc = .unwind stages (some .noProducerSlot) →
      stages = [] ∨ stages = [.clear])
    (hstep : publishStep conv config m f choice = some (m', f')) :
    ∀ stages, f'.pc = .unwind stages (some .noProducerSlot) →
      stages = [] ∨ stages = [.clear] := by
  intro stages hpc'
  cases hpc : f.pc with
  | unwind stages' outcome =>
    rw [publishStep.eq_def, hpc] at hstep
    cases stages' with
    | nil =>
      cases hstep
      cases hpc'
    | cons stage stages' =>
      cases hstep
      cases hpc'
      rcases hunwind _ hpc with heq | heq <;> cases heq
      exact .inl rfl
  | done result =>
    rw [publishStep, hpc] at hstep
    cases hstep
  | _ =>
    rw [publishStep, hpc] at hstep
    dsimp only at hstep
    repeat' split at hstep
    all_goals cases hstep
    all_goals cases hpc'
    all_goals exact .inr rfl

/-! ## The logical charge of a slot -/

namespace Kernel

/-- The publication that holds the lane has these bytes of the logical charge in hand; without a
holder there are none. -/
def HeldBytes (k : Kernel) (p bytes : ℕ) : Prop :=
  (∃ t f, k.calls t = .publish f ∧ f.pc.Holds ∧ f.slot = p ∧ f.handLogical = bytes) ∨
    (∀ t f, k.calls t = .publish f → f.pc.Holds → f.slot ≠ p) ∧ bytes = 0

/-- The logical charge of a slot is what its calls and its Records account for. -/
structure Charged (config : ValidConfig) (k : Kernel) : Prop where
  logical : ∀ p bytes, k.HeldBytes p bytes → (k.memory.ledger.slots p).logicalCharge
    ≡ k.memory.laneTotal config (Handle.logicalBytes p) p + bytes [MOD wordModulus]
  reserving : ∀ t f call, k.calls t = .publish f → f.pc = .reserve call →
    call.pc.Ok (k.memory.ledger.slots f.slot).localCredit call.chargeBytes
  unwinding : ∀ t f stages, k.calls t = .publish f →
    f.pc = .unwind stages (some .noProducerSlot) → stages = [] ∨ stages = [.clear]

theorem Charged.logical_step (h : k.Charged config) {p hand hand' bytes bytes' : ℕ}
    (hstep : SlotStep config k.memory k'.memory p hand hand' bytes bytes')
    (hself : ∀ y', k'.HeldBytes p y' → ∃ y, k.HeldBytes p y ∧ y + bytes' = y' + bytes)
    (hothers : ∀ q y, q ≠ p → k'.HeldBytes q y → k.HeldBytes q y) (q y' : ℕ)
    (hy' : k'.HeldBytes q y') : (k'.memory.ledger.slots q).logicalCharge
      ≡ k'.memory.laneTotal config (Handle.logicalBytes q) q + y' [MOD wordModulus] := by
  by_cases hq : q = p
  · subst hq
    obtain ⟨y, hy, heq⟩ := hself y' hy'
    have hsum := hstep.logical.trans ((h.logical q y hy).add_right
      (k'.memory.laneTotal config (Handle.logicalBytes q) q + bytes'))
    refine Nat.ModEq.add_right_cancel'
      (k.memory.laneTotal config (Handle.logicalBytes q) q + bytes) ?_
    convert hsum using 1
    omega
  · rw [hstep.move.slots q hq, hstep.lanes q hq]
    exact h.logical q y' (hothers q y' hq hy')

/-- A thread that holds no lane, before and after, makes no difference. -/
theorem heldBytes_update {call : KernelCall} (hcalls : k'.calls = Function.update k.calls t call)
    (hold : ∀ f, k.calls t = .publish f → ¬f.pc.Holds)
    (hnew : ∀ f, call = .publish f → ¬f.pc.Holds) {p bytes : ℕ} (h : k'.HeldBytes p bytes) :
    k.HeldBytes p bytes := by
  rcases h with ⟨t', f, hf, hholds, hrest⟩ | ⟨hnone, rfl⟩
  · rw [hcalls] at hf
    rcases update_eq_cases hf with ⟨-, heq⟩ | ⟨-, hf⟩
    · exact absurd hholds (hnew f heq.symm)
    · exact .inl ⟨t', f, hf, hholds, hrest⟩
  · refine .inr ⟨fun t' f hf hholds ↦ ?_, rfl⟩
    have hne : t' ≠ t := by
      rintro rfl
      exact hold f hf hholds
    refine hnone t' f ?_ hholds
    rw [hcalls, Function.update_of_ne hne]
    exact hf

theorem Charged.other (h : k.Charged config) {call : KernelCall}
    (hcalls : k'.calls = Function.update k.calls t call)
    (hold : ∀ f, k.calls t = .publish f → ¬f.pc.Holds)
    (hnew : ∀ f, call = .publish f → f.pc = .activeState) {p hand hand' : ℕ}
    (hstep : SlotStep config k.memory k'.memory p hand hand' 0 0)
    (hlocal : ∀ t f call, k.calls t = .publish f → f.pc = .reserve call →
      (k'.memory.ledger.slots f.slot).localCredit =
        (k.memory.ledger.slots f.slot).localCredit) : k'.Charged config := by
  have hnotHolds : ∀ f, call = .publish f → ¬f.pc.Holds := by
    intro f hf
    rw [hnew f hf]
    exact id
  refine ⟨h.logical_step hstep (fun y hy ↦ ⟨y, heldBytes_update hcalls hold hnotHolds hy, rfl⟩)
    fun q y _ hy ↦ heldBytes_update hcalls hold hnotHolds hy, fun t' f c hf hpc ↦ ?_,
    fun t' f stages hf hpc ↦ ?_⟩
  · rw [hcalls] at hf
    rcases update_eq_cases hf with ⟨-, heq⟩ | ⟨-, hf⟩
    · cases (hnew f heq.symm).symm.trans hpc
    · rw [hlocal t' f c hf hpc]
      exact h.reserving t' f c hf hpc
  · rw [hcalls] at hf
    rcases update_eq_cases hf with ⟨-, heq⟩ | ⟨-, hf⟩
    · cases (hnew f heq.symm).symm.trans hpc
    · exact h.unwinding t' f stages hf hpc

/-- The holder of a lane before and after a step of a publication on it. -/
theorem heldBytes_publish (hinv : k.Inv conv config) (hf : k.calls t = .publish f)
    (hstep : publishStep conv config k.memory f choice = some (m', f'))
    (hempty : ¬f.pc.Holds → f.handLogical = 0) (hempty' : ¬f'.pc.Holds → f'.handLogical = 0) :
    (∀ y', (k.afterPublish t f m' f').HeldBytes f.slot y' →
      ∃ y, k.HeldBytes f.slot y ∧ y + f'.handLogical = y' + f.handLogical) ∧
    ∀ q y, q ≠ f.slot → (k.afterPublish t f m' f').HeldBytes q y → k.HeldBytes q y := by
  obtain ⟨_, e⟩ := hinv.stepEffect hf hstep
  have hself : (k.afterPublish t f m' f').calls t = .publish f' := Function.update_self ..
  have hkept : ∀ {t'}, t' ≠ t → (k.afterPublish t f m' f').calls t' = k.calls t' := fun hne ↦
    Function.update_of_ne hne ..
  -- if the call does not hold the lane and takes it, nobody holds it
  have hacquire : ¬f.pc.Holds → f'.pc.Holds → k.HeldBytes f.slot 0 := by
    intro hnot hholds'
    refine .inr ⟨fun t' g hg hholds hslot ↦ ?_, rfl⟩
    have hflag := hinv.holds t' g hg hholds
    rw [hslot, e.acquire hnot hholds'] at hflag
    cases hflag
  constructor
  · rintro y' (⟨t', g, hg, hholds, hslot, rfl⟩ | ⟨hnone, rfl⟩)
    · by_cases ht : t' = t
      · subst ht
        cases hself.symm.trans hg
        by_cases hheld : f.pc.Holds
        · exact ⟨f.handLogical, .inl ⟨t', f, hf, hheld, rfl, rfl⟩, Nat.add_comm ..⟩
        · exact ⟨0, hacquire hheld hholds, by rw [hempty hheld, Nat.add_comm]⟩
      · rw [hkept ht] at hg
        have hnot : ¬f.pc.Holds := fun hheld ↦ ht (hinv.unique t' t g f hg hf hholds hheld hslot)
        have hnot' : ¬f'.pc.Holds := by
          intro hholds'
          have hflag := hinv.holds t' g hg hholds
          rw [hslot, e.acquire hnot hholds'] at hflag
          cases hflag
        exact ⟨g.handLogical, .inl ⟨t', g, hg, hholds, hslot, rfl⟩, by
          rw [hempty hnot, hempty' hnot']⟩
    · have hnot' : ¬f'.pc.Holds := fun hholds' ↦ hnone t f' hself hholds' e.slot
      by_cases hheld : f.pc.Holds
      · exact ⟨f.handLogical, .inl ⟨t, f, hf, hheld, rfl, rfl⟩, by
          rw [hempty' hnot', Nat.add_comm]⟩
      · refine ⟨0, .inr ⟨fun t' g hg hholds ↦ ?_, rfl⟩, by rw [hempty hheld, hempty' hnot']⟩
        have hne : t' ≠ t := by
          rintro rfl
          cases hf.symm.trans hg
          exact hheld hholds
        exact hnone t' g ((hkept hne).trans hg) hholds
  · rintro q y hq (⟨t', g, hg, hholds, rfl, rfl⟩ | ⟨hnone, rfl⟩)
    · have hne : t' ≠ t := by
        rintro rfl
        cases hself.symm.trans hg
        exact hq e.slot
      exact .inl ⟨t', g, (hkept hne).symm.trans hg, hholds, rfl, rfl⟩
    · refine .inr ⟨fun t' g hg hholds hslot ↦ ?_, rfl⟩
      have hne : t' ≠ t := by
        rintro rfl
        cases hf.symm.trans hg
        exact hq hslot.symm
      exact hnone t' g ((hkept hne).trans hg) hholds hslot

theorem Charged.slotStep (h : k.Charged config) (hinv : k.Inv conv config)
    (htidy : k.Tidy config) (hfits : k.memory.ledger.Fits config) (hf : k.calls t = .publish f)
    (hstep : publishStep conv config k.memory f choice = some (m', f')) :
    SlotStep config k.memory m' f.slot f.hand f'.hand f.handLogical f'.handLogical ∧
      ∀ c, f'.pc = .reserve c →
        c.pc.Ok (m'.ledger.slots f.slot).localCredit c.chargeBytes := by
  have hframe := htidy.frames t f hf
  by_cases hemplace : f.pc = .emplace
  · refine ⟨(SlotStep.emplace hframe hemplace hstep).1, fun c hc ↦ ?_⟩
    rw [publishStep_startReserve (by rw [hemplace]; nofun) hstep hc]
    trivial
  · have hcredit := publishCredit (hinv.frames t f hf) hframe hfits
      (fun c ↦ h.reserving t f c hf) hstep hemplace
    exact ⟨.of_publishCredit hcredit, hcredit.reserving⟩

theorem Charged.publish (h : k.Charged config) (hinv : k.Inv conv config) (htidy : k.Tidy config)
    (hfits : k.memory.ledger.Fits config) (hf : k.calls t = .publish f)
    (hstep : publishStep conv config k.memory f choice = some (m', f')) :
    (k.afterPublish t f m' f').Charged config := by
  have hok := hinv.frames t f hf
  have hframe := htidy.frames t f hf
  have hunwind := fun stages ↦ h.unwinding t f stages hf
  have hunwind' := publishStep_unwinding hunwind hstep
  have hframe' : f'.Tidy config m' :=
    (htidy.publish hinv hf hstep).frames t f' (Function.update_self ..)
  have hzero : ∀ {g : PublishFrame}, g.Empty → g.handLogical = 0 := by
    intro g hg
    rw [PublishFrame.handLogical, hg.1, hg.2]
    rfl
  have hempty : ¬f.pc.Holds → f.handLogical = 0 := fun hnot ↦
    hzero (hframe.empty (fun hc ↦ hnot hc.holds) hunwind)
  have hempty' : ¬f'.pc.Holds → f'.handLogical = 0 := fun hnot ↦
    hzero (hframe'.empty (fun hc ↦ hnot hc.holds) hunwind')
  obtain ⟨hself, hothers⟩ := heldBytes_publish hinv hf hstep hempty hempty'
  have hslot := h.slotStep hinv htidy hfits hf hstep
  refine ⟨h.logical_step hslot.1 hself hothers, fun t' g c hg hpc ↦ ?_, fun t' g stages hg hpc ↦ ?_⟩
  · obtain ⟨_, e⟩ := hinv.stepEffect hf hstep
    rcases update_eq_cases hg with ⟨-, heq⟩ | ⟨ht, hg⟩
    · cases heq
      rw [e.slot]
      exact hslot.2 c hpc
    · -- the lane has one holder
      have hholds : g.pc.Holds := by
        rw [hpc]
        trivial
      have hledger : m'.ledger.slots g.slot = k.memory.ledger.slots g.slot := by
        by_cases hsame : g.slot = f.slot
        · have hnot : ¬f.pc.Checked := fun hc ↦
            ht (hinv.unique t' t g f hg hf hholds hc.holds hsame)
          rw [(publishStep_ledger hnot hunwind hstep).1]
        · exact hslot.1.move.slots _ hsame
      change c.pc.Ok (m'.ledger.slots g.slot).localCredit c.chargeBytes
      rw [hledger]
      exact h.reserving t' g c hg hpc
  · rcases update_eq_cases hg with ⟨-, heq⟩ | ⟨-, hg⟩
    · cases heq
      exact hunwind' stages hpc
    · exact h.unwinding t' g stages hg hpc

/-- A retirement at work on the ledger has the slot to itself. -/
theorem SlotInv.ledger_retireStep (h : k.SlotInv) {p : ℕ}
    (hcall : (k.calls t).retirement = some (p, pc)) {t' : ℕ} (hf : k.calls t' = .publish f)
    (hchecked : f.pc.Checked) :
    (retireStep k.memory p choice pc).1.ledger.slots f.slot = k.memory.ledger.slots f.slot := by
  by_cases hreconcile : ∃ pc', pc = .reconcile pc'
  · obtain ⟨pc, rfl⟩ := hreconcile
    have hne := h.not_checked ⟨_, hcall, trivial⟩ hf hchecked
    exact (retireStep_slotMove k.memory p choice _).slots _ hne
  · rw [retireStep_ledger fun pc' heq ↦ hreconcile ⟨pc', heq⟩]

theorem Charged.callStep (h : k.Charged config) (hslots : k.SlotInv) {call call' : KernelCall}
    (hcall : k.calls t = call) (hold : ∀ f, call ≠ .publish f) (hnew : ∀ f, call' ≠ .publish f)
    (hstep : CallStep config k.memory choice call m' call') (hmemory : k'.memory = m')
    (hcalls : k'.calls = Function.update k.calls t call') : k'.Charged config := by
  have hold' : ∀ f, k.calls t = .publish f → ¬f.pc.Holds := fun f hf ↦
    absurd (hcall.symm.trans hf) (hold f)
  have hnew' : ∀ f, call' = .publish f → f.pc = .activeState := fun f hf ↦ absurd hf (hnew f)
  have hquiet : k'.memory.ledger = k.memory.ledger → k'.memory.cells = k.memory.cells →
      k'.Charged config := by
    intro hledger hcells
    have hsame : SlotStep config k.memory k'.memory 0 0 0 0 0 :=
      .same hledger fun i ↦ by rw [hcells]
    exact h.other hcalls hold' hnew' hsame fun _ _ _ _ _ ↦ by rw [hledger]
  cases hstep with
  | @retirement _ p pc hretirement =>
    have hslot : SlotStep config k.memory k'.memory p pc.register
        (RetirePc.nextRegister (retireStep k.memory p choice pc).2) 0 0 := by
      rw [hmemory]
      exact SlotStep.retireStep p choice pc
    refine h.other hcalls hold' hnew' hslot fun t' f c hf hpc ↦ ?_
    have hchecked : f.pc.Checked := by
      rw [hpc]
      exact .inr trivial
    rw [hmemory, hslots.ledger_retireStep (by rw [hcall]; exact hretirement) hf hchecked]
  | quiet => exact hquiet (by rw [hmemory]) (by rw [hmemory])
  | retire => exact hquiet (by rw [hmemory]; rfl) (by rw [hmemory]; rfl)
  | register => exact hquiet (by rw [hmemory]; rfl) (by rw [hmemory]; rfl)

theorem Charged.consume (h : k.Charged config) (hinv : k.Inv conv config) (htidy : k.Tidy config)
    (hfits : k.memory.ledger.Fits config) (hslots : k.SlotInv) (hg : k.calls t = .consume g)
    (hstep : consumeStep config k.memory g choice = some (m', pc')) :
    (k.afterConsume t g m' pc').Charged config := by
  obtain ⟨rfl, hok⟩ := hinv.consumer t g hg
  have hframe := htidy.consumer g hg
  have hold : ∀ f, k.calls consumerThread = .publish f → ¬f.pc.Holds := fun f hf ↦
    nomatch hg.symm.trans hf
  by_cases hretire : ∃ lane pc, g.pc = .retire lane pc
  · obtain ⟨lane, pc, hpc⟩ := hretire
    exact h.callStep hslots hg (fun f hf ↦ by cases hf) (fun f hf ↦ by cases hf)
      (.of_consume hpc hstep) rfl rfl
  by_cases hrelease : ∃ claim, g.pc = .releaseOwnership claim ∨ g.pc = .finishOwnership claim
  · obtain ⟨claim, hpc⟩ := hrelease
    obtain ⟨hhandle, hproducer, hothers⟩ := consumeStep_handle hok hframe hfits hpc hstep
    have hcell : claim.cell = config.cellIndex claim.lane claim.readPosition := by
      refine ((ConsumeFrame.ok_of_clearing ?_).mp hok).2
      rcases hpc with hpc | hpc <;> rw [hpc] <;> rfl
    rw [hcell] at hhandle hproducer hothers
    refine h.other rfl hold (fun f hf ↦ by cases hf) (.onCell rfl hhandle hproducer hothers)
      fun t' f c _ _ ↦ ?_
    change (m'.ledger.slots f.slot).localCredit = _
    by_cases hsame : f.slot = claim.lane
    · rw [hsame, ← hproducer, hhandle.localCredit]
    · rw [hhandle.slots _ (by rw [hproducer]; exact hsame)]
  · obtain ⟨hledger, hcells⟩ := consumeStep_ledger (fun claim hpc ↦ hrelease ⟨claim, .inl hpc⟩)
      (fun claim hpc ↦ hrelease ⟨claim, .inr hpc⟩)
      (fun lane pc hpc ↦ hretire ⟨lane, pc, hpc⟩) hstep
    have hsame : SlotStep config k.memory m' 0 0 0 0 0 := .same hledger hcells
    refine h.other rfl hold (fun f hf ↦ by cases hf) hsame fun _ _ _ _ _ ↦ ?_
    change (m'.ledger.slots _).localCredit = _
    rw [hledger]

theorem Charged.step (h : k.Charged config) (hinv : k.Inv conv config) (htidy : k.Tidy config)
    (hfits : k.memory.ledger.Fits config) (hslots : k.SlotInv)
    (hstep : k.step conv config action = some k') : k'.Charged config := by
  have hsame : ∀ {m' : KernelMemory}, m'.ledger = k.memory.ledger → m'.cells = k.memory.cells →
      SlotStep config k.memory m' 0 0 0 0 0 := fun hledger hcells ↦
    .same hledger fun i ↦ by rw [hcells]
  cases Move.of_step hstep with
  | enter hidle hcall =>
    refine h.other rfl (fun f hf ↦ nomatch hidle.symm.trans hf) (fun f hf ↦ ?_) (hsame rfl rfl)
      fun _ _ _ _ _ ↦ rfl
    cases hcall <;> cases hf
    rfl
  | closeAdmission => exact ⟨h.logical, h.reserving, h.unwinding⟩
  | publish hf hcall => exact h.publish hinv htidy hfits hf hcall
  | consume hf hcall => exact h.consume hinv htidy hfits hslots hf hcall
  | retire hf hcall =>
    exact h.callStep hslots hf (fun f hf ↦ by cases hf) (fun f hf ↦ by cases hf)
      (.of_retire hcall) rfl rfl
  | quiescent hf hcall =>
    exact h.callStep hslots hf (fun f hf ↦ by cases hf) (fun f hf ↦ by cases hf)
      (.of_quiescent hcall) rfl rfl
  | register hf hcall =>
    exact h.callStep hslots hf (fun f hf ↦ by cases hf) (fun f hf ↦ by cases hf)
      (.of_register hcall) rfl rfl
  | returnPublish hf hpc =>
    refine h.other rfl (fun f hf' ↦ ?_) (fun f hf ↦ by cases hf) (hsame rfl rfl)
      fun _ _ _ _ _ ↦ rfl
    cases hf.symm.trans hf'
    rw [hpc]
    exact id
  | «return» hcall _ =>
    exact h.other rfl (fun f hf ↦ absurd hf (hcall f)) (fun f hf ↦ by cases hf) (hsame rfl rfl)
      fun _ _ _ _ _ ↦ rfl

/-- On a lane that is empty and that nobody past the second check works on, nothing is charged. -/
theorem Charged.logical_eq_zero (h : k.Charged config) (htidy : k.Tidy config)
    (hfits : k.memory.ledger.Fits config) {p : ℕ}
    (hlane : (k.memory.lanes p).readPosition = (k.memory.lanes p).publishedPosition)
    (hnot : ∀ t f, k.calls t = .publish f → f.pc.Checked → f.slot ≠ p) :
    (k.memory.ledger.slots p).logicalCharge = 0 := by
  have hempty : ∀ t f, k.calls t = .publish f → f.slot = p → f.Empty := fun t f hf hslot ↦
    (htidy.frames t f hf).empty (fun hc ↦ hnot t f hf hc hslot) fun stages ↦
      h.unwinding t f stages hf
  have hcells : k.memory.laneTotal config (Handle.logicalBytes p) p = 0 := by
    refine Finset.sum_eq_zero fun i _ ↦ ?_
    obtain ⟨position, hread, hlt, hcell⟩ :=
      config.exists_position p (k.memory.lanes p).readPosition i
    rw [← hcell]
    have hfree : (k.memory.cells (config.cellIndex p position)).ownership = .empty := by
      rcases htidy.free p position (by omega) hlt with ⟨t, f, hf, howns, rfl, rfl⟩ | hfree
      · exact (htidy.frames t f hf).ownership_of_not_checked howns fun hc ↦ hnot t f hf hc rfl
      · exact hfree.ownership
    rw [hfree]
    rfl
  have hbytes : k.HeldBytes p 0 := by
    by_cases hheld : ∃ t f, k.calls t = .publish f ∧ f.pc.Holds ∧ f.slot = p
    · obtain ⟨t, f, hf, hholds, hslot⟩ := hheld
      have hnone := hempty t f hf hslot
      refine .inl ⟨t, f, hf, hholds, hslot, ?_⟩
      rw [PublishFrame.handLogical, hnone.1, hnone.2]
      rfl
    · exact .inr ⟨fun t f hf hholds hslot ↦ hheld ⟨t, f, hf, hholds, hslot⟩, rfl⟩
  have hmod := h.logical p 0 hbytes
  rw [hcells] at hmod
  exact hmod.eq_of_lt_of_lt (hfits.logical_lt p) (by decide)

end Kernel

theorem consumeStep_controls (hretire : ∀ lane pc, g.pc ≠ .retire lane pc)
    (hstep : consumeStep config m g choice = some (m', pc')) : m'.controls = m.controls := by
  cases hpc : g.pc with
  | retire lane pc => exact absurd hpc (hretire lane pc)
  | _ =>
    rw [consumeStep, hpc] at hstep
    dsimp only at hstep
    repeat' split at hstep
    all_goals cases hstep
    all_goals rfl

/-- Having acknowledged its claim, the consumer tries to free the slot. -/
theorem consumeStep_acknowledge {claim : ConsumptionClaim} (hpc : g.pc = .acknowledge claim)
    (hlane : claim.lane < config.producerSlots)
    (hstep : consumeStep config m g choice = some (m', pc')) :
    pc' = .retire claim.lane (.drained .testPublishing) := by
  rw [consumeStep, hpc] at hstep
  cases hstep
  rw [startRetirement, if_pos hlane]

/-! ## Tries under way -/

/-- The next step gives up the claim on the lane. -/
def PublishPc.LetsGo : PublishPc → Prop
  | .clearFull | .clear | .unwind [.clear] _ => True
  | _ => False

instance (pc : PublishPc) : Decidable pc.LetsGo := by
  unfold PublishPc.LetsGo
  split <;> infer_instance

theorem publishStep_letsGo {admissions : List Admission} (hok : f.Ok conv config m admissions)
    (hholds : f.pc.Holds) (hnot : ¬f'.pc.Holds)
    (hstep : publishStep conv config m f choice = some (m', f')) : f.pc.LetsGo := by
  cases hpc : f.pc with
  | activeState | activeGeneration | testAndSet | done _ =>
    rw [hpc] at hholds
    exact hholds.elim
  | clearFull | clear => trivial
  | unwind stages outcome =>
    rw [PublishFrame.Ok, hpc] at hok
    rw [publishStep, hpc] at hstep
    rw [hpc] at hholds
    obtain ⟨-, l, rfl, -⟩ := hok.resolve_left hholds
    cases l with
    | nil => trivial
    | cons stage l =>
      cases hstep
      exact absurd (List.append_ne_nil_of_right_ne_nil _ (List.cons_ne_nil _ _)) hnot
  | _ =>
    rw [publishStep, hpc] at hstep
    dsimp only at hstep
    repeat' split at hstep
    all_goals cases hstep
    all_goals exact absurd (by first | trivial | exact List.cons_ne_nil _ _) hnot

/-- The lane has no published Record that is not consumed. -/
def Lane.IsEmpty (lane : Lane) : Prop := lane.readPosition = lane.publishedPosition

/-- On an empty lane that stays unclaimed this try comes to the exchange. -/
def RetirePc.Promising (lane : Lane) : RetirePc → Prop
  | .drained .testPublishing | .drained .loadPosition | .exchange => True
  | .drained (.compare loadedRead position) =>
    position = if loadedRead then lane.publishedPosition else lane.readPosition
  | _ => False

theorem RetirePc.Promising.congr {lane lane' : Lane} (h : pc.Promising lane)
    (hread : lane'.readPosition = lane.readPosition)
    (hpublished : lane'.publishedPosition = lane.publishedPosition) : pc.Promising lane' := by
  unfold RetirePc.Promising at h ⊢
  rw [hread, hpublished]
  exact h

/-- What reconciliation has left of the slot's credit. -/
def RetirePc.Settled (slot : CreditSlot) : RetirePc → Prop
  | .reconcile (.gather _) | .reconcile .giveBack => slot.returnedCredit = 0
  | .bumpGeneration | .storeFree => slot.localCredit = 0 ∧ slot.returnedCredit = 0
  | .restore => False
  | _ => True

/-- The owner of a slot that is charged with nothing goes on to free it. -/
theorem retireStep_settled (choice : StepChoice) {p : ℕ} (hp : p < m.ledger.producerCount)
    (hlogical : (m.ledger.slots p).logicalCharge = 0) (howns : pc.Owns)
    (hsettled : pc.Settled (m.ledger.slots p)) :
    (∃ pc', (retireStep m p choice pc).2 = some pc' ∧ pc'.Owns ∧
        pc'.Settled ((retireStep m p choice pc).1.ledger.slots p) ∧
        ((retireStep m p choice pc).1.controls p).state = (m.controls p).state) ∨
      (retireStep m p choice pc).2 = none ∧
        ((retireStep m p choice pc).1.controls p).state = .free ∧
        ((retireStep m p choice pc).1.ledger.slots p).localCredit = 0 ∧
        ((retireStep m p choice pc).1.ledger.slots p).returnedCredit = 0 := by
  cases pc with
  | drained pc => exact howns.elim
  | exchange => exact howns.elim
  | restore => exact hsettled.elim
  | bumpGeneration =>
    refine .inl ⟨.storeFree, rfl, trivial, hsettled, ?_⟩
    simp only [retireStep, KernelMemory.setControl, Function.update_self]
  | storeFree =>
    refine .inr ⟨rfl, ?_, hsettled⟩
    simp only [retireStep, KernelMemory.setState, KernelMemory.setControl, Function.update_self]
  | reconcile pc =>
    refine .inl ?_
    rw [retireStep]
    cases pc with
    | loadLogical =>
      have hgo : ¬(¬p < m.ledger.producerCount ∨ (m.ledger.slots p).logicalCharge ≠ 0) := by
        rintro (h | h)
        · exact h hp
        · exact h hlogical
      rw [CreditLedger.reconcileStep, if_neg hgo]
      exact ⟨_, rfl, trivial, trivial, rfl⟩
    | drain =>
      refine ⟨_, rfl, trivial, ?_, rfl⟩
      exact congrArg CreditSlot.returnedCredit (m.ledger.slots_setSlot_self ..)
    | gather returned =>
      refine ⟨_, rfl, trivial, ?_, rfl⟩
      refine (congrArg CreditSlot.returnedCredit (m.ledger.slots_setSlot_self ..)).trans ?_
      exact hsettled
    | giveBack =>
      rw [CreditLedger.reconcileStep]
      dsimp only
      by_cases hlocal : (m.ledger.slots p).localCredit = 0
      · rw [if_pos hlocal]
        exact ⟨_, rfl, trivial, ⟨hlocal, hsettled⟩, rfl⟩
      · rw [if_neg hlocal]
        refine ⟨_, rfl, trivial, ⟨?_, ?_⟩, rfl⟩
        · exact congrArg CreditSlot.localCredit (m.ledger.slots_setSlot_self ..)
        · refine (congrArg CreditSlot.returnedCredit (m.ledger.slots_setSlot_self ..)).trans ?_
          exact hsettled

/-- A try that does not win the slot leaves it alone, and does not own it afterwards. -/
theorem retireStep_loses {p : ℕ} (howns : ¬pc.Owns)
    (hloses : ¬(pc = .exchange ∧ (m.controls p).state = .retiring)) :
    (retireStep m p choice pc).1 = m ∧
      ∀ pc', (retireStep m p choice pc).2 = some pc' → ¬pc'.Owns := by
  cases pc with
  | drained pc =>
    refine ⟨retireStep_drained p choice pc, fun pc' hnext ↦ ?_⟩
    rw [retireStep] at hnext
    split at hnext <;> cases hnext <;> exact id
  | exchange =>
    rw [retireStep, if_neg fun hstate ↦ hloses ⟨rfl, hstate⟩]
    exact ⟨rfl, (by intros; contradiction)⟩
  | _ => exact absurd trivial howns

/-- On an unclaimed empty lane a promising try comes closer to the exchange. -/
theorem retireStep_promising {p : ℕ} {pc : DrainPc} (hempty : (m.lanes p).IsEmpty)
    (hunclaimed : (m.lanes p).publishing = false)
    (hpc : (RetirePc.drained pc).Promising (m.lanes p)) :
    ∃ pc', (retireStep m p choice (.drained pc)).2 = some pc' ∧ pc'.Promising (m.lanes p) := by
  rw [retireStep]
  cases pc with
  | testPublishing =>
    rw [drainStep, hunclaimed]
    exact ⟨_, rfl, trivial⟩
  | loadPosition =>
    rw [drainStep]
    refine ⟨_, rfl, ?_⟩
    split
    · exact hempty
    · exact hempty.symm
  | compare loadedRead position =>
    have heq : (if loadedRead then (m.lanes p).publishedPosition
        else (m.lanes p).readPosition) = position := hpc.symm
    rw [drainStep]
    simp only [heq, decide_true]
    exact ⟨_, rfl, trivial⟩

namespace Kernel

/-- A try on the slot is under way that comes to the exchange if the lane stays as it is. -/
def Tries (k : Kernel) (p : ℕ) : Prop :=
  ∃ t pc, (k.calls t).retirement = some (p, pc) ∧ pc.Promising (k.memory.lanes p)

/-- The exchange finds the lane not claimed and empty, and a publication lets go of an empty lane of
a retiring slot only while a try on the slot is under way. -/
def TimelyRetirement (k : Kernel) : KernelAction → Prop
  | .advance t choice => k.CleanRetirement (.advance t choice) ∧
    (∀ x ∈ (k.calls t).retirement, x.2 = .exchange →
      (k.memory.controls x.1).state = .retiring → (k.memory.lanes x.1).IsEmpty) ∧
    ∀ f, k.calls t = .publish f → f.pc.LetsGo →
      (k.memory.controls f.slot).state = .retiring → (k.memory.lanes f.slot).IsEmpty →
      k.Tries f.slot
  | _ => True

/-- What holds of a slot in timely runs. -/
structure Reclaims (config : ValidConfig) (k : Kernel) (p : ℕ) : Prop where
  exists_slot : (k.memory.controls p).state ≠ .free → p < config.producerSlots
  free : (k.memory.controls p).state = .free → (k.memory.lanes p).IsEmpty ∧
    (k.memory.ledger.slots p).localCredit = 0 ∧ (k.memory.ledger.slots p).returnedCredit = 0
  owner : ∀ t pc, (k.calls t).retirement = some (p, pc) → pc.Owns →
    (k.memory.lanes p).IsEmpty ∧ pc.Settled (k.memory.ledger.slots p)
  owned : (k.memory.controls p).state = .reconciling → ∃ t, k.Owns t p
  tried : (k.memory.controls p).state = .retiring → (k.memory.lanes p).IsEmpty →
    (k.memory.lanes p).publishing = false → k.Tries p

section Steps

variable {p : ℕ} {call : KernelCall}

/-- The slot, the positions of its lane and its credit are as they were. -/
structure SameSlot (m m' : KernelMemory) (p : ℕ) : Prop where
  state : (m'.controls p).state = (m.controls p).state
  read : (m'.lanes p).readPosition = (m.lanes p).readPosition
  published : (m'.lanes p).publishedPosition = (m.lanes p).publishedPosition
  localCredit : (m'.ledger.slots p).localCredit = (m.ledger.slots p).localCredit
  returnedCredit : (m'.ledger.slots p).returnedCredit = (m.ledger.slots p).returnedCredit

theorem SameSlot.isEmpty (h : SameSlot m m' p) :
    (m'.lanes p).IsEmpty ↔ (m.lanes p).IsEmpty := by
  rw [Lane.IsEmpty, Lane.IsEmpty, h.read, h.published]

theorem SameSlot.settled (h : SameSlot m m' p) (hpc : pc.Settled (m.ledger.slots p)) :
    pc.Settled (m'.ledger.slots p) := by
  unfold RetirePc.Settled at hpc ⊢
  rw [h.localCredit, h.returnedCredit]
  exact hpc

theorem Reclaims.other (h : k.Reclaims config p) (hsame : SameSlot k.memory k'.memory p)
    (hcalls : k'.calls = Function.update k.calls t call)
    (hold : ∀ pc, (k.calls t).retirement = some (p, pc) → ¬pc.Owns)
    (hnew : ∀ pc, call.retirement = some (p, pc) → ¬pc.Owns)
    (htried : (k.memory.controls p).state = .retiring → (k.memory.lanes p).IsEmpty →
      (k'.memory.lanes p).publishing = false → k'.Tries p) : k'.Reclaims config p := by
  refine ⟨fun hstate ↦ ?_, fun hstate ↦ ?_, fun t' pc hpc howns ↦ ?_, fun hstate ↦ ?_,
    fun hstate hempty ↦ ?_⟩
  · rw [hsame.state] at hstate
    exact h.exists_slot hstate
  · rw [hsame.state] at hstate
    rw [hsame.isEmpty, hsame.localCredit, hsame.returnedCredit]
    exact h.free hstate
  · have hne : t' ≠ t := by
      rintro rfl
      rw [hcalls, Function.update_self] at hpc
      exact hnew pc hpc howns
    rw [hcalls, Function.update_of_ne hne] at hpc
    obtain ⟨hempty, hsettled⟩ := h.owner t' pc hpc howns
    exact ⟨hsame.isEmpty.mpr hempty, hsame.settled hsettled⟩
  · rw [hsame.state] at hstate
    obtain ⟨t', pc, hpc, howns⟩ := h.owned hstate
    have hne : t' ≠ t := by
      rintro rfl
      exact hold pc hpc howns
    refine ⟨t', pc, ?_, howns⟩
    rw [hcalls, Function.update_of_ne hne, hpc]
  · rw [hsame.state] at hstate
    rw [hsame.isEmpty] at hempty
    exact htried hstate hempty

/-- A try goes on while other threads leave the positions of its lane alone. -/
theorem Tries.kept (h : k.Tries p) (hcalls : k'.calls = Function.update k.calls t call)
    (hold : ∀ pc, (k.calls t).retirement ≠ some (p, pc))
    (hread : (k'.memory.lanes p).readPosition = (k.memory.lanes p).readPosition)
    (hpublished : (k'.memory.lanes p).publishedPosition = (k.memory.lanes p).publishedPosition) :
    k'.Tries p := by
  obtain ⟨t', pc, hpc, hpromising⟩ := h
  have hne : t' ≠ t := by
    rintro rfl
    exact hold pc hpc
  refine ⟨t', pc, ?_, hpromising.congr hread hpublished⟩
  rw [hcalls, Function.update_of_ne hne, hpc]

theorem Reclaims.frame (h : k.Reclaims config p) (hsame : SameSlot k.memory k'.memory p)
    (hflag : (k'.memory.lanes p).publishing = (k.memory.lanes p).publishing)
    (hcalls : k'.calls = Function.update k.calls t call)
    (hold : ∀ pc, (k.calls t).retirement ≠ some (p, pc))
    (hnew : ∀ pc, call.retirement = some (p, pc) → ¬pc.Owns) : k'.Reclaims config p :=
  h.other hsame hcalls (fun pc hpc ↦ absurd hpc (hold pc)) hnew fun hstate hempty hunclaimed ↦
    (h.tried hstate hempty (hflag.symm.trans hunclaimed)).kept hcalls hold hsame.read
      hsame.published

/-- A slot that is active or retiring, with no owner: only the tries count. -/
theorem reclaims_of_unowned (hslot : (k'.memory.controls p).state ≠ .free →
      p < config.producerSlots) (hfree : (k'.memory.controls p).state ≠ .free)
    (hreconciling : (k'.memory.controls p).state ≠ .reconciling)
    (howner : ∀ t, ¬k'.Owns t p)
    (htried : (k'.memory.controls p).state = .retiring → (k'.memory.lanes p).IsEmpty →
      (k'.memory.lanes p).publishing = false → k'.Tries p) : k'.Reclaims config p :=
  ⟨hslot, fun hstate ↦ absurd hstate hfree, fun t pc hpc howns ↦ absurd ⟨pc, hpc, howns⟩ (howner t),
    fun hstate ↦ absurd hstate hreconciling, htried⟩

theorem SlotInv.not_owns (h : k.SlotInv) (hstate : (k.memory.controls p).state ≠ .reconciling)
    (t : ℕ) : ¬k.Owns t p := fun howns ↦ hstate (h.owner t p howns)

theorem owns_update (hcalls : k'.calls = Function.update k.calls t call)
    (hnew : ∀ pc, call.retirement = some (p, pc) → ¬pc.Owns) {t' : ℕ} (h : k'.Owns t' p) :
    k.Owns t' p := by
  obtain ⟨pc, hpc, howns⟩ := h
  rw [hcalls] at hpc
  by_cases ht : t' = t
  · subst ht
    rw [Function.update_self] at hpc
    exact absurd howns (hnew pc hpc)
  · rw [Function.update_of_ne ht] at hpc
    exact ⟨pc, hpc, howns⟩

theorem Reclaims.publish (h : k.Reclaims config p) (hinv : k.Inv conv config)
    (htidy : k.Tidy config) (hfits : k.memory.ledger.Fits config) (hslots : k.SlotInv)
    (hcharged : k.Charged config) (htimely : k.TimelyRetirement (.advance t choice))
    (hf : k.calls t = .publish f)
    (hstep : publishStep conv config k.memory f choice = some (m', f')) :
    (k.afterPublish t f m' f').Reclaims config p := by
  have hok := hinv.frames t f hf
  have hcontrols := (publishChecks hstep).controls
  obtain ⟨_, e⟩ := hinv.stepEffect hf hstep
  have hold : ∀ pc, (k.calls t).retirement ≠ some (p, pc) := by
    intro pc
    rw [hf]
    nofun
  by_cases hp : p = f.slot
  · subst hp
    -- an unclaimed lane was not claimed before, or the step has let go of it
    have htried : (k.memory.controls f.slot).state = .retiring →
        (k.memory.lanes f.slot).IsEmpty → (m'.lanes f.slot).publishing = false →
        k.Tries f.slot := by
      intro hretiring hempty hunclaimed
      have hnot : ¬f'.pc.Holds := by
        intro hholds
        cases (e.publishing hholds).symm.trans hunclaimed
      by_cases hholds : f.pc.Holds
      · exact htimely.2.2 f hf (publishStep_letsGo hok hholds hnot hstep) hretiring hempty
      · rw [e.idle hholds hnot] at hunclaimed
        exact h.tried hretiring hempty hunclaimed
    by_cases hchecked : f.pc.Checked
    · have hstate := hslots.checked t f hf hchecked
      have hnot : (k.memory.controls f.slot).state ≠ .free ∧
          (k.memory.controls f.slot).state ≠ .reconciling := by
        rcases hstate with h | h <;> rw [h] <;> exact ⟨nofun, nofun⟩
      refine reclaims_of_unowned (fun _ ↦ h.exists_slot hnot.1) ?_ ?_ (fun t' ho ↦ ?_)
        fun hretiring hempty hunclaimed ↦ ?_
      · change (m'.controls f.slot).state ≠ .free
        rw [hcontrols]
        exact hnot.1
      · change (m'.controls f.slot).state ≠ .reconciling
        rw [hcontrols]
        exact hnot.2
      · exact hslots.not_owns hnot.2 t' (owns_update rfl (fun pc hpc ↦ by cases hpc) ho)
      · -- a published Record is not consumed yet
        change (m'.controls f.slot).state = .retiring at hretiring
        change (m'.lanes f.slot).IsEmpty at hempty
        have hread := (hinv.lanes f.slot).read
        rw [Lane.IsEmpty, e.read] at hempty
        rcases e.published with heq | ⟨-, heq, -⟩
        · rw [hcontrols] at hretiring
          rw [heq] at hempty
          exact (htried hretiring hempty hunclaimed).kept rfl hold e.read heq
        · omega
    · obtain ⟨hledger, hpublished, -⟩ :=
        publishStep_ledger hchecked (fun stages ↦ hcharged.unwinding t f stages hf) hstep
      refine h.other ⟨?_, e.read, hpublished, ?_, ?_⟩ rfl (fun pc hpc ↦ absurd hpc (hold pc))
        (fun pc hpc ↦ by cases hpc) fun hretiring hempty hunclaimed ↦
          (htried hretiring hempty hunclaimed).kept rfl hold e.read hpublished
      · exact congrArg (fun c ↦ (c f.slot).state) hcontrols
      · exact congrArg (fun l ↦ (l.slots f.slot).localCredit) hledger
      · exact congrArg (fun l ↦ (l.slots f.slot).returnedCredit) hledger
  · have hslot := (hcharged.slotStep hinv htidy hfits hf hstep).1.move.slots p hp
    have hlane := e.lanes p hp
    exact h.frame ⟨congrArg (fun c ↦ (c p).state) hcontrols, congrArg Lane.readPosition hlane,
      congrArg Lane.publishedPosition hlane, congrArg CreditSlot.localCredit hslot,
      congrArg CreditSlot.returnedCredit hslot⟩ (congrArg Lane.publishing hlane) rfl hold
      fun pc hpc ↦ by cases hpc

theorem Reclaims.consume (h : k.Reclaims config p) (hinv : k.Inv conv config)
    (htidy : k.Tidy config) (hfits : k.memory.ledger.Fits config)
    (hg : k.calls consumerThread = .consume g) (hretire : ∀ lane pc, g.pc ≠ .retire lane pc)
    (hstep : consumeStep config k.memory g choice = some (m', pc')) :
    (k.afterConsume consumerThread g m' pc').Reclaims config p := by
  have hok := (hinv.consumer _ g hg).2
  have heffect := hinv.consumeStep hg hstep
  have hcontrols : m'.controls = k.memory.controls := consumeStep_controls hretire hstep
  have hold : ∀ pc, (k.calls consumerThread).retirement ≠ some (p, pc) := by
    intro pc
    rw [hg]
    obtain ⟨hasConsumer, gpc⟩ := g
    cases gpc with
    | retire lane rpc => exact absurd rfl (hretire lane rpc)
    | _ => nofun
  have hnew : ∀ pc, (KernelCall.consume ⟨g.hasConsumer, pc'⟩).retirement = some (p, pc) →
      ¬pc.Owns := by
    intro pc hpc
    cases pc' with
    | retire lane rpc =>
      cases hpc
      rw [consumeStep_startRetirement hretire hstep rfl]
      exact id
    | _ => cases hpc
  by_cases hclearing : ∃ claim, g.pc.clearing = some claim ∧ claim.lane = p
  · obtain ⟨claim, hclaim, rfl⟩ := hclearing
    obtain ⟨hclaimOk, -⟩ := (ConsumeFrame.ok_of_clearing hclaim).mp hok
    -- the lane holds the Record of the claim, so its slot is neither free nor owned
    have hnonempty : ¬(k.memory.lanes claim.lane).IsEmpty := by
      intro hempty
      have hread := hclaimOk.read
      have hpublished := hclaimOk.published
      rw [Lane.IsEmpty] at hempty
      omega
    have hfree : (k.memory.controls claim.lane).state ≠ .free := fun hstate ↦
      hnonempty (h.free hstate).1
    have hunowned : ∀ t, ¬k.Owns t claim.lane := fun t ⟨pc, hpc, howns⟩ ↦
      hnonempty (h.owner t pc hpc howns).1
    refine reclaims_of_unowned (fun _ ↦ h.exists_slot hfree) ?_ ?_
      (fun t' ho ↦ hunowned t' (owns_update rfl hnew ho)) fun _ hempty _ ↦ ?_
    · change (m'.controls claim.lane).state ≠ .free
      rw [hcontrols]
      exact hfree
    · change (m'.controls claim.lane).state ≠ .reconciling
      rw [hcontrols]
      intro hstate
      obtain ⟨t', ho⟩ := h.owned hstate
      exact hunowned t' ho
    · -- the last Record of the lane is acknowledged, and the consumer tries to free the slot
      rcases consumeStep_readPosition hstep claim.lane with heq | ⟨claim', hpc, hlane, -⟩
      · change (m'.lanes claim.lane).IsEmpty at hempty
        rw [Lane.IsEmpty, heq, (heffect.lanes claim.lane).published] at hempty
        exact absurd hempty hnonempty
      · refine ⟨consumerThread, .drained .testPublishing, ?_, trivial⟩
        have hpc' := consumeStep_acknowledge hpc (hlane ▸ hclaimOk.lane) hstep
        rw [hlane] at hpc'
        have hcall : (k.afterConsume consumerThread g m' pc').calls consumerThread =
            .consume ⟨g.hasConsumer, pc'⟩ := Function.update_self consumerThread _ k.calls
        rw [hcall, hpc']
        rfl
  · have hledger : m'.ledger.slots p = k.memory.ledger.slots p := by
      by_cases hrelease : ∃ claim, g.pc = .releaseOwnership claim ∨ g.pc = .finishOwnership claim
      · obtain ⟨claim, hpc⟩ := hrelease
        obtain ⟨hhandle, hproducer, -⟩ :=
          consumeStep_handle hok (htidy.consumer _ hg) hfits hpc hstep
        refine hhandle.slots p ?_
        rintro rfl
        refine hclearing ⟨claim, ?_, hproducer.symm⟩
        rcases hpc with hpc | hpc <;> rw [hpc] <;> rfl
      · rw [(consumeStep_ledger (fun claim hpc ↦ hrelease ⟨claim, .inl hpc⟩)
          (fun claim hpc ↦ hrelease ⟨claim, .inr hpc⟩) hretire hstep).1]
    refine h.frame ⟨?_, ?_, (heffect.lanes p).published, ?_, ?_⟩
      (heffect.publishing p) rfl hold hnew
    · exact congrArg (fun c ↦ (c p).state) hcontrols
    · refine (consumeStep_readPosition hstep p).resolve_right ?_
      rintro ⟨claim, hpc, hlane, -⟩
      exact hclearing ⟨claim, by rw [hpc]; rfl, hlane⟩
    · exact congrArg CreditSlot.localCredit hledger
    · exact congrArg CreditSlot.returnedCredit hledger

/-- A slot with an owner: only what the owner knows counts. -/
theorem reclaims_of_owner (hslot : p < config.producerSlots)
    (hcalls : k'.calls = Function.update k.calls t call) (hcall : call.retirement = some (p, pc))
    (howns : pc.Owns) (hothers : ∀ t', t' ≠ t → ¬k.Owns t' p)
    (hstate : (k'.memory.controls p).state = .reconciling) (hempty : (k'.memory.lanes p).IsEmpty)
    (hsettled : pc.Settled (k'.memory.ledger.slots p)) : k'.Reclaims config p := by
  have ht : (k'.calls t).retirement = some (p, pc) := by
    rw [hcalls, Function.update_self, hcall]
  refine ⟨fun _ ↦ hslot, fun hfree ↦ ?_, fun t' pc' hpc' howns' ↦ ?_, fun _ ↦ ⟨t, pc, ht, howns⟩,
    fun hretiring ↦ ?_⟩
  · cases hstate.symm.trans hfree
  · by_cases heq : t' = t
    · subst heq
      cases ht.symm.trans hpc'
      exact ⟨hempty, hsettled⟩
    · rw [hcalls, Function.update_of_ne heq] at hpc'
      exact absurd ⟨pc', hpc', howns'⟩ (hothers t' heq)
  · cases hstate.symm.trans hretiring

theorem retirement_next {q : ℕ} {pc' : RetirePc}
    (hgoes : ∀ pc', (retireStep m q choice pc).2 = some pc' → call.retirement = some (q, pc'))
    (hends : (retireStep m q choice pc).2 = none → ∀ x, call.retirement = some x →
      x.2 = .drained .testPublishing)
    (hpc' : call.retirement = some (p, pc')) :
    p = q ∧ (retireStep m q choice pc).2 = some pc' ∨ pc' = .drained .testPublishing := by
  cases hnext : (retireStep m q choice pc).2 with
  | none => exact .inr (hends hnext _ hpc')
  | some next =>
    cases (hgoes next hnext).symm.trans hpc'
    exact .inl ⟨rfl, rfl⟩

theorem Reclaims.retirement (h : k.Reclaims config p) (htidy : k.Tidy config)
    (hfits : k.memory.ledger.Fits config) (hslots : k.SlotInv) (hcharged : k.Charged config)
    (hpc : (k.calls t).retirement = some (p, pc)) (htimely : k.TimelyRetirement (.advance t choice))
    (hgoes : ∀ pc', (retireStep k.memory p choice pc).2 = some pc' →
      call.retirement = some (p, pc'))
    (hends : (retireStep k.memory p choice pc).2 = none → ∀ x, call.retirement = some x →
      x.2 = .drained .testPublishing)
    (hmemory : k'.memory = (retireStep k.memory p choice pc).1)
    (hcalls : k'.calls = Function.update k.calls t call) : k'.Reclaims config p := by
  have hlanes : k'.memory.lanes = k.memory.lanes := by
    rw [hmemory]
    exact (ControlEffect.retire p choice pc).sameIngress.lanes
  by_cases howns : pc.Owns
  · -- the slot is reconciling and charged with nothing
    obtain ⟨hempty, hsettled⟩ := h.owner t pc hpc howns
    have hstate := hslots.owner t p ⟨pc, hpc, howns⟩
    have hslot := h.exists_slot (by rw [hstate]; decide)
    have hlogical := hcharged.logical_eq_zero htidy hfits hempty fun t' f hf hchecked ↦
      hslots.not_checked ⟨pc, hpc, howns⟩ hf hchecked
    have hothers : ∀ t', t' ≠ t → ¬k.Owns t' p := fun t' hne ho ↦
      hne (hslots.unique t' t p ho ⟨pc, hpc, howns⟩)
    rw [← hlanes] at hempty
    have hnext := retireStep_settled choice (hfits.producerCount ▸ hslot) hlogical howns hsettled
    rcases hnext with
      ⟨pc', hnext, howns', hsettled', hstate'⟩ | ⟨hnext, hfree, hcredit⟩
    · rw [← hmemory] at hsettled' hstate'
      exact reclaims_of_owner hslot hcalls (hgoes pc' hnext) howns' hothers
        (hstate'.trans hstate) hempty hsettled'
    · rw [← hmemory] at hfree hcredit
      refine ⟨fun hne ↦ absurd hfree hne, fun _ ↦ ⟨hempty, hcredit⟩, fun t' pc' hpc' howns' ↦ ?_,
        fun hne ↦ ?_, fun hne ↦ ?_⟩
      · rw [hcalls] at hpc'
        by_cases ht : t' = t
        · rw [ht, Function.update_self] at hpc'
          obtain rfl : pc' = .drained .testPublishing := hends hnext _ hpc'
          exact howns'.elim
        · rw [Function.update_of_ne ht] at hpc'
          exact absurd ⟨pc', hpc', howns'⟩ (hothers t' ht)
      · cases hfree.symm.trans hne
      · cases hfree.symm.trans hne
  · by_cases hwins : pc = .exchange ∧ (k.memory.controls p).state = .retiring
    · obtain ⟨rfl, hretiring⟩ := hwins
      have hempty := htimely.2.1 (p, .exchange) hpc rfl hretiring
      rw [retireStep, if_pos hretiring] at hgoes hmemory
      refine reclaims_of_owner (h.exists_slot (by rw [hretiring]; decide)) hcalls
        (hgoes _ rfl) trivial (fun t' _ ↦ hslots.not_owns (by rw [hretiring]; decide) t') ?_ ?_
        trivial
      · rw [hmemory]
        simp only [KernelMemory.setState, KernelMemory.setControl, Function.update_self]
      · rw [hlanes]
        exact hempty
    · -- the memory stays as it is
      obtain ⟨hsame, hnext⟩ := retireStep_loses howns hwins
      rw [hsame] at hmemory
      refine h.other ?_ hcalls (fun pc' hpc' ↦ ?_) (fun pc' hpc' ↦ ?_)
        fun hretiring hempty hunclaimed ↦ ?_
      · rw [hmemory]
        exact ⟨rfl, rfl, rfl, rfl, rfl⟩
      · cases hpc.symm.trans hpc'
        exact howns
      · rcases retirement_next hgoes hends hpc' with ⟨-, hpc''⟩ | rfl
        · exact hnext pc' hpc''
        · exact id
      · rw [hlanes] at hunclaimed
        obtain ⟨t', pc', hpc', hpromising⟩ := h.tried hretiring hempty hunclaimed
        by_cases ht : t' = t
        · subst ht
          cases hpc.symm.trans hpc'
          cases pc with
          | drained pc =>
            obtain ⟨pc', hnext, hpromising'⟩ := retireStep_promising hempty hunclaimed hpromising
            refine ⟨t', pc', ?_, ?_⟩
            · rw [hcalls, Function.update_self, hgoes pc' hnext]
            · rw [hlanes]
              exact hpromising'
          | exchange => exact absurd ⟨rfl, hretiring⟩ hwins
          | _ => exact absurd trivial howns
        · refine ⟨t', pc', ?_, ?_⟩
          · rw [hcalls, Function.update_of_ne ht, hpc']
          · rw [hlanes]
            exact hpromising

theorem Reclaims.callStep (h : k.Reclaims config p) (htidy : k.Tidy config)
    (hfits : k.memory.ledger.Fits config) (hslots : k.SlotInv) (hcharged : k.Charged config)
    (htimely : k.TimelyRetirement (.advance t choice)) {call' : KernelCall}
    (hcall : k.calls t = call) (hstep : CallStep config k.memory choice call m' call')
    (hmemory : k'.memory = m') (hcalls : k'.calls = Function.update k.calls t call') :
    k'.Reclaims config p := by
  have hstates : ∀ {q state}, m' = k.memory.setState q state → p ≠ q →
      SameSlot k.memory k'.memory p := by
    rintro q state rfl hne
    have hcontrol : k'.memory.controls p = k.memory.controls p := by
      rw [hmemory]
      exact Function.update_of_ne hne ..
    refine ⟨by rw [hcontrol], ?_, ?_, ?_, ?_⟩ <;> rw [hmemory] <;> rfl
  cases hstep with
  | @retirement _ q pc hretirement hgoes hends =>
    rw [← hcall] at hretirement
    by_cases hq : p = q
    · subst hq
      exact h.retirement htidy hfits hslots hcharged hretirement htimely hgoes hends hmemory hcalls
    · have hcontrol := (retireStep_controls (m := k.memory) q choice pc).1 p hq
      have hlanes := (ControlEffect.retire (m := k.memory) q choice pc).sameIngress.lanes
      have hslot := (retireStep_slotMove k.memory q choice pc).slots p hq
      rw [← hmemory] at hcontrol hlanes hslot
      refine h.frame ⟨?_, ?_, ?_, ?_, ?_⟩ (by rw [hlanes]) hcalls (fun pc' hpc' ↦ ?_)
        fun pc' hpc' ↦ ?_
      · rw [hcontrol]
      · rw [hlanes]
      · rw [hlanes]
      · rw [hslot]
      · rw [hslot]
      · cases hretirement.symm.trans hpc'
        exact hq rfl
      · rcases retirement_next hgoes hends hpc' with ⟨heq, -⟩ | rfl
        · exact absurd heq hq
        · exact id
  | quiet hnone hfresh =>
    rw [← hcall] at hnone
    refine h.frame ?_ (by rw [hmemory]) hcalls (fun pc' hpc' ↦ nomatch hnone.symm.trans hpc')
      fun pc' hpc' ↦ ?_
    · rw [hmemory]
      exact ⟨rfl, rfl, rfl, rfl, rfl⟩
    · have heq : pc' = .drained .testPublishing := hfresh _ hpc'
      rw [heq]
      exact id
  | @retire _ q hnone hstate hcall' =>
    rw [← hcall] at hnone
    have hactive : (k.memory.controls q).state = .active := by
      refine hstate.elim id fun hundone ↦ htimely.1.2 q ?_
      rw [hcall]
      exact hundone
    have hnew : ∀ {q' pc'}, call'.retirement = some (q', pc') → ¬pc'.Owns := by
      intro q' pc' hpc'
      cases hcall'.symm.trans hpc'
      exact id
    by_cases hq : p = q
    · subst hq
      have hretiring : (k'.memory.controls p).state = .retiring := by
        simp only [hmemory, KernelMemory.setState, KernelMemory.setControl, Function.update_self]
      refine reclaims_of_unowned (fun _ ↦ h.exists_slot (by rw [hactive]; nofun))
        (by rw [hretiring]; nofun) (by rw [hretiring]; nofun)
        (fun t' ho ↦ hslots.not_owns (by rw [hactive]; nofun) t'
          (owns_update hcalls (fun _ ↦ hnew) ho)) fun _ _ _ ↦
            ⟨t, .drained .testPublishing, ?_, trivial⟩
      rw [hcalls, Function.update_self, hcall']
    · exact h.frame (hstates rfl hq) (by rw [hmemory]; rfl) hcalls
        (fun pc' hpc' ↦ nomatch hnone.symm.trans hpc')
        fun pc' ↦ hnew
  | @register _ q hq hnone hstate hcall' =>
    rw [← hcall] at hnone
    have hnew : ∀ {q' pc'}, call'.retirement = some (q', pc') → ¬pc'.Owns := fun hpc' ↦
      nomatch hcall'.symm.trans hpc'
    by_cases hpq : p = q
    · subst hpq
      have hactive : (k'.memory.controls p).state = .active := by
        simp only [hmemory, KernelMemory.setState, KernelMemory.setControl, Function.update_self]
      refine reclaims_of_unowned (fun _ ↦ hq) (by rw [hactive]; nofun) (by rw [hactive]; nofun)
        (fun t' ho ↦ hslots.not_owns (by rw [hstate]; nofun) t'
          (owns_update hcalls (fun _ ↦ hnew) ho)) fun hretiring ↦ ?_
      cases hactive.symm.trans hretiring
    · exact h.frame (hstates rfl hpq) (by rw [hmemory]; rfl) hcalls
        (fun pc' hpc' ↦ nomatch hnone.symm.trans hpc')
        fun pc' ↦ hnew

theorem Reclaims.step (h : k.Reclaims config p) (hinv : k.Inv conv config) (htidy : k.Tidy config)
    (hfits : k.memory.ledger.Fits config) (hslots : k.SlotInv) (hcharged : k.Charged config)
    (htimely : k.TimelyRetirement action) (hstep : k.step conv config action = some k') :
    k'.Reclaims config p := by
  have hsame : SameSlot k.memory k.memory p := ⟨rfl, rfl, rfl, rfl, rfl⟩
  cases Move.of_step hstep with
  | enter hidle hcall =>
    refine h.frame hsame rfl rfl (fun pc hpc ↦ ?_) fun pc hpc ↦ ?_
    · rw [hidle] at hpc
      cases hpc
    · have hfresh : pc = .drained .testPublishing := hcall.retirement _ hpc
      rw [hfresh]
      exact id
  | closeAdmission => exact { h with }
  | publish hf hcall => exact h.publish hinv htidy hfits hslots hcharged htimely hf hcall
  | @consume t g _ _ pc' hf hcall =>
    obtain ⟨rfl, -⟩ := hinv.consumer t g hf
    by_cases hretire : ∃ lane pc, g.pc = .retire lane pc
    · obtain ⟨lane, pc, hpc⟩ := hretire
      exact h.callStep htidy hfits hslots hcharged htimely hf (.of_consume hpc hcall) rfl rfl
    · exact h.consume hinv htidy hfits hf (fun lane pc hpc ↦ hretire ⟨lane, pc, hpc⟩) hcall
  | retire hf hcall =>
    exact h.callStep htidy hfits hslots hcharged htimely hf (.of_retire hcall) rfl rfl
  | quiescent hf hcall =>
    exact h.callStep htidy hfits hslots hcharged htimely hf (.of_quiescent hcall) rfl rfl
  | register hf hcall =>
    exact h.callStep htidy hfits hslots hcharged htimely hf (.of_register hcall) rfl rfl
  | returnPublish hf hpc =>
    refine h.frame hsame rfl rfl (fun pc hpc ↦ ?_) fun pc hpc ↦ by cases hpc
    rw [hf] at hpc
    cases hpc
  | «return» hcall hdone =>
    refine h.frame hsame rfl rfl (fun pc hpc ↦ ?_) fun pc hpc ↦ by cases hpc
    rw [hdone.retirement] at hpc
    cases hpc

end Steps

/-! ## Whole runs -/

theorem charged_init : (init config).Charged config := by
  refine ⟨fun p bytes hbytes ↦ ?_, fun _ _ _ hf ↦ (nomatch hf), fun _ _ _ hf ↦ (nomatch hf)⟩
  have hlane : (init config).memory.laneTotal config (Handle.logicalBytes p) p = 0 :=
    Finset.sum_eq_zero fun i _ ↦ rfl
  rcases hbytes with ⟨t, f, hf, -⟩ | ⟨-, rfl⟩
  · cases hf
  · rw [hlane]
    rfl

theorem reclaims_init (p : ℕ) : (init config).Reclaims config p where
  exists_slot h := absurd rfl h
  free _ := ⟨rfl, rfl, rfl⟩
  owner _ _ hpc := nomatch hpc
  owned h := nomatch h
  tried h := nomatch h

theorem reclaims_of_reach (h : (machine conv config).Reach TimelyRetirement k) :
    k.SlotInv ∧ k.Charged config ∧ ∀ p, k.Reclaims config p := by
  induction h with
  | init => exact ⟨slotInv_init, charged_init, reclaims_init⟩
  | @step k k' action hk htimely hstep ih =>
    obtain ⟨hslots, hcharged, hreclaims⟩ := ih
    have hinv : k.Inv conv config := Inv.of_reach hk
    have htidy : k.Tidy config := Tidy.of_reach hk
    have hfits := fits_of_reach hk
    have hclean : k.CleanRetirement action := by
      cases action with
      | advance t choice => exact htimely.1
      | _ => trivial
    exact ⟨hslots.step hinv hclean hstep, hcharged.step hinv htidy hfits hslots hstep,
      fun p ↦ (hreclaims p).step hinv htidy hfits hslots hcharged htimely hstep⟩

/-- In a timely run, when no call is in progress, a slot that is not registered and whose lane is
empty is free and has no credit, and the next registration that comes to it takes it. -/
theorem retired_slots_reclaimed (h : (machine conv config).Reach TimelyRetirement k)
    (hidle : ∀ t, k.calls t = .idle) (p : ℕ) (hretired : (k.memory.controls p).state ≠ .active)
    (hempty : (k.memory.lanes p).readPosition = (k.memory.lanes p).publishedPosition) :
    (k.memory.controls p).state = .free ∧ (k.memory.ledger.slots p).localCredit = 0 ∧
      (k.memory.ledger.slots p).returnedCredit = 0 ∧
      (p < config.producerSlots → ∀ choice, registerStep config k.memory choice (.exchange p) =
        some (k.memory.setState p .active, .recheck p)) := by
  have hreclaims := (reclaims_of_reach h).2.2 p
  have hquiet : ∀ t x, (k.calls t).retirement ≠ some x := by
    intro t x
    rw [hidle]
    nofun
  have hfree : (k.memory.controls p).state = .free := by
    cases hstate : (k.memory.controls p).state with
    | free => rfl
    | active => exact absurd hstate hretired
    | retiring =>
      have hunclaimed : (k.memory.lanes p).publishing = false := by
        rw [← Bool.not_eq_true]
        intro hclaimed
        obtain ⟨t, f, hf, -⟩ := FlagsHeld.of_reach h p hclaimed
        cases (hidle t).symm.trans hf
      obtain ⟨t, pc, hpc, -⟩ := hreclaims.tried hstate hempty hunclaimed
      exact absurd hpc (hquiet t _)
    | reconciling =>
      obtain ⟨t, pc, hpc, -⟩ := hreclaims.owned hstate
      exact absurd hpc (hquiet t _)
  obtain ⟨-, hlocal, hreturned⟩ := hreclaims.free hfree
  refine ⟨hfree, hlocal, hreturned, fun hp choice ↦ ?_⟩
  rw [registerStep, if_pos hp, if_pos hfree]

/-- Threads that no action names stay idle. -/
theorem idle_of_reach {n : ℕ} {ok : Kernel → KernelAction → Prop}
    (h : (machine conv config).Reach (fun k a ↦ ok k a ∧ ∀ t ∈ a.thread, t < n) k)
    (hidle : (List.range n).all k.isIdle = true) (t : ℕ) : k.calls t = .idle := by
  by_cases ht : t < n
  · exact calls_of_isIdle (List.all_eq_true.mp hidle t (List.mem_range.mpr ht))
  · refine Machine.Reach.invariant (I := fun k ↦ k.calls t = .idle) h rfl
      fun k a k' hk hok hstep ↦ ?_
    refine ((Move.of_step hstep).calls_of_ne fun heq ↦ ?_).trans hk
    exact ht (hok.2 t heq)

/-- The thread's next step does not let go of an empty lane of a retiring slot. -/
def keepsClaim (k : Kernel) (t : ℕ) : Bool :=
  match k.calls t with
  | .publish f => !(decide f.pc.LetsGo && decide ((k.memory.controls f.slot).state = .retiring) &&
      decide ((k.memory.lanes f.slot).readPosition = (k.memory.lanes f.slot).publishedPosition))
  | _ => true

/-- A check of single steps that is enough for a timely run. -/
def PromptRetirement (k : Kernel) : KernelAction → Prop
  | .advance t choice => k.CleanRetirement (.advance t choice) ∧
    (∀ x ∈ (k.calls t).retirement, x.2 = .exchange →
      (k.memory.controls x.1).state = .retiring →
      (k.memory.lanes x.1).readPosition = (k.memory.lanes x.1).publishedPosition) ∧
    k.keepsClaim t = true
  | _ => True

instance (k : Kernel) (action : KernelAction) : Decidable (k.PromptRetirement action) :=
  match action with
  | .advance _ _ => inferInstanceAs (Decidable (_ ∧ _))
  | .publish .. | .consume _ | .retire .. | .quiescent _ | .register _ | .closeAdmission
  | .return _ => inferInstanceAs (Decidable True)

theorem PromptRetirement.timely (h : k.PromptRetirement action) : k.TimelyRetirement action := by
  cases action with
  | advance t choice =>
    obtain ⟨hclean, hexchange, hkeeps⟩ := h
    refine ⟨hclean, hexchange, fun f hf hletsGo hretiring hempty ↦ ?_⟩
    rw [Lane.IsEmpty] at hempty
    simp [keepsClaim, hf, hletsGo, hretiring, hempty] at hkeeps
  | _ => trivial

/-- A slot is retired under an open publication. The Record is accepted and consumed, and the
consumer frees the slot. -/
theorem retired_slots_reclaimed_consumed :
    ∃ k, (machine .blank .singleCell).Reach TimelyRetirement k ∧
      (∀ t, k.calls t = .idle) ∧ (k.memory.controls 0).generation = 2 ∧
      (k.memory.controls 0).state = .free := by
  obtain ⟨k, hreach, htest⟩ := Machine.Reach.exists_of_run
    (machine .blank .singleCell)
    (fun k a ↦ k.PromptRetirement a ∧ ∀ t ∈ a.thread, t < 3)
    (fun k ↦ (List.range 3).all k.isIdle &&
      decide ((k.memory.controls 0).generation = 2) &&
      decide ((k.memory.controls 0).state ≠ .active) &&
      decide ((k.memory.lanes 0).readPosition = (k.memory.lanes 0).publishedPosition))
    (List.flatten [[.register 1], advances 1 4, [.return 1],
      [.publish 1 0 1 .info ⟨[0x61], [0x62], 7, 9⟩ true], advances 1 7,
      [.retire 2 0 1], advances 2 3, [.return 2], advances 1 18, [.return 1],
      [.consume true], advances consumerThread 18, [.return consumerThread]])
    (by decide +kernel)
  simp only [Bool.and_eq_true, decide_eq_true_eq] at htest
  obtain ⟨⟨⟨hall, hgeneration⟩, hretired⟩, hempty⟩ := htest
  have hidle := idle_of_reach hreach hall
  have htimely := hreach.mono fun k a h ↦ h.1.timely
  exact ⟨k, htimely, hidle, hgeneration,
    (retired_slots_reclaimed htimely hidle 0 hretired hempty).1⟩

/-- The slot is retired while a builder runs. The builder fails, and when everyone has returned the
slot is still retiring, with an empty lane. -/
theorem retired_slot_leaked :
    ∃ k, (machine .blank .singleCell).Reachable k ∧
      (∀ t, k.calls t = .idle) ∧ (k.memory.controls 0).state = .retiring ∧
      (k.memory.lanes 0).readPosition = (k.memory.lanes 0).publishedPosition := by
  obtain ⟨k, hreach, htest⟩ := Machine.Reach.exists_of_run
    (machine .blank .singleCell) (fun _ a ↦ True ∧ ∀ t ∈ a.thread, t < 3)
    (fun k ↦ (List.range 3).all k.isIdle && decide ((k.memory.controls 0).state = .retiring) &&
      decide ((k.memory.lanes 0).readPosition = (k.memory.lanes 0).publishedPosition))
    (List.flatten [[.register 1], advances 1 4, [.return 1],
      [.publish 1 0 1 .info ⟨[0x61], [0x62], 7, 9⟩ true], advances 1 15,
      [.retire 2 0 1], advances 2 3, [.return 2],
      [.advance 1 { build := .finish .invalid }], advances 1 5, [.return 1]])
    (by decide +kernel)
  simp only [Bool.and_eq_true, decide_eq_true_eq] at htest
  obtain ⟨⟨hall, hretiring⟩, hempty⟩ := htest
  exact ⟨k, hreach.mono fun _ _ _ ↦ trivial, idle_of_reach hreach hall, hretiring, hempty⟩

end Kernel

end Ulog
