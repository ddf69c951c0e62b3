import Ulog.Producer.Invariant

/-!
# What a call may change

The control calls and the end of `TryConsume` change the controls of slots and reconcile their
credit; all else stays. `TryConsume` itself consumes and counts nothing else, and a publication
counts but consumes nothing. Every step does at most one operation on the ledger.
-/

namespace Ulog

variable {conv : Charconv} {config : ValidConfig} {m m' : KernelMemory} {choice : StepChoice}

/-- At most one operation on the ledger. -/
inductive CreditLedger.Moves (l : CreditLedger) : CreditLedger → Prop
  | none : l.Moves l
  | reserve (call : ReserveCall) (spurious : Bool) : l.Moves (l.reserveStep call spurious).1
  | startCommit (retained : ℕ) (handle : Handle) : l.Moves (l.startCommit retained handle).1
  | startRelease (handle : Handle) : l.Moves (l.startRelease handle).1
  | finishHandle (handle : Handle) : l.Moves (l.finishHandle handle).1
  | reconcile (slot : ℕ) (pc : ReconcilePc) : l.Moves (l.reconcileStep slot pc).1

/-- The counters of the attempts are as they were. -/
structure KernelMemory.SameCounters (m m' : KernelMemory) : Prop where
  counters : m'.counters = m.counters
  missingProducers : m'.missingProducers = m.missingProducers
  nextAdmissionSequence : m'.nextAdmissionSequence = m.nextAdmissionSequence

/-- What a call that is no publication leaves alone, and how it consumes. -/
structure KernelMemory.Uncounted (m m' : KernelMemory) : Prop extends m.SameCounters m' where
  admissionOpen : m'.admissionOpen = m.admissionOpen
  consumed : m'.consumedRecords + m.nextSequence = m.consumedRecords + m'.nextSequence
  ledger : m.ledger.Moves m'.ledger

/-- The effect of a control call. -/
structure ControlEffect (m m' : KernelMemory) : Prop where
  ledger : m.ledger.Moves m'.ledger
  rest : m' = { m with controls := m'.controls, ledger := m'.ledger }

namespace ControlEffect

theorem refl (m : KernelMemory) : ControlEffect m m := ⟨.none, rfl⟩

theorem setControl (slot : ℕ) (c : ProducerControl) : ControlEffect m (m.setControl slot c) :=
  ⟨.none, rfl⟩

theorem sameIngress (h : ControlEffect m m') : SameIngress m m' := by
  rw [h.rest]
  exact ⟨rfl, rfl, rfl, rfl⟩

theorem uncounted (h : ControlEffect m m') : m.Uncounted m' := by
  have hledger := h.ledger
  rw [h.rest]
  exact ⟨⟨rfl, rfl, rfl⟩, rfl, rfl, hledger⟩

theorem retire (slot : ℕ) (choice : StepChoice) (pc : RetirePc) :
    ControlEffect m (retireStep m slot choice pc).1 := by
  cases pc with
  | drained pc | exchange =>
    rw [retireStep]
    split
    all_goals first | exact .refl m | exact .setControl ..
  | reconcile pc =>
    have hmoves := CreditLedger.Moves.reconcile (l := m.ledger) slot pc
    rw [retireStep]
    split <;> next heq => (rw [heq] at hmoves; exact ⟨hmoves, rfl⟩)
  | restore | bumpGeneration | storeFree => exact .setControl ..

theorem of_retireStep {slot : ℕ} {pc : RetirePc} {next : Option RetirePc}
    (hstep : retireStep m slot choice pc = (m', next)) : ControlEffect m m' := by
  obtain rfl : (retireStep m slot choice pc).1 = m' := congrArg Prod.fst hstep
  exact .retire ..

theorem of_retireProducerStep {f : RetireFrame} {pc : RetireProducerPc}
    (hstep : retireProducerStep config m f choice = some (m', pc)) : ControlEffect m m' := by
  rw [retireProducerStep] at hstep
  repeat' split at hstep
  all_goals cases hstep
  all_goals first | exact .refl m | exact .setControl .. | exact of_retireStep ‹_›

theorem of_quiescentStep {f f' : QuiescentFrame}
    (hstep : quiescentStep config m f choice = some (m', f')) : ControlEffect m m' := by
  rw [quiescentStep] at hstep
  repeat' split at hstep
  all_goals cases hstep
  all_goals first | exact .refl m | exact of_retireStep ‹_›

theorem of_registerStep {pc pc' : RegisterPc}
    (hstep : registerStep config m choice pc = some (m', pc')) : ControlEffect m m' := by
  rw [registerStep.eq_def] at hstep
  repeat' split at hstep
  all_goals cases hstep
  all_goals first | exact .refl m | exact .setControl .. | exact of_retireStep ‹_›

end ControlEffect

theorem consumeStep_uncounted {f : ConsumeFrame} {pc : ConsumePc}
    (hstep : consumeStep config m f choice = some (m', pc)) : m.Uncounted m' := by
  rw [consumeStep] at hstep
  cases hpc : f.pc with
  | retire lane pc =>
    rw [hpc] at hstep
    dsimp only at hstep
    split at hstep <;> cases hstep <;> exact (ControlEffect.of_retireStep ‹_›).uncounted
  | releaseOwnership claim =>
    rw [hpc] at hstep
    cases hstep
    exact ⟨⟨rfl, rfl, rfl⟩, rfl, rfl, .startRelease _⟩
  | finishOwnership claim =>
    rw [hpc] at hstep
    cases hstep
    exact ⟨⟨rfl, rfl, rfl⟩, rfl, rfl, .finishHandle _⟩
  | acknowledge claim =>
    rw [hpc] at hstep
    cases hstep
    refine ⟨⟨rfl, rfl, rfl⟩, rfl, ?_, .none⟩
    change m.consumedRecords + 1 + m.nextSequence = m.consumedRecords + (m.nextSequence + 1)
    omega
  | _ =>
    rw [hpc] at hstep
    dsimp only at hstep
    repeat' split at hstep
    all_goals cases hstep
    all_goals exact ⟨⟨rfl, rfl, rfl⟩, rfl, rfl, .none⟩

/-- What a publication leaves alone, and how it counts. -/
structure Unconsumed (m m' : KernelMemory) : Prop where
  admissionOpen : m'.admissionOpen = m.admissionOpen
  consumedRecords : m'.consumedRecords = m.consumedRecords
  nextSequence : m'.nextSequence = m.nextSequence
  missingProducers : m'.missingProducers = m.missingProducers ∨
    m'.missingProducers = m.missingProducers + 1
  ledger : m.ledger.Moves m'.ledger

theorem publishStep_unconsumed {f f' : PublishFrame}
    (hstep : publishStep conv config m f choice = some (m', f')) : Unconsumed m m' := by
  cases hpc : f.pc with
  | reserve call =>
    have hreserve := CreditLedger.Moves.reserve (l := m.ledger) call choice.spurious
    rw [publishStep, hpc] at hstep
    dsimp only at hstep
    split at hstep <;> next heq => (
      rw [heq] at hreserve
      cases hstep
      exact ⟨rfl, rfl, rfl, .inl rfl, hreserve⟩)
  | commit =>
    rw [publishStep, hpc] at hstep
    cases hstep
    exact ⟨rfl, rfl, rfl, .inl rfl, .startCommit ..⟩
  | finishCommit =>
    rw [publishStep, hpc] at hstep
    dsimp only at hstep
    split at hstep <;> cases hstep <;> exact ⟨rfl, rfl, rfl, .inl rfl, .finishHandle _⟩
  | emplace =>
    rw [publishStep, hpc] at hstep
    dsimp only at hstep
    split at hstep <;> cases hstep
    · exact ⟨rfl, rfl, rfl, .inl rfl, .none⟩
    · exact ⟨rfl, rfl, rfl, .inl rfl, .startRelease _⟩
  | finishEmplace =>
    rw [publishStep, hpc] at hstep
    cases hstep
    exact ⟨rfl, rfl, rfl, .inl rfl, .finishHandle _⟩
  | unwind stages outcome =>
    rw [publishStep.eq_def, hpc] at hstep
    cases stages with
    | nil =>
      cases hstep
      exact ⟨rfl, rfl, rfl, .inl rfl, .none⟩
    | cons stage stages =>
      cases hstep
      cases stage with
      | dropCellOwnership | dropOwnership | dropReservation =>
        exact ⟨rfl, rfl, rfl, .inl rfl, .startRelease _⟩
      | finishCellOwnership | finishOwnership | finishReservation =>
        exact ⟨rfl, rfl, rfl, .inl rfl, .finishHandle _⟩
      | _ => exact ⟨rfl, rfl, rfl, .inl rfl, .none⟩
  | _ =>
    rw [publishStep, hpc] at hstep
    dsimp only at hstep
    repeat' split at hstep
    all_goals cases hstep
    all_goals first
      | exact ⟨rfl, rfl, rfl, .inl rfl, .none⟩
      | exact ⟨rfl, rfl, rfl, .inr rfl, .none⟩

end Ulog
