import Ulog.Producer.Quiescence
import Ulog.Runtime.Handoff

/-!
# Finishing a Shutdown

The first Shutdown closes admission. `TryFinishShutdown` then asks the kernel whether it is
quiescent, reads the number of accepted Records and compares it with the retirements, in this order.
`Knows` says what each of these steps has established, and that other threads cannot undo it: a
settled kernel accepts nothing, and only the worker retires. When the worker leaves its loop for a
Shutdown, every accepted Record has been retired.
-/

namespace Ulog

/-- With admission closed, a call of `IsQuiescent` knows it. -/
theorem Kernel.closed_step {conv : Charconv} {config : ValidConfig} {k k' : Kernel}
    {action : KernelAction} {t : ℕ} (hstep : k.step conv config action = some k')
    (hclosed : k.memory.admissionOpen = false)
    (h : ∀ f, k.calls t = .quiescent f → f.closed = true) :
    ∀ f, k'.calls t = .quiescent f → f.closed = true := by
  intro f hf
  cases Move.of_step hstep with
  | enter _ hcall =>
    rcases update_eq_cases hf with ⟨-, heq⟩ | ⟨-, hf⟩
    · cases hcall <;> cases heq
      change (!k.memory.admissionOpen) = true
      rw [hclosed]
      rfl
    · exact h f hf
  | quiescent hg hcall =>
    rcases update_eq_cases hf with ⟨rfl, heq⟩ | ⟨-, hf⟩
    · cases heq
      exact (quiescentStep_closed hcall).trans (h _ hg)
    · exact h f hf
  | closeAdmission => exact h f hf
  | publish | consume | retire | register | returnPublish | «return» =>
    rcases update_eq_cases hf with ⟨-, heq⟩ | ⟨-, hf⟩
    · cases heq
    · exact h f hf

namespace RuntimeDomain

variable {conv : Charconv} {setup : RuntimeSetup} {d d' : RuntimeDomain} {pc pc' : WorkerPc}
  {action : DomainAction} {ok : RuntimeDomain → DomainAction → Prop}

/-- No Record will be accepted any more, and all were retired. -/
structure Finished (setup : RuntimeSetup) (d : RuntimeDomain) : Prop where
  settled : d.kernel.Settled setup.kernel
  retired : d.ledger.retiredRecords = d.acceptedRecords

/-- What the worker has found out in `TryFinishShutdown`. -/
def Knows (setup : RuntimeSetup) (d : RuntimeDomain) : WorkerPc → Prop
  | .isQuiescent none | .quiescent none =>
    d.shutdownRequested = true ∧
      ∀ f, d.kernel.calls consumerThread = .quiescent f → f.closed = true
  | .acceptedRecords => d.kernel.Settled setup.kernel
  | .compareRetired accepted => d.kernel.Settled setup.kernel ∧ accepted = d.acceptedRecords
  | .requestClose | .closeResult | .recordCloseError _ | .finish (.shutdown _) => d.Finished setup
  | _ => True

structure Closing (setup : RuntimeSetup) (d : RuntimeDomain) : Prop where
  closed : d.shutdownRequested = true → d.kernel.memory.admissionOpen = false
  knows : d.Knows setup d.worker
  ended : d.shutdownOutcome ≠ none → d.Finished setup

/-! ## What was found out stays true -/

/-- The kernel makes a step, or it is left alone. -/
def Follows (conv : Charconv) (setup : RuntimeSetup) (d d' : RuntimeDomain) : Prop :=
  d'.kernel = d.kernel ∨ ∃ a, d.kernel.step conv setup.kernel a = some d'.kernel

theorem Follows.settled (h : Follows conv setup d d') (hinv : d.kernel.Inv conv setup.kernel)
    (hsettled : d.kernel.Settled setup.kernel) :
    d'.kernel.Settled setup.kernel ∧ d'.acceptedRecords = d.acceptedRecords := by
  rcases h with heq | ⟨a, hstep⟩
  · rw [acceptedRecords, acceptedRecords, heq]
    exact ⟨hsettled, rfl⟩
  · exact ⟨hsettled.step hinv hstep, hsettled.accepted hinv hstep⟩

theorem Follows.closed (h : Follows conv setup d d')
    (hclosed : d.kernel.memory.admissionOpen = false) :
    d'.kernel.memory.admissionOpen = false := by
  rcases h with heq | ⟨a, hstep⟩
  · rw [heq]
    exact hclosed
  · exact Kernel.admissionOpen_step hstep hclosed

theorem Finished.follows (h : d.Finished setup) (hinv : d.kernel.Inv conv setup.kernel)
    (hkernel : Follows conv setup d d')
    (hretired : d'.ledger.retiredRecords = d.ledger.retiredRecords) : d'.Finished setup := by
  obtain ⟨hsettled, haccepted⟩ := hkernel.settled hinv h.settled
  exact ⟨hsettled, by rw [hretired, haccepted, h.retired]⟩

theorem Knows.follows (h : d.Knows setup pc) (hinv : d.kernel.Inv conv setup.kernel)
    (hclosed : d.shutdownRequested = true → d.kernel.memory.admissionOpen = false)
    (hkernel : Follows conv setup d d')
    (hrequested : d.shutdownRequested = true → d'.shutdownRequested = true)
    (hretired : d'.ledger.retiredRecords = d.ledger.retiredRecords) : d'.Knows setup pc := by
  have hasks : (d.shutdownRequested = true ∧
      ∀ f, d.kernel.calls consumerThread = .quiescent f → f.closed = true) →
      d'.shutdownRequested = true ∧
        ∀ f, d'.kernel.calls consumerThread = .quiescent f → f.closed = true := by
    rintro ⟨hreq, hframe⟩
    refine ⟨hrequested hreq, ?_⟩
    rcases hkernel with heq | ⟨a, hstep⟩
    · rw [heq]
      exact hframe
    · exact Kernel.closed_step hstep (hclosed hreq) hframe
  cases pc with
  | isQuiescent exit | quiescent exit =>
    cases exit with
    | none => exact hasks h
    | some exit => trivial
  | acceptedRecords => exact (hkernel.settled hinv h).1
  | compareRetired accepted =>
    obtain ⟨hsettled, haccepted⟩ := hkernel.settled hinv h.1
    exact ⟨hsettled, by rw [haccepted, h.2]⟩
  | requestClose | closeResult | recordCloseError => exact Finished.follows h hinv hkernel hretired
  | finish exit =>
    cases exit with
    | shutdown outcome => exact Finished.follows h hinv hkernel hretired
    | destruction | routeFailure => trivial
  | _ => trivial

/-! ## The worker finds out -/

theorem Reads.knows (h : d.Reads pc pc') (hknows : d.Knows setup pc) (hpc : d.worker = pc)
    (hs : d.Synced) : d.Knows setup pc' := by
  cases h with
  | shutdown hmutex hrequested =>
    have hidle := (hs.idle hpc rfl).1
    exact ⟨hrequested, fun f hf ↦ by cases hidle.symm.trans hf⟩
  | acceptedRecords => exact ⟨hknows, rfl⟩
  | allRetired hretired => exact ⟨hknows.1, hretired.trans hknows.2⟩
  | closeFailed | closed => exact hknows
  | _ => trivial

theorem CallsKernel.knows {a : KernelAction} {kernel : Kernel} (h : d.CallsKernel pc a pc')
    (hknows : d.Knows setup pc) (hclosing : d.Closing setup) (hstage : d.StageOk pc.stage)
    (hinv : d.kernel.Inv conv setup.kernel) (hquiescing : d.kernel.Quiescing setup.kernel)
    (hkernel : d.kernel.step conv setup.kernel a = some kernel) :
    ({ d with kernel := kernel, worker := pc' } : RuntimeDomain).Knows setup pc' := by
  cases h with
  | @isQuiescent exit =>
    cases exit with
    | none =>
      have hnext : ({ d with kernel := kernel, worker := .quiescent none } : RuntimeDomain).Knows
          setup (.isQuiescent none) :=
        hknows.follows hinv hclosing.closed (.inr ⟨_, hkernel⟩) id rfl
      exact hnext
    | some exit => trivial
  | quiescent hcall hquiescent =>
    -- the call has returned true, and it started with admission closed
    have hdone := (Kernel.step_return hkernel).1
    rw [hcall] at hdone
    have hsettled := hquiescing.settled hcall (hknows.2 _ hcall) hdone hquiescent
    exact hsettled.step hinv hkernel
  | @drained exit =>
    cases exit with
    | shutdown => obtain ⟨-, -, -, ⟨hexit, -⟩ | ⟨hexit, -⟩⟩ := hstage <;> cases hexit
    | destruction | routeFailure => trivial
  | _ => trivial

theorem UsesRoute.knows {route : RuntimeRoute} (h : d.UsesRoute conv route pc pc')
    (hknows : d.Knows setup pc) : ((d.setRoute route).goto pc').Knows setup pc' := by
  cases h with
  | requestClose => exact ⟨hknows.settled, hknows.retired⟩
  | _ => trivial

theorem Closing.worker_step (h : d.Closing setup) (hs : d.Synced) (hpc : d.worker = pc)
    (hstage : d.StageOk pc.stage) (hinv : d.kernel.Inv conv setup.kernel)
    (hquiescing : d.kernel.Quiescing setup.kernel) (hmove : d.WorkerMove conv setup pc d') :
    d'.Closing setup := by
  have hfollows : Follows conv setup d d' := (Move.worker hpc hmove).kernel_cases
  -- a step that retires nothing and does not end the loop
  have hgoes : d'.shutdownRequested = d.shutdownRequested →
      d'.shutdownOutcome = d.shutdownOutcome → d'.Knows setup d'.worker →
      (d.shutdownOutcome ≠ none → d'.ledger.retiredRecords = d.ledger.retiredRecords) →
      d'.Closing setup := by
    intro hrequested houtcome hknows hretired
    refine ⟨fun hreq ↦ hfollows.closed (h.closed (hrequested ▸ hreq)), hknows, fun hne ↦ ?_⟩
    rw [houtcome] at hne
    exact (h.ended hne).follows hinv hfollows (hretired hne)
  have hknows := h.knows
  rw [hpc] at hknows
  cases hmove with
  | reads hreads =>
    refine hgoes rfl rfl ?_ fun _ ↦ rfl
    exact (hreads.knows hknows hpc hs).follows hinv h.closed hfollows id rfl
  | callsKernel hcalls hkernel =>
    exact hgoes rfl rfl (hcalls.knows hknows h hstage hinv hquiescing hkernel) fun _ ↦ rfl
  | usesRoute huses => exact hgoes rfl rfl (huses.knows hknows) fun _ ↦ rfl
  | completes hcompletes =>
    refine hgoes rfl rfl ?_ fun _ ↦ rfl
    cases hcompletes <;> trivial
  | recordRetirement | recordProcessed =>
    refine hgoes rfl rfl ?_ fun hne ↦ absurd hstage.2.2 hne
    dsimp only
    split <;> trivial
  | @noneReady stored =>
    refine hgoes rfl rfl ?_ fun _ ↦ rfl
    cases stored <;> trivial
  | @noneActive exit =>
    refine hgoes rfl rfl ?_ fun _ ↦ rfl
    cases exit <;> trivial
  | recordCloseError => exact hgoes rfl rfl ⟨hknows.settled, hknows.retired⟩ fun _ ↦ rfl
  | @finish exit =>
    cases exit with
    | shutdown => exact ⟨h.closed, trivial, fun _ ↦ ⟨hknows.settled, hknows.retired⟩⟩
    | destruction | routeFailure => exact ⟨h.closed, trivial, fun hne ↦ absurd rfl hne⟩
  | _ => exact hgoes rfl rfl trivial fun _ ↦ rfl

theorem Closing.other (h : d.Closing setup) (hinv : d.kernel.Inv conv setup.kernel)
    (hfollows : Follows conv setup d d') (hworker : d'.worker = d.worker)
    (hledger : d'.ledger = d.ledger) (houtcome : d'.shutdownOutcome = d.shutdownOutcome)
    (hrequested : d.shutdownRequested = true → d'.shutdownRequested = true)
    (hclosed : d'.shutdownRequested = true → d.shutdownRequested = true ∨
      d'.kernel.memory.admissionOpen = false) : d'.Closing setup := by
  have hretired : d'.ledger.retiredRecords = d.ledger.retiredRecords := by rw [hledger]
  refine ⟨fun hreq ↦ ?_, ?_, fun hne ↦ ?_⟩
  · rcases hclosed hreq with hreq | hclosed
    · exact hfollows.closed (h.closed hreq)
    · exact hclosed
  · rw [hworker]
    exact h.knows.follows hinv h.closed hfollows hrequested hretired
  · rw [houtcome] at hne
    exact (h.ended hne).follows hinv hfollows hretired

theorem Closing.of_reach (h : (machine conv setup).Reach ok d) : d.Closing setup := by
  refine Machine.Reach.invariant_of_reach (I := fun d ↦ d.Closing setup) h
    ⟨by rintro ⟨⟩, trivial, fun hne ↦ absurd rfl hne⟩ fun d action d' hd hclosing _ hstep ↦ ?_
  have hreach := kernel_reachable hd
  have hinv : d.kernel.Inv conv setup.kernel := .of_reach hreach
  have hmove := Move.of_step hstep
  have hfollows : Follows conv setup d d' := hmove.kernel_cases
  cases hmove with
  | worker hpc hworker =>
    exact hclosing.worker_step (.of_reach hd) hpc (hpc ▸ .of_reach hd) hinv (.of_reach hreach)
      hworker
  | caller _ hcaller =>
    cases hcaller with
    | close _ _ hkernel =>
      refine hclosing.other hinv hfollows rfl rfl rfl (fun _ ↦ rfl) fun _ ↦ .inr ?_
      cases Kernel.Move.of_step hkernel with
      | enter _ hcall => cases hcall
      | closeAdmission => rfl
    | _ => exact hclosing.other hinv hfollows rfl rfl rfl id .inl
  | _ => exact hclosing.other hinv hfollows rfl rfl rfl id .inl

end RuntimeDomain

end Ulog
