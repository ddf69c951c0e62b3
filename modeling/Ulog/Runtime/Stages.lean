import Ulog.Runtime.Steps

/-!
# Stages of the worker

The worker runs its loop, leaves it in one of three ways, and stops. `StageOk` says for each stage
whether actions are accepted, whether the ledger is settled, and why the worker is there. Most steps
stay in their stage, and the flags that give the reason are never cleared.

Whoever is in a critical section of several steps holds the state mutex, so there is at most one
such thread, and what `StartAction` has looked at stays true until it leaves.
-/

namespace Ulog

/-- The stages of `Run`. -/
inductive WorkerStage where
  | running
  | preparing (exit : WorkerExit)
  | closing (exit : WorkerExit)
  | settled (exit : WorkerExit)
  | finishing (outcome : OperationOutcome)
  | completing (outcome : OperationOutcome)
  | ended
  deriving DecidableEq

/-- The stage of the code around `CompleteActions`. -/
def WorkerExit.stage : WorkerExit → WorkerStage
  | .shutdown outcome => .completing outcome
  | exit => .closing exit

namespace WorkerPc

def stage : WorkerPc → WorkerStage
  | .prepare exit => .preparing exit
  | .resetRegistrations exit _ | .retireRegistration exit _ | .stopRoute exit | .settle exit =>
    .closing exit
  | .nextAction exit | .buildReport exit .. | .completeAction exit .. | .completingAction exit =>
    exit.stage
  | .discardInFlight exit | .isQuiescent (some exit) | .quiescent (some exit)
  | .discardRecord exit | .discarding exit => .settled exit
  | .finish (.shutdown outcome) => .finishing outcome
  | .finish exit => .settled exit
  | .stop | .stopped => .ended
  | _ => .running

/-- The worker is in a critical section of several steps. -/
def holdsMutex : WorkerPc → Bool
  | .resetRegistrations .. | .retireRegistration .. | .buildReport .. => true
  | _ => false

end WorkerPc

namespace CallerPc

/-- The caller is in a critical section of several steps. -/
def holdsMutex : CallerPc → Bool
  | .resetRegistrations .. | .retireRegistration .. | .watermark .. | .buildReport ..
  | .registering | .dropRegistration .. | .droppingRegistration => true
  | _ => false

/-- The caller has seen that actions are accepted. -/
def isEntering : CallerPc → Bool
  | .resetRegistrations .. | .retireRegistration .. | .watermark _ _ none => true
  | _ => false

end CallerPc

namespace RuntimeDomain

variable {conv : Charconv} {setup : RuntimeSetup} {d d' : RuntimeDomain} {pc pc' : WorkerPc}

/-- There is a reason to stop without a Shutdown. -/
def Justifies (d : RuntimeDomain) (exit : WorkerExit) : Prop :=
  exit = .destruction ∧ d.destructionStopRequested = true ∨
    exit = .routeFailure ∧ d.routeFailed = true

/-- A Shutdown fails only together with the route. -/
def Admits (d : RuntimeDomain) (outcome : OperationOutcome) : Prop :=
  outcome = .succeeded ∨ outcome = .failed ∧ d.routeFailed = true

/-- What holds in a stage. -/
def StageOk (d : RuntimeDomain) : WorkerStage → Prop
  | .running =>
    d.acceptingActions = true ∧ d.ledger.settled = false ∧ d.shutdownOutcome = none
  | .preparing exit =>
    d.acceptingActions = true ∧ d.ledger.settled = false ∧ d.shutdownOutcome = none ∧
      (exit = .destruction ∧ d.destructionStopRequested = true ∨ exit = .routeFailure)
  | .closing exit =>
    d.acceptingActions = false ∧ d.ledger.settled = false ∧ d.shutdownOutcome = none ∧
      d.Justifies exit
  | .settled exit =>
    d.acceptingActions = false ∧ d.ledger.settled = true ∧ d.shutdownOutcome = none ∧
      d.Justifies exit
  | .finishing outcome =>
    d.acceptingActions = true ∧ d.ledger.settled = false ∧ d.shutdownOutcome = none ∧
      d.Admits outcome
  | .completing outcome =>
    d.acceptingActions = false ∧ d.ledger.settled = false ∧ d.shutdownOutcome = some outcome ∧
      d.Admits outcome
  | .ended =>
    d.acceptingActions = false ∧
      (d.ledger.settled = true ∧ d.shutdownOutcome = none ∧ (∃ exit, d.Justifies exit) ∨
        ∃ outcome, d.ledger.settled = false ∧ d.shutdownOutcome = some outcome ∧
          d.Admits outcome)

/-- The flags a stage depends on are as they were. -/
structure SameFlags (d d' : RuntimeDomain) : Prop where
  accepting : d'.acceptingActions = d.acceptingActions
  settled : d'.ledger.settled = d.ledger.settled
  outcome : d'.shutdownOutcome = d.shutdownOutcome
  failed : d.routeFailed = true → d'.routeFailed = true
  destruction : d.destructionStopRequested = true → d'.destructionStopRequested = true

theorem Justifies.mono {exit : WorkerExit} (h : d.Justifies exit)
    (hfailed : d.routeFailed = true → d'.routeFailed = true)
    (hdestruction : d.destructionStopRequested = true → d'.destructionStopRequested = true) :
    d'.Justifies exit :=
  h.imp (fun h ↦ ⟨h.1, hdestruction h.2⟩) fun h ↦ ⟨h.1, hfailed h.2⟩

theorem Admits.mono {outcome : OperationOutcome} (h : d.Admits outcome)
    (hfailed : d.routeFailed = true → d'.routeFailed = true) : d'.Admits outcome :=
  h.imp id fun h ↦ ⟨h.1, hfailed h.2⟩

theorem StageOk.mono {stage : WorkerStage} (h : d.StageOk stage) (hf : SameFlags d d') :
    d'.StageOk stage := by
  cases stage with
  | running =>
    obtain ⟨haccepting, hsettled, houtcome⟩ := h
    exact ⟨hf.accepting.trans haccepting, hf.settled.trans hsettled, hf.outcome.trans houtcome⟩
  | preparing exit =>
    obtain ⟨haccepting, hsettled, houtcome, hexit⟩ := h
    exact ⟨hf.accepting.trans haccepting, hf.settled.trans hsettled, hf.outcome.trans houtcome,
      hexit.imp (fun h ↦ ⟨h.1, hf.destruction h.2⟩) id⟩
  | closing exit | settled exit =>
    obtain ⟨haccepting, hsettled, houtcome, hexit⟩ := h
    exact ⟨hf.accepting.trans haccepting, hf.settled.trans hsettled, hf.outcome.trans houtcome,
      hexit.mono hf.failed hf.destruction⟩
  | finishing outcome | completing outcome =>
    obtain ⟨haccepting, hsettled, houtcome, hadmits⟩ := h
    exact ⟨hf.accepting.trans haccepting, hf.settled.trans hsettled, hf.outcome.trans houtcome,
      hadmits.mono hf.failed⟩
  | ended =>
    obtain ⟨haccepting, h⟩ := h
    refine ⟨hf.accepting.trans haccepting, ?_⟩
    rcases h with ⟨hsettled, houtcome, exit, hexit⟩ | ⟨outcome, hsettled, houtcome, hadmits⟩
    · exact .inl ⟨hf.settled.trans hsettled, hf.outcome.trans houtcome, exit,
        hexit.mono hf.failed hf.destruction⟩
    · exact .inr ⟨outcome, hf.settled.trans hsettled, hf.outcome.trans houtcome,
        hadmits.mono hf.failed⟩

/-- Looking at something changes the stage only where the loop is left. -/
theorem Reads.stage (h : d.Reads pc pc') : pc'.stage = pc.stage ∨
    (pc.stage = .running ∧
      (pc'.stage = .preparing .destruction ∧ d.destructionStopRequested = true ∨
        pc'.stage = .finishing .succeeded)) := by
  cases h with
  | destruction hstop => exact .inr ⟨rfl, .inl ⟨rfl, hstop⟩⟩
  | closed => exact .inr ⟨rfl, .inr rfl⟩
  | _ => exact .inl rfl

theorem CallsKernel.stage {action : KernelAction} (h : d.CallsKernel pc action pc')
    (hok : d.StageOk pc.stage) : pc'.stage = pc.stage := by
  cases h with
  | @drained exit =>
    cases exit with
    | shutdown outcome => obtain ⟨-, -, -, ⟨hexit, -⟩ | ⟨hexit, -⟩⟩ := hok <;> cases hexit
    | _ => rfl
  | @isQuiescent exit => cases exit <;> rfl
  | _ => rfl

theorem UsesRoute.stage {route : RuntimeRoute} (h : d.UsesRoute conv route pc pc')
    (hok : d.StageOk pc.stage) : pc'.stage = pc.stage := by
  cases h with
  | @stopRoute exit =>
    cases exit with
    | shutdown outcome => obtain ⟨-, -, -, ⟨hexit, -⟩ | ⟨hexit, -⟩⟩ := hok <;> cases hexit
    | _ => rfl
  | _ => rfl

theorem Completes.stage {completion : ℕ} {outcome : OperationOutcome} {report : OperationReport}
    (h : Completes pc completion outcome report pc') : pc'.stage = pc.stage := by
  cases h <;> rfl

theorem retiredRecords_retire (l : RouteLedger) (retirement : DeliveryRetirement) :
    (l.retire retirement).retiredRecords = l.retiredRecords + 1 := by
  rw [RouteLedger.retire]
  split <;> rfl

/-- The settled flag is set by `SettleInFlight` only. -/
theorem settled_retire (l : RouteLedger) (retirement : DeliveryRetirement) :
    (l.retire retirement).settled = l.settled := by
  rw [RouteLedger.retire]
  split <;> rfl

theorem settled_process (l : RouteLedger) (delivery : RouteDeliveryResult) :
    (l.process delivery).settled = l.settled := by
  rw [RouteLedger.process]
  split
  · exact settled_retire ..
  · rfl

theorem StageOk.worker (h : d.StageOk pc.stage) (hmove : d.WorkerMove conv setup pc d') :
    d'.StageOk d'.worker.stage := by
  -- a step within a stage that leaves the flags alone
  have hsame : ∀ {e : RuntimeDomain}, SameFlags d e → e.worker.stage = pc.stage →
      e.StageOk e.worker.stage := by
    intro e hf hstage
    rw [hstage]
    exact h.mono hf
  cases hmove with
  | @reads _ pc hreads =>
    rcases hreads.stage with hstage | ⟨hrunning, hstage⟩
    · exact hsame ⟨rfl, rfl, rfl, id, id⟩ hstage
    · rw [hrunning] at h
      change d.StageOk pc.stage
      obtain ⟨haccepting, hsettled, houtcome⟩ := h
      rcases hstage with ⟨hstage, hstop⟩ | hstage <;> rw [hstage]
      · exact ⟨haccepting, hsettled, houtcome, .inl ⟨rfl, hstop⟩⟩
      · exact ⟨haccepting, hsettled, houtcome, .inl rfl⟩
  | callsKernel hcalls => exact hsame ⟨rfl, rfl, rfl, id, id⟩ (hcalls.stage h)
  | usesRoute huses => exact hsame ⟨rfl, rfl, rfl, id, id⟩ (huses.stage h)
  | completes hcompletes => exact hsame ⟨rfl, rfl, rfl, id, id⟩ hcompletes.stage
  | recordRetirement =>
    refine hsame ⟨rfl, settled_retire .., rfl, id, id⟩ ?_
    dsimp only
    split <;> rfl
  | @noneReady stored =>
    refine hsame ⟨rfl, rfl, rfl, id, id⟩ ?_
    cases stored <;> rfl
  | recordTerminalError | recordEncodingFailure => exact ⟨h.1, h.2.1, h.2.2, .inr rfl⟩
  | prepare =>
    obtain ⟨-, hsettled, houtcome, hexit⟩ := h
    refine ⟨rfl, hsettled, houtcome, ?_⟩
    rcases hexit with ⟨rfl, hstop⟩ | rfl
    · exact .inl ⟨rfl, hstop⟩
    · exact .inr ⟨rfl, by simp⟩
  | @noneActive exit =>
    cases exit with
    | shutdown outcome =>
      obtain ⟨haccepting, hsettled, houtcome, hadmits⟩ := h
      exact ⟨haccepting, .inr ⟨outcome, hsettled, houtcome, hadmits⟩⟩
    | destruction | routeFailure => exact h
  | settle => exact ⟨h.1, rfl, h.2.2⟩
  | recordCloseError => exact ⟨h.1, h.2.1, h.2.2, .inr ⟨rfl, rfl⟩⟩
  | recordProcessed =>
    refine hsame ⟨rfl, settled_process .., rfl, id, id⟩ ?_
    dsimp only
    split <;> rfl
  | @finish exit =>
    cases exit with
    | shutdown outcome =>
      obtain ⟨-, hsettled, -, hadmits⟩ := h
      exact ⟨rfl, hsettled, rfl, hadmits⟩
    | destruction | routeFailure =>
      obtain ⟨-, hsettled, -, hexit⟩ := h
      exact ⟨rfl, .inl ⟨hsettled, rfl, _, hexit⟩⟩
  | _ => exact hsame ⟨rfl, rfl, rfl, id, id⟩ rfl

theorem CallerMove.sameFlags {t : ℕ} {pc : CallerPc} (h : d.CallerMove conv setup t pc d') :
    SameFlags d d' ∧ d'.worker = d.worker := by
  cases h <;> exact ⟨⟨rfl, rfl, rfl, id, id⟩, rfl⟩

theorem StageOk.step (h : d.StageOk d.worker.stage) {action : DomainAction}
    (hmove : d.Move conv setup action d') : d'.StageOk d'.worker.stage := by
  cases hmove with
  | worker hpc hworker =>
    rw [hpc] at h
    exact h.worker hworker
  | caller _ hcaller =>
    obtain ⟨hflags, hworker⟩ := hcaller.sameFlags
    rw [hworker]
    exact h.mono hflags
  | requestDestruction => exact h.mono ⟨rfl, rfl, rfl, id, fun _ ↦ rfl⟩
  | _ => exact h.mono ⟨rfl, rfl, rfl, id, id⟩

theorem StageOk.of_reach {ok : RuntimeDomain → DomainAction → Prop}
    (h : (machine conv setup).Reach ok d) : d.StageOk d.worker.stage :=
  h.invariant (I := fun d ↦ d.StageOk d.worker.stage) ⟨rfl, rfl, rfl⟩
    fun _ _ _ hd _ hstep ↦ hd.step (.of_step hstep)

theorem workerThread_lt {ok : RuntimeDomain → DomainAction → Prop}
    (h : (machine conv setup).Reach ok d) : ∀ t, d.callers t ≠ .idle → workerThread < t := by
  refine h.invariant (I := fun d ↦ ∀ t, d.callers t ≠ .idle → workerThread < t)
    (fun _ hne ↦ absurd rfl hne) fun d action d' hd _ hstep t hne ↦ ?_
  -- a call that was made before, or one that is made now
  have hcall : ∀ {t' : ℕ} {pc : CallerPc}, workerThread < t' →
      d'.callers = Function.update d.callers t' pc → workerThread < t := by
    intro t' pc ht' heq
    by_cases ht : t = t'
    · exact ht ▸ ht'
    · rw [heq, Function.update_of_ne ht] at hne
      exact hd t hne
  cases Move.of_step hstep with
  | worker _ hworker => cases hworker <;> exact hd t hne
  | caller hpc hcaller => cases hcaller <;> exact hcall (hd _ (by rw [hpc]; rintro ⟨⟩)) rfl
  | started ht | getLogger ht => exact hcall ht rfl
  | _ => exact hd t hne

/-! ## The state mutex -/

/-- The thread is in a critical section of several steps; the worker is thread zero. -/
def inside (d : RuntimeDomain) (t : ℕ) : Bool :=
  if t = consumerThread then d.worker.holdsMutex else (d.callers t).holdsMutex

structure Guarded (d : RuntimeDomain) : Prop where
  holds : ∀ t, d.inside t = true → d.mutex = some t
  entering : ∀ t, (d.callers t).isEntering = true → d.acceptingActions = true

namespace Guarded

variable {t : ℕ} {ok : RuntimeDomain → DomainAction → Prop}

theorem moves (h : d.Guarded) (hothers : ∀ s, s ≠ t → d'.inside s = d.inside s)
    (hself : d'.mutex = d.mutex ∧ (d'.inside t = true → d.inside t = true) ∨
      d.mutex = none ∧ d'.mutex = some t ∨ d.inside t = true ∧ d'.inside t = false) :
    ∀ s, d'.inside s = true → d'.mutex = some s := by
  intro s hs
  by_cases hst : s = t
  · subst hst
    rcases hself with ⟨hmutex, hbefore⟩ | ⟨-, hmutex⟩ | ⟨-, hleft⟩
    · exact hmutex.trans (h.holds s (hbefore hs))
    · exact hmutex
    · cases hleft.symm.trans hs
  · rw [hothers s hst] at hs
    have hheld := h.holds s hs
    rcases hself with ⟨hmutex, -⟩ | ⟨hmutex, -⟩ | ⟨hinside, -⟩
    · exact hmutex.trans hheld
    · cases hmutex.symm.trans hheld
    · exact absurd (Option.some.inj (hheld.symm.trans (h.holds t hinside))) hst

theorem caller (h : d.Guarded) (hlt : ∀ t, d.callers t ≠ .idle → workerThread < t)
    (hin : (d.callers t).holdsMutex = true) : d.mutex = some t := by
  have hne : d.callers t ≠ .idle := by
    intro hidle
    rw [hidle] at hin
    cases hin
  have ht : t ≠ consumerThread := Nat.ne_of_gt (Nat.zero_lt_of_lt (hlt t hne))
  exact h.holds t ((if_neg ht).trans hin)

theorem worker_step (h : d.Guarded) (hlt : ∀ t, d.callers t ≠ .idle → workerThread < t)
    (hpc : d.worker = pc) (hmove : d.WorkerMove conv setup pc d') : d'.Guarded := by
  have hmoves : d'.callers = d.callers → (d'.mutex = d.mutex ∧
      (d'.worker.holdsMutex = true → pc.holdsMutex = true) ∨
      d.mutex = none ∧ d'.mutex = some consumerThread ∨
      pc.holdsMutex = true ∧ d'.worker.holdsMutex = false) →
      ∀ s, d'.inside s = true → d'.mutex = some s := by
    intro hcallers hself
    refine h.moves (t := consumerThread) (fun s hs ↦ ?_) ?_
    · rw [inside, inside, if_neg hs, if_neg hs, hcallers]
    · rwa [inside, inside, if_pos rfl, if_pos rfl, hpc]
  -- nobody is inside while the worker stops to accept actions
  have hnobody : d.mutex = none → ∀ t, (d.callers t).isEntering = false := by
    intro hmutex t
    cases hpc : d.callers t with
    | resetRegistrations | retireRegistration | watermark =>
      cases hmutex.symm.trans (h.caller hlt (t := t) (by rw [hpc]; rfl))
    | _ => rfl
  cases hmove with
  | prepare hmutex =>
    refine ⟨hmoves rfl (.inr (.inl ⟨hmutex, rfl⟩)), fun t ht ↦ ?_⟩
    cases (hnobody hmutex t).symm.trans ht
  | @finish exit hmutex =>
    refine ⟨hmoves rfl (.inl ⟨rfl, ?_⟩), fun t ht ↦ ?_⟩
    · cases exit <;> rintro ⟨⟩
    · cases (hnobody hmutex t).symm.trans ht
  | takeAction hmutex => exact ⟨hmoves rfl (.inr (.inl ⟨hmutex, rfl⟩)), h.entering⟩
  | prepared | buildReport => exact ⟨hmoves rfl (.inr (.inr ⟨rfl, rfl⟩)), h.entering⟩
  | resetRegistration => exact ⟨hmoves rfl (.inl ⟨rfl, id⟩), h.entering⟩
  | reads hreads =>
    refine ⟨hmoves rfl (.inl ⟨rfl, ?_⟩), h.entering⟩
    cases hreads with
    | resetRegistrations => exact id
    | _ => rintro ⟨⟩
  | callsKernel hcalls =>
    refine ⟨hmoves rfl (.inl ⟨rfl, ?_⟩), h.entering⟩
    cases hcalls with
    | retireRegistration => exact id
    | _ => rintro ⟨⟩
  | usesRoute huses => exact ⟨hmoves rfl (.inl ⟨rfl, by cases huses <;> rintro ⟨⟩⟩), h.entering⟩
  | completes hcompletes =>
    exact ⟨hmoves rfl (.inl ⟨rfl, by cases hcompletes <;> rintro ⟨⟩⟩), h.entering⟩
  | recordRetirement | noneReady | noneActive | recordProcessed =>
    refine ⟨hmoves rfl (.inl ⟨rfl, ?_⟩), h.entering⟩
    dsimp only [goto]
    split <;> rintro ⟨⟩
  | _ => exact ⟨hmoves rfl (.inl ⟨rfl, by rintro ⟨⟩⟩), h.entering⟩

theorem caller_step (h : d.Guarded) {pc pc' : CallerPc} (hpc : d.callers t = pc)
    (ht : t ≠ consumerThread) (hworker : d'.worker = d.worker)
    (hcallers : d'.callers = Function.update d.callers t pc')
    (haccepting : d'.acceptingActions = d.acceptingActions)
    (hself : d'.mutex = d.mutex ∧ (pc'.holdsMutex = true → pc.holdsMutex = true) ∨
      d.mutex = none ∧ d'.mutex = some t ∨ pc.holdsMutex = true ∧ pc'.holdsMutex = false)
    (hentering : pc'.isEntering = true → pc.isEntering = true ∨ d.acceptingActions = true) :
    d'.Guarded := by
  have hupdate : ∀ s, s ≠ t → d'.callers s = d.callers s := by
    intro s hs
    rw [hcallers, Function.update_of_ne hs]
  refine ⟨h.moves (t := t) (fun s hs ↦ ?_) ?_, fun s hs ↦ ?_⟩
  · rw [inside, inside, hworker, hupdate s hs]
  · rwa [inside, inside, if_neg ht, if_neg ht, hcallers, Function.update_self, hpc]
  · rw [haccepting]
    by_cases hst : s = t
    · rw [hst, hcallers, Function.update_self] at hs
      exact (hentering hs).elim (fun hpc' ↦ h.entering t (hpc ▸ hpc')) id
    · rw [hupdate s hst] at hs
      exact h.entering s hs

theorem of_reach (h : (machine conv setup).Reach ok d) : d.Guarded := by
  refine Machine.Reach.invariant_of_reach (I := Guarded) h ⟨fun t ht ↦ ?_, by rintro _ ⟨⟩⟩
    fun d action d' hd hg _ hstep ↦ ?_
  · rw [inside] at ht
    split at ht <;> cases ht
  have hlt := workerThread_lt hd
  have hne : ∀ {t : ℕ}, workerThread < t → t ≠ consumerThread := fun ht ↦
    Nat.ne_of_gt (Nat.zero_lt_of_lt ht)
  cases Move.of_step hstep with
  | worker hpc hworker => exact hg.worker_step hlt hpc hworker
  | @caller t pc _ hpc hcaller =>
    have ht : t ≠ consumerThread :=
      hne (hlt t (hpc.trans_ne (by cases hcaller <;> rintro ⟨⟩)))
    cases hcaller with
    | refuse _ hmutex | registerProducer hmutex =>
      exact hg.caller_step hpc ht rfl rfl rfl (.inr (.inl ⟨hmutex, rfl⟩)) (by rintro ⟨⟩)
    | close haccepting hmutex | enter haccepting _ hmutex =>
      exact hg.caller_step hpc ht rfl rfl rfl (.inr (.inl ⟨hmutex, rfl⟩)) fun _ ↦ .inr haccepting
    | drained | register | buildReport | registered | droppingRegistration =>
      exact hg.caller_step hpc ht rfl rfl rfl (.inr (.inr ⟨rfl, rfl⟩)) (by rintro ⟨⟩)
    | nextRegistration | resetRegistration | retireRegistration | closed =>
      exact hg.caller_step hpc ht rfl rfl rfl (.inl ⟨rfl, id⟩) .inl
    | watermark | noEntry | noPlace | dropRegistration =>
      exact hg.caller_step hpc ht rfl rfl rfl (.inl ⟨rfl, id⟩) (by rintro ⟨⟩)
    | tryComplete | completing | logger =>
      exact hg.caller_step hpc ht rfl rfl rfl (.inl ⟨rfl, by rintro ⟨⟩⟩) (by rintro ⟨⟩)
  | started ht hpc | getLogger ht hpc =>
    exact hg.caller_step hpc (hne ht) rfl rfl rfl (.inl ⟨rfl, by rintro ⟨⟩⟩) (by rintro ⟨⟩)
  | _ => exact ⟨hg.holds, hg.entering⟩

end Guarded

end RuntimeDomain

end Ulog
