import Ulog.Runtime.Filed
import Ulog.Runtime.Ledger

/-!
# Retirements of a file

The outcomes of the retirements are those of the sink. A Record that is retired as delivered is
complete in the file. One that is retired as failed has left an error in the sink; the worker looks
for it behind every retirement and keeps it, so a Shutdown of a file is finished only if every
Record was delivered.
-/

namespace Ulog

/-- The worker is in its loop, or has finished a Shutdown, and not about to look for an error. -/
def WorkerPc.goesOn : WorkerPc → Bool
  | .checkFailure | .terminalError | .recordTerminalError _ | .prepare _ | .resetRegistrations ..
  | .retireRegistration .. | .stopRoute _ | .nextAction _ | .buildReport .. | .completeAction ..
  | .completingAction _ | .settle _ | .discardInFlight _ | .isQuiescent (some _)
  | .quiescent (some _) | .discardRecord _ | .discarding _ | .finish .destruction
  | .finish .routeFailure | .stop | .stopped => false
  | _ => true

namespace FileRun

variable {conv : Charconv} {r r' : FileRun} {a : FileAction} {e : ℕ × DeliveryOutcome} {n : ℕ}

/-- The sink bears out an outcome. -/
def Bears (r : FileRun) (e : ℕ × DeliveryOutcome) : Prop :=
  match e.2 with
  | .delivered => e.1 ∈ r.delivered.map (·.1)
  | .failed => r.sink.failureError ≠ 0

theorem Bears.step (h : r.Bears e) (hinv : r.Inv) (hmove : Move conv r a r') : r'.Bears e := by
  obtain ⟨n, o⟩ := e
  cases o with
  | delivered => exact ((hinv.delivered_prefix hmove).map _).subset h
  | failed => exact hmove.lasting.failureError h

theorem Answered.bears (h : r.Answered) {retirement : DeliveryRetirement}
    (hretired : (r.sink.tryRetire n).2 = some retirement) : r.Bears (n, retirement.outcome) := by
  replace hretired : (tryRetire r.sink.deliveries r.sink.bufferCount n).2 = _ := hretired
  rcases tryRetire_cases r.sink.deliveries r.sink.bufferCount n with
    heq | ⟨i, -, o, ho, hn, heq⟩ <;> rw [heq] at hretired <;> cases hretired
  rw [DeliveryState.outcome_eq_some] at ho
  cases o with
  | delivered => exact hn ▸ h.delivered i ho
  | failed => exact h.failed i ho

end FileRun

namespace RuntimeDomain

variable {conv : Charconv} {setup : RuntimeSetup} {d d' : RuntimeDomain} {pc pc' : WorkerPc}
  {action : DomainAction} {ok : RuntimeDomain → DomainAction → Prop} {r r' : FileRun}

/-- Sequences are retired with the outcomes of the sink, and none is lost to its encoding. -/
structure Retired (d : RuntimeDomain) (r : FileRun) : Prop where
  bears : ∀ e ∈ d.retirements, r.Bears e
  pending : ∀ n retirement, d.worker = .recordRetirement n retirement →
    r.Bears (n, retirement.outcome)
  encoding : d.ledger.encodingFailedSequence = none

namespace Retired

theorem quiet (h : d.Retired r) (hbears : ∀ e, r.Bears e → r'.Bears e)
    (hencoding : d'.ledger.encodingFailedSequence = d.ledger.encodingFailedSequence)
    (hretirements : d'.retirements = d.retirements)
    (hpc : ∀ n retirement, d'.worker = .recordRetirement n retirement →
      r'.Bears (n, retirement.outcome)) : d'.Retired r' := by
  refine ⟨?_, hpc, hencoding.trans h.encoding⟩
  rw [hretirements]
  exact fun e he ↦ hbears e (h.bears e he)

theorem worker_step (h : d.Retired r) (hfiling : Filing conv setup d r)
    (hbears : ∀ e, r.Bears e → r'.Bears e) (hpc : d.worker = pc)
    (hmove : d.WorkerMove conv setup pc d') : d'.Retired r' := by
  have hsubmits := hfiling.submits
  rw [hpc] at hsubmits
  cases hmove with
  | reads hreads => exact h.quiet hbears rfl rfl (by cases hreads <;> rintro _ _ ⟨⟩)
  | callsKernel hcalls => exact h.quiet hbears rfl rfl (by cases hcalls <;> rintro _ _ ⟨⟩)
  | completes hcompletes => exact h.quiet hbears rfl rfl (by cases hcompletes <;> rintro _ _ ⟨⟩)
  | usesRoute huses =>
    refine h.quiet hbears rfl rfl ?_
    cases huses with
    | retire _ htry =>
      rintro _ _ ⟨⟩
      rw [hfiling.route] at htry
      obtain ⟨_, -, heq⟩ := Option.map_eq_some_iff.mp htry
      exact hbears _ (hfiling.filed.answered.bears (Prod.mk.inj heq).2)
    | _ => rintro _ _ ⟨⟩
  | @recordRetirement n retirement =>
    refine ⟨fun e he ↦ hbears e ?_, ?_, ?_⟩
    · rcases List.mem_append.mp he with he | he
      · exact h.bears e he
      · rw [List.mem_singleton.mp he]
        exact h.pending n retirement hpc
    · dsimp only
      split <;> rintro _ _ ⟨⟩
    · dsimp only [RouteLedger.retire]
      split <;> exact h.encoding
  | @recordProcessed delivery =>
    have hnot : delivery.retired = false := hsubmits
    refine h.quiet hbears ?_ ?_ ?_ <;> dsimp only [RouteLedger.process] <;> rw [hnot]
    · rfl
    · exact List.append_nil _
    · rintro _ _ ⟨⟩
  | recordEncodingFailure => exact hsubmits.elim
  | noneReady | noneActive | finish =>
    refine h.quiet hbears rfl rfl ?_
    dsimp only [goto]
    split <;> rintro _ _ ⟨⟩
  | _ => exact h.quiet hbears rfl rfl (by rintro _ _ ⟨⟩)

/-- Without an error nothing has failed. -/
theorem delivers (h : d.Retired r) (herror : r.sink.failureError = 0) :
    ∀ e ∈ d.retirements, e.2 = .delivered := by
  rintro ⟨n, o⟩ he
  cases o with
  | delivered => rfl
  | failed => exact absurd herror (h.bears _ he)

end Retired

/-! ## Errors -/

/-- Every Record that was retired was delivered. -/
def Delivers (d : RuntimeDomain) : Prop := ∀ e ∈ d.retirements, e.2 = .delivered

/-- Nothing failed before a Shutdown, and it has succeeded only if the file was closed. -/
def Ends (d : RuntimeDomain) (r : FileRun) (outcome : OperationOutcome) : Prop :=
  d.Delivers ∧ (outcome = .succeeded → r.sink.closeOutcome = some 0)

/-- What the worker has found out about errors. -/
def Vouches (d : RuntimeDomain) (r : FileRun) : WorkerPc → Prop
  | .recordCloseError error | .recordTerminalError error => error ≠ 0
  | .finish (.shutdown outcome) => outcome = .succeeded → r.sink.closeOutcome = some 0
  | .prepare .routeFailure => d.routeIoError ≠ 0
  | _ => True

structure Vouched (d : RuntimeDomain) (r : FileRun) : Prop where
  worker : d.Vouches r d.worker
  going : d.worker.goesOn = true → d.Delivers
  failed : d.routeFailed = true → d.routeIoError ≠ 0
  ended : ∀ outcome, d.shutdownOutcome = some outcome → d.Ends r outcome

theorem Ends.congr {outcome : OperationOutcome} (h : d.Ends r outcome)
    (hretirements : d'.retirements = d.retirements)
    (hclosed : r.sink.closeOutcome = some 0 → r'.sink.closeOutcome = some 0) :
    d'.Ends r' outcome := by
  rw [Ends, Delivers, hretirements]
  exact h.imp_right fun h houtcome ↦ hclosed (h houtcome)

theorem Vouches.congr (h : d.Vouches r pc) (herror : d'.routeIoError = d.routeIoError)
    (hclosed : r.sink.closeOutcome = some 0 → r'.sink.closeOutcome = some 0) :
    d'.Vouches r' pc := by
  cases pc with
  | recordCloseError | recordTerminalError => exact h
  | finish exit =>
    cases exit with
    | shutdown => exact fun houtcome ↦ hclosed (h houtcome)
    | destruction | routeFailure => trivial
  | prepare exit =>
    cases exit with
    | routeFailure => exact fun hzero ↦ h (herror ▸ hzero)
    | destruction | shutdown => trivial
  | _ => trivial

theorem Reads.vouches (h : d.Reads pc pc') (hroute : d.route = .file r) : d.Vouches r pc' := by
  cases h with
  | closeFailed _ herror | terminalError herror => exact herror
  | closed hclose =>
    rw [hroute] at hclose
    exact fun _ ↦ hclose
  | _ => trivial

theorem Reads.goesOn (h : d.Reads pc pc') (hpc : pc'.goesOn = true) :
    pc.goesOn = true ∨ d.route.terminalError = 0 := by
  cases h with
  | notFailed herror | noTerminalError herror => exact .inr herror
  | _ => exact .inl (by first | rfl | exact hpc)

theorem CallsKernel.vouches {a : KernelAction} (h : d.CallsKernel pc a pc')
    (hstage : d.StageOk pc.stage) :
    d.Vouches r pc' ∧ (pc'.goesOn = true → pc.goesOn = true) := by
  cases h with
  | drained => obtain ⟨-, -, -, ⟨rfl, -⟩ | ⟨rfl, -⟩⟩ := hstage <;> exact ⟨trivial, by rintro ⟨⟩⟩
  | @isQuiescent exit => cases exit <;> exact ⟨trivial, id⟩
  | _ => exact ⟨trivial, by first | exact fun _ ↦ rfl | rintro ⟨⟩⟩

namespace Vouched

theorem goes (h : d.Vouched r) (hpc : d.worker = pc)
    (hclosed : r.sink.closeOutcome = some 0 → r'.sink.closeOutcome = some 0)
    (hretirements : d'.retirements = d.retirements)
    (houtcome : d'.shutdownOutcome = d.shutdownOutcome) (hfailed : d'.routeFailed = d.routeFailed)
    (herror : d'.routeIoError = d.routeIoError) (hworker : d.Vouches r d'.worker)
    (hgoing : d'.worker.goesOn = true → pc.goesOn = true ∨ d.Delivers) :
    d'.Vouched r' := by
  refine ⟨hworker.congr herror hclosed, fun hon ↦ ?_, ?_, ?_⟩
  · rw [Delivers, hretirements]
    exact (hgoing hon).elim (hpc ▸ h.going) id
  · rw [hfailed, herror]
    exact h.failed
  · rw [houtcome]
    exact fun outcome hsome ↦ (h.ended outcome hsome).congr hretirements hclosed

theorem worker_step (h : d.Vouched r) (hfiling : Filing conv setup d r) (hretired : d.Retired r)
    (hpc : d.worker = pc) (hstage : d.StageOk pc.stage)
    (hclosed : r.sink.closeOutcome = some 0 → r'.sink.closeOutcome = some 0)
    (hmove : d.WorkerMove conv setup pc d') : d'.Vouched r' := by
  have hworker := h.worker
  have hgoing := h.going
  have hsubmits := hfiling.submits
  rw [hpc] at hworker hgoing hsubmits
  cases hmove with
  | reads hreads =>
    refine h.goes hpc hclosed rfl rfl rfl rfl (hreads.vouches hfiling.route) fun hon ↦
      (hreads.goesOn hon).imp_right fun herror ↦ ?_
    rw [hfiling.route] at herror
    exact hretired.delivers herror
  | callsKernel hcalls =>
    obtain ⟨hvouches, hon⟩ := hcalls.vouches hstage
    exact h.goes hpc hclosed rfl rfl rfl rfl hvouches fun h ↦ .inl (hon h)
  | usesRoute huses =>
    refine h.goes hpc hclosed rfl rfl rfl rfl (by cases huses <;> trivial) fun hon ↦ .inl ?_
    cases huses <;> first | rfl | exact hon
  | completes hcompletes =>
    refine h.goes hpc hclosed rfl rfl rfl rfl (by cases hcompletes <;> trivial) fun hon ↦ .inl ?_
    cases hcompletes <;> exact hon
  | @recordRetirement _ retirement =>
    refine ⟨?_, fun hon e he ↦ ?_, h.failed, fun _ hsome ↦ by cases hstage.2.2.symm.trans hsome⟩
    · dsimp only
      split <;> trivial
    · rcases List.mem_append.mp he with he | he
      · exact hgoing rfl e he
      · rw [List.mem_singleton.mp he]
        cases ho : retirement.outcome with
        | delivered => rfl
        | failed => simp [ho, WorkerPc.goesOn] at hon
  | recordTerminalError =>
    exact ⟨hworker, by rintro ⟨⟩, fun _ ↦ hworker,
      fun _ hsome ↦ by cases hstage.2.2.symm.trans hsome⟩
  | prepare =>
    refine ⟨trivial, by rintro ⟨⟩, fun hfailed ↦ ?_,
      fun _ hsome ↦ by cases hstage.2.2.1.symm.trans hsome⟩
    rw [Bool.or_eq_true, beq_iff_eq] at hfailed
    rcases hfailed with hfailed | rfl
    · exact h.failed hfailed
    · exact hworker
  | recordCloseError =>
    exact ⟨by rintro ⟨⟩, fun _ ↦ hgoing rfl, fun _ ↦ hworker,
      fun _ hsome ↦ by cases hstage.2.2.symm.trans hsome⟩
  | recordEncodingFailure => exact hsubmits.elim
  | @finish exit =>
    cases exit with
    | shutdown outcome =>
      refine ⟨trivial, by rintro ⟨⟩, h.failed, ?_⟩
      rintro _ ⟨⟩
      exact Ends.congr ⟨hgoing rfl, hworker⟩ rfl hclosed
    | destruction | routeFailure => exact ⟨trivial, by rintro ⟨⟩, h.failed, by rintro _ ⟨⟩⟩
  | @recordProcessed delivery =>
    have hnot : delivery.retired = false := hsubmits
    refine h.goes hpc hclosed ?_ rfl rfl rfl ?_ fun _ ↦ .inl rfl <;> dsimp only <;> rw [hnot]
    · exact List.append_nil _
    · trivial
  | noneReady =>
    refine h.goes hpc hclosed rfl rfl rfl rfl ?_ fun _ ↦ .inl rfl
    dsimp only [goto]
    split <;> trivial
  | noneActive =>
    refine h.goes hpc hclosed rfl rfl rfl rfl ?_ ?_ <;> dsimp only [goto] <;> split
    · trivial
    · trivial
    · rintro ⟨⟩
    · rintro ⟨⟩
  | start | ready | store => exact h.goes hpc hclosed rfl rfl rfl rfl trivial fun _ ↦ .inl rfl
  | _ => exact h.goes hpc hclosed rfl rfl rfl rfl trivial (by rintro ⟨⟩)

end Vouched

/-- The Runtime, its file and its ledger agree. -/
structure Accounted (conv : Charconv) (setup : RuntimeSetup) (d : RuntimeDomain) (r : FileRun) :
    Prop where
  filing : Filing conv setup d r
  retired : d.Retired r
  vouched : d.Vouched r

theorem Accounted.step (h : Accounted conv setup d r) (hconv : conv.Bounded)
    (hreach : (machine conv setup).Reach ok d) (hmove : d.Move conv setup action d') :
    ∃ r', Accounted conv setup d' r' := by
  obtain ⟨r', hfiling, hrun⟩ := h.filing.step hconv hreach hmove
  have hfiled := h.filing.filed
  have hbears : ∀ e, r.Bears e → r'.Bears e := by
    intro e he
    rcases hrun with rfl | ⟨a, hfmove⟩
    · exact he
    · exact he.step hfiled.inv hfmove
  have hclosed : r.sink.closeOutcome = some 0 → r'.sink.closeOutcome = some 0 := by
    intro hclosed
    rcases hrun with rfl | ⟨a, hfmove⟩
    · exact hclosed
    · exact hfiled.opened.closeOutcome_step hfiled.inv hclosed hfmove
  have hother : d'.worker = d.worker → d'.ledger = d.ledger → d'.retirements = d.retirements →
      d'.shutdownOutcome = d.shutdownOutcome → d'.routeFailed = d.routeFailed →
      d'.routeIoError = d.routeIoError → Accounted conv setup d' r' := by
    intro hworker hledger hretirements houtcome hfailed herror
    refine ⟨hfiling,
      h.retired.quiet hbears (by rw [hledger]) hretirements fun n retirement hpc ↦ ?_,
      h.vouched.goes rfl hclosed hretirements houtcome hfailed herror (hworker ▸ h.vouched.worker)
        (hworker ▸ .inl)⟩
    rw [hworker] at hpc
    exact hbears _ (h.retired.pending n retirement hpc)
  refine ⟨r', ?_⟩
  cases hmove with
  | worker hpc hworker =>
    exact ⟨hfiling, h.retired.worker_step h.filing hbears hpc hworker,
      h.vouched.worker_step h.filing h.retired hpc (hpc ▸ .of_reach hreach) hclosed hworker⟩
  | caller _ hcaller => cases hcaller <;> exact hother rfl rfl rfl rfl rfl rfl
  | _ => exact hother rfl rfl rfl rfl rfl rfl

theorem exists_accounted (h : (machine conv setup).Reach ok d) (hconv : conv.Bounded)
    {writeBuffers : ℕ} {faults : FileFaultPlan} (hroute : setup.route = .file writeBuffers faults) :
    ∃ r, Accounted conv setup d r := by
  refine Machine.Reach.invariant_of_reach (I := fun d ↦ ∃ r, Accounted conv setup d r) h ?_
    fun d action d' hd haccounted _ hstep ↦ ?_
  · exact ⟨_, filing_init hroute, ⟨by rintro _ ⟨⟩, by rintro _ _ ⟨⟩, rfl⟩,
      ⟨trivial, by rintro _ _ ⟨⟩, by rintro ⟨⟩, by rintro _ ⟨⟩⟩⟩
  · obtain ⟨r, hr⟩ := haccounted
    exact hr.step hconv hd (.of_step hstep)

end RuntimeDomain

end Ulog
