import Ulog.Runtime.Ledger
import Ulog.Runtime.Results

/-!
# Drains are exact

The worker looks for Drains that are due after every retirement, unless the retirement shows that
the route has failed; then `CompleteActions` is next. So no Drain is overtaken: a Drain that
succeeds was completed when exactly the Records below its watermark were retired, and its report
counts them.
-/

namespace Ulog

/-- The report of an action that succeeded counts these retirements, which are those of the
sequences below the watermark in their order. -/
structure OperationReport.Reports (report : OperationReport)
    (retirements : List (ℕ × DeliveryOutcome)) : Prop where
  order : retirements.map (·.1) = List.range report.watermarkRecords
  delivered : report.deliveredRecords = retirements.countP (·.2 = .delivered)
  failed : report.failedRecords = retirements.countP (·.2 = .failed)
  unfinished : report.unfinishedRecords = 0

namespace RuntimeDomain

variable {conv : Charconv} {setup : RuntimeSetup} {d d' : RuntimeDomain}
  {action : DomainAction} {ok : RuntimeDomain → DomainAction → Prop} {pc pc' : WorkerPc}
  {kind : ControlActionKind} {c watermark : ℕ} {result : OperationResult}

/-! ## No Drain is overtaken -/

def LastFailed (d : RuntimeDomain) : Prop := ∃ n, d.retirements.getLast? = some (n, .failed)

/-- A Record was retired, and the scan for Drains that are due is not over. -/
def Scanning (d : RuntimeDomain) : WorkerPc → Prop
  | .readyDrains _ | .completeDrain .. | .completingDrain _ => True
  | .checkFailure | .recordTerminalError _ => d.LastFailed
  | .terminalError => d.LastFailed ∧ d.route.terminalError ≠ 0
  | .prepare exit | .resetRegistrations exit _ | .retireRegistration exit _ | .stopRoute exit
  | .nextAction exit | .buildReport exit .. | .completeAction exit .. | .completingAction exit =>
    exit = .routeFailure ∧ d.LastFailed
  | _ => False

/-- The Drains that wait. -/
structure Timely (setup : RuntimeSetup) (d : RuntimeDomain) : Prop where
  placed : ∀ i, (d.actions i).active = true → i < setup.config.controlOperations
  drains : ∀ i, (d.actions i).active = true → (d.actions i).kind = .drain →
    d.ledger.retiredRecords ≤ (d.actions i).watermark ∧
      (d.ledger.retiredRecords = (d.actions i).watermark → d.Scanning d.worker)
  worker : ∀ exit a watermark, d.worker = .buildReport exit a watermark → a.kind = .drain →
    d.ledger.retiredRecords ≤ watermark

theorem findAction_eq_none {p : RuntimeControlAction → Bool} {i : ℕ}
    (h : d.findAction setup p = none) (hi : i < setup.config.controlOperations) :
    p (d.actions i) = false :=
  Bool.eq_false_iff.mpr (List.find?_eq_none.mp h i (List.mem_range.mpr hi))

theorem Reads.scanning (h : d.Reads pc pc') (hscanning : d.Scanning pc) : d.Scanning pc' := by
  cases h with
  | failed herror => exact ⟨hscanning, herror⟩
  | notFailed | completingDrain => trivial
  | terminalError => exact hscanning.1
  | noTerminalError herror => exact absurd herror hscanning.2
  | resetRegistrations | completingAction => exact hscanning
  | _ => cases hscanning

theorem CallsKernel.scanning {a : KernelAction} (h : d.CallsKernel pc a pc')
    (hscanning : d.Scanning pc) : d.Scanning pc' := by
  cases h with
  | retireRegistration => exact hscanning
  | _ => cases hscanning

theorem UsesRoute.scanning {route : RuntimeRoute} (h : d.UsesRoute conv route pc pc')
    (hscanning : d.Scanning pc) : (d.setRoute route).Scanning pc' := by
  cases h with
  | stopRoute => exact hscanning
  | _ => cases hscanning

theorem Scanning.other (h : d.Scanning pc) (hretirements : d'.retirements = d.retirements)
    (hroute : Continues d.route d'.route) : d'.Scanning pc := by
  have hlast : d.LastFailed → d'.LastFailed := by
    rw [LastFailed, LastFailed, hretirements]
    exact id
  cases pc with
  | readyDrains | completeDrain | completingDrain => trivial
  | checkFailure | recordTerminalError => exact hlast h
  | terminalError => exact ⟨hlast h.1, hroute.terminalError h.2⟩
  | prepare | resetRegistrations | retireRegistration | stopRoute | nextAction | buildReport
  | completeAction | completingAction => exact ⟨h.1, hlast h.2⟩
  | _ => cases h

theorem settled_eq_false (hstage : d.StageOk d.worker.stage)
    (h : d.acceptingActions = true ∨ d.shutdownOutcome ≠ none) : d.ledger.settled = false := by
  cases hpc : d.worker.stage with
  | settled =>
    rw [hpc] at hstage
    obtain ⟨haccepting, -, hnone, -⟩ := hstage
    rcases h with h | h
    · cases haccepting.symm.trans h
    · exact absurd hnone h
  | ended =>
    rw [hpc] at hstage
    obtain ⟨haccepting, ⟨-, hnone, -⟩ | ⟨outcome, hsettled, -⟩⟩ := hstage
    · rcases h with h | h
      · cases haccepting.symm.trans h
      · exact absurd hnone h
    · exact hsettled
  | _ =>
    rw [hpc] at hstage
    exact hstage.2.1

namespace Timely

theorem quiet (h : d.Timely setup) (hpc : d.worker = pc) (hactions : d'.actions = d.actions)
    (hretired : d'.ledger.retiredRecords = d.ledger.retiredRecords)
    (hscanning : d.Scanning pc → d'.Scanning d'.worker)
    (hworker : ∀ exit a watermark, d'.worker = .buildReport exit a watermark →
      pc = .buildReport exit a watermark) : d'.Timely setup := by
  subst hpc
  refine ⟨?_, ?_, fun exit a watermark hpc ↦ ?_⟩
  · rw [hactions]
    exact h.placed
  · rw [hactions, hretired]
    exact fun i hi hkind ↦ (h.drains i hi hkind).imp_right fun himp heq ↦ hscanning (himp heq)
  · rw [hretired]
    exact h.worker exit a watermark (hworker exit a watermark hpc)

/-- Unless the worker is looking for Drains, all of them wait for more. -/
theorem lt_of_not_scanning (h : d.Timely setup) (hnot : ¬d.Scanning d.worker) {i : ℕ}
    (hi : (d.actions i).active = true) (hkind : (d.actions i).kind = .drain) :
    d.ledger.retiredRecords < (d.actions i).watermark := by
  obtain ⟨hle, himp⟩ := h.drains i hi hkind
  exact lt_of_le_of_ne hle fun heq ↦ hnot (himp heq)

theorem worker_step (h : d.Timely setup) (hpc : d.worker = pc)
    (hmove : d.WorkerMove conv setup pc d') : d'.Timely setup := by
  have hoff : ∀ i, d'.actions = Function.update d.actions i { d.actions i with active := false } →
      d'.ledger = d.ledger → (d.Scanning pc → d'.Scanning d'.worker) →
      (∀ exit a watermark, d'.worker = .buildReport exit a watermark → a.kind = .drain →
        d.ledger.retiredRecords ≤ watermark) → d'.Timely setup := by
    intro i hactions hledger hscanning hworker
    refine ⟨fun j hj ↦ ?_, fun j hj hkind ↦ ?_, by rw [hledger]; exact hworker⟩
    · rw [hactions] at hj
      exact h.placed j (actions_of_off hj ▸ hj)
    · rw [hactions] at hj hkind ⊢
      have hsame := actions_of_off hj
      rw [hsame] at hj hkind ⊢
      rw [hledger]
      exact (h.drains j hj hkind).imp_right fun himp heq ↦ hscanning (hpc ▸ himp heq)
  cases hmove with
  | reads hreads =>
    exact h.quiet hpc rfl rfl hreads.scanning (by cases hreads <;> rintro _ _ _ ⟨⟩)
  | callsKernel hcalls =>
    exact h.quiet hpc rfl rfl hcalls.scanning (by cases hcalls <;> rintro _ _ _ ⟨⟩)
  | usesRoute huses =>
    exact h.quiet hpc rfl rfl huses.scanning (by cases huses <;> rintro _ _ _ ⟨⟩)
  | completes hcompletes =>
    cases hcompletes <;> exact h.quiet hpc rfl rfl id (by rintro _ _ _ ⟨⟩)
  | @recordRetirement n retirement =>
    have hlt := fun i ↦ h.lt_of_not_scanning (i := i) (by rw [hpc]; exact id)
    refine ⟨h.placed, fun i hi hkind ↦ ?_, ?_⟩
    · dsimp only
      rw [retiredRecords_retire]
      refine ⟨hlt i hi hkind, fun _ ↦ ?_⟩
      split
      · next hfailed => exact ⟨n, by rw [List.getLast?_concat, hfailed]⟩
      · trivial
    · dsimp only
      split <;> rintro _ _ _ ⟨⟩
  | @recordProcessed delivery =>
    have hlt := fun i ↦ h.lt_of_not_scanning (i := i) (by rw [hpc]; exact id)
    dsimp only [RouteLedger.process]
    cases delivery.retired with
    | true =>
      exact ⟨h.placed, fun i hi hkind ↦ ⟨hlt i hi hkind, fun _ ↦ trivial⟩, by rintro _ _ _ ⟨⟩⟩
    | false =>
      exact ⟨h.placed, fun i hi hkind ↦ ⟨(hlt i hi hkind).le, fun heq ↦
        absurd heq (hlt i hi hkind).ne⟩, by rintro _ _ _ ⟨⟩⟩
  | noneReady _ hfind =>
    have hlt : ∀ i, (d.actions i).active = true → (d.actions i).kind = .drain →
        d.ledger.retiredRecords < (d.actions i).watermark := by
      intro i hi hkind
      simpa [isReady, hi, hkind] using findAction_eq_none hfind (h.placed i hi)
    refine ⟨h.placed, fun i hi hkind ↦ ⟨(hlt i hi hkind).le, fun heq ↦
      absurd heq (hlt i hi hkind).ne⟩, ?_⟩
    · dsimp only [goto]
      split <;> rintro _ _ _ ⟨⟩
  | ready => exact hoff _ rfl rfl id (by rintro _ _ _ ⟨⟩)
  | @takeAction exit i _ hfind =>
    refine hoff _ rfl rfl id ?_
    rintro _ _ _ ⟨⟩ hkind
    rw [actionWatermark, hkind]
    exact (h.drains i (findAction_eq_some hfind) hkind).1
  | noneActive _ hfind =>
    have hoff : ∀ i, (d.actions i).active ≠ true := fun i hi ↦
      absurd (findAction_eq_none hfind (h.placed i hi)) (by simp [hi])
    refine ⟨h.placed, fun i hi ↦ absurd hi (hoff i), ?_⟩
    dsimp only [goto]
    split <;> rintro _ _ _ ⟨⟩
  | recordTerminalError =>
    exact h.quiet hpc rfl rfl (fun hscanning ↦ ⟨rfl, hscanning⟩) (by rintro _ _ _ ⟨⟩)
  | prepare | resetRegistration | prepared | buildReport =>
    exact h.quiet hpc rfl rfl id (by rintro _ _ _ ⟨⟩)
  | finish =>
    refine h.quiet hpc rfl rfl (by rintro ⟨⟩) ?_
    dsimp only
    split <;> rintro _ _ _ ⟨⟩
  | _ => exact h.quiet hpc rfl rfl (by rintro ⟨⟩) (by rintro _ _ _ ⟨⟩)

theorem step (h : d.Timely setup) (hreach : (machine conv setup).Reach ok d)
    (hmove : d.Move conv setup action d') : d'.Timely setup := by
  have hroute := hmove.continues
  cases hmove with
  | worker hpc hworker => exact h.worker_step hpc hworker
  | @caller t _ _ hpc hcaller =>
    cases hcaller with
    | @register kind c i hretired hfind =>
      -- the watermark of a new Drain is ahead of what was retired
      have hcounted := Counted.of_reach hreach
      have haccepting := (Guarded.of_reach hreach).entering t (by rw [hpc]; rfl)
      have hle := hcounted.counts.processed.trans
        (hcounted.processed_le hreach (settled_eq_false (.of_reach hreach) (.inl haccepting)))
      refine ⟨fun j hj ↦ ?_, fun j hj hkind ↦ ?_, h.worker⟩ <;> by_cases hji : j = i
      · exact hji ▸ List.mem_range.mp (List.mem_of_find?_eq_some hfind)
      · exact h.placed j (by rwa [← Function.update_of_ne hji _ d.actions])
      · subst hji
        dsimp only [setCaller, setAction] at hkind ⊢
        rw [Function.update_self] at hkind ⊢
        have hlt : d.ledger.retiredRecords < d.acceptedRecords :=
          lt_of_le_of_ne hle fun heq ↦ hretired hkind heq.symm
        exact ⟨hlt.le, fun heq ↦ absurd heq hlt.ne⟩
      · dsimp only [setCaller, setAction] at hj hkind ⊢
        rw [Function.update_of_ne hji] at hj hkind ⊢
        exact h.drains j hj hkind
    | _ => exact h.quiet rfl rfl rfl (fun hscanning ↦ hscanning.other rfl hroute) fun _ _ _ ↦ id
  | _ => exact h.quiet rfl rfl rfl (fun hscanning ↦ hscanning.other rfl hroute) fun _ _ _ ↦ id

theorem of_reach (h : (machine conv setup).Reach ok d) : d.Timely setup :=
  Machine.Reach.invariant_of_reach (I := Timely setup) h
    ⟨by rintro _ ⟨⟩, by rintro _ ⟨⟩, by rintro _ _ _ ⟨⟩⟩
    fun _ _ _ hd htimely _ hstep ↦ htimely.step hd (.of_step hstep)

end Timely

/-! ## Reports -/

/-- An action succeeds when everything below its watermark was retired and nothing else; nothing was
lost by then. -/
theorem Decides.succeeded (h : d.Decides setup action kind c .succeeded watermark)
    (hreach : (machine conv setup).Reach ok d) :
    d.ledger.retiredRecords = watermark ∧ d.ledger.settled = false ∧
      (d.worker.stage = .running ∨ d.ledger.retiredRecords = d.acceptedRecords) := by
  have hge := (h.concluded hreach).retired rfl
  rw [decision, buildReport_watermarkRecords] at hge
  have hstage : d.StageOk d.worker.stage := .of_reach hreach
  have htimely := Timely.of_reach hreach
  suffices hall : d.ledger.retiredRecords ≤ watermark ∧
      (d.acceptingActions = true ∨ d.shutdownOutcome ≠ none) ∧
      (d.worker.stage = .running ∨ d.ledger.retiredRecords = d.acceptedRecords) by
    obtain ⟨hle, hsettled, hretired⟩ := hall
    exact ⟨hle.antisymm hge, settled_eq_false hstage hsettled, hretired⟩
  generalize houtcome : OperationOutcome.succeeded = outcome at h
  cases h with
  | @ready _ i hpc hfind =>
    have hready := findAction_eq_some hfind
    rw [isReady, Bool.and_eq_true, Bool.and_eq_true, beq_iff_eq] at hready
    rw [hpc] at hstage
    exact ⟨(htimely.drains i hready.1.1 hready.1.2).1, .inl hstage.1, .inl (by rw [hpc]; rfl)⟩
  | @leaving exit a _ hpc =>
    cases exit with
    | destruction | routeFailure => cases houtcome
    | shutdown outcome =>
      have hbacked := (Backed.of_reach hreach).worker
      rw [hpc] at hstage hbacked
      have hne : d.shutdownOutcome ≠ none := by
        rw [hstage.2.2.1]
        rintro ⟨⟩
      refine ⟨?_, .inr hne, .inr ((Closing.of_reach hreach).ended hne).retired⟩
      cases hkind : a.kind with
      | drain => exact htimely.worker _ a watermark hpc hkind
      | shutdown =>
        obtain rfl : .succeeded = outcome := houtcome
        exact ((hbacked.2 (by rintro ⟨⟩) hkind).retired hreach).le
  | @drained t _ hpc hretired =>
    exact ⟨hretired.ge, .inl ((Guarded.of_reach hreach).entering t (by rw [hpc]; rfl)),
      .inr hretired.symm⟩
  | @refused t _ _ _ _ hpc =>
    have hself := (Backed.of_reach hreach).callers t
    rw [hpc, ← houtcome] at hself
    have hretired := hself.2.retired hreach
    refine ⟨hretired.le, .inr ?_, .inr (hretired.trans hself.2.2)⟩
    rw [hself.2.1]
    rintro ⟨⟩

theorem reports (hreach : (machine conv setup).Reach ok d) (hsettled : d.ledger.settled = false)
    (hretired : d.worker.stage = .running ∨ d.ledger.retiredRecords = d.acceptedRecords) :
    (d.buildReport d.ledger.retiredRecords).Reports d.retirements := by
  have hcounted := Counted.of_reach hreach
  have hnone : d.ledger.encodingFailedSequence = none := by
    by_contra hne
    obtain ⟨hstage, hlt⟩ := hcounted.encoding hne
    have hle := hcounted.processed_le hreach hsettled
    have hall := hretired.resolve_left hstage
    omega
  obtain ⟨hdelivered, hfailed⟩ := hcounted.counts.outcomes hsettled
  have hsum : d.ledger.retiredRecords = d.ledger.deliveredRecords + d.ledger.failedRecords := by
    rw [← hcounted.counts.length, hdelivered, hfailed,
      List.length_eq_countP_add_countP (fun e ↦ decide (e.2 = .delivered))]
    congr 1
    refine List.countP_congr fun e _ ↦ ?_
    cases e.2 <;> decide
  refine ⟨?_, ?_, ?_, ?_⟩
  · rw [buildReport_watermarkRecords]
    exact hcounted.counts.order
  all_goals
    rw [buildReport, hsettled]
    simp only [lt_self_iff_false, hnone, if_false, Option.any_none, Bool.false_eq_true,
      Nat.add_zero]
  · exact hdelivered
  · exact hfailed
  · have hzero : (d.ledger.retiredRecords : ℤ) - d.ledger.deliveredRecords -
        d.ledger.failedRecords = 0 := by omega
    rw [hzero]
    rfl

theorem Move.retirements_prefix (hmove : d.Move conv setup action d') :
    d.retirements <+: d'.retirements := by
  cases hmove with
  | worker _ hworker =>
    cases hworker with
    | recordRetirement | recordProcessed => exact List.prefix_append ..
    | _ => exact List.prefix_rfl
  | caller _ hcaller => cases hcaller <;> exact List.prefix_rfl
  | _ => exact List.prefix_rfl

/-- The report of an action that succeeded counts the retirements up to its watermark. -/
theorem reports_of_reach (h : (machine conv setup).Reach ok d) {dec : Decision}
    (hdec : dec ∈ d.decisions) (hsucceeded : dec.outcome = .succeeded) :
    dec.report.Reports (d.retirements.take dec.report.watermarkRecords) := by
  refine forall_decisions (P := fun d dec ↦ dec.outcome = .succeeded →
    dec.report.Reports (d.retirements.take dec.report.watermarkRecords)) h ?_ ?_ dec hdec hsucceeded
  · intro d action d' dec hd hmove hdec hsucceeded
    have hreports := hdec hsucceeded
    have hlength := congrArg List.length hreports.order
    rw [List.length_map, List.length_range, List.length_take] at hlength
    obtain ⟨tail, htail⟩ := hmove.retirements_prefix
    rw [← htail, List.take_append_of_le_length (by omega)]
    exact hreports
  · intro d _ kind c outcome watermark hd _ hdecides houtcome
    obtain rfl : outcome = .succeeded := houtcome
    obtain ⟨rfl, hsettled, hretired⟩ := hdecides.succeeded hd
    rw [decision, buildReport_watermarkRecords,
      List.take_of_length_le (Counted.of_reach hd).counts.length.le]
    exact reports hd hsettled hretired

/-! ## Barriers -/

/-- A Record is logged, a Drain is started, and the sink is about to write the Record. -/
def oneStored : List DomainAction :=
  List.flatten [[.getLogger 2 false, .caller 2], (advances 2 4).map .kernel,
    [.caller 2, .kernel (.publish 2 0 1 .info ⟨[], [], 0, 0⟩ true)], (advances 2 25).map .kernel,
    [.kernel (.return 2), .route (.file .opened), .startAction 2 .drain 0, .caller 2, .caller 2],
    List.replicate 8 .worker, (advances 0 3).map .kernel, List.replicate 2 .worker,
    (advances 0 9).map .kernel, List.replicate 3 .worker,
    [.wake, .loop 0, .loop 0].map (.route ∘ .file)]

/-- The Record is written and drained, and a Shutdown follows. -/
theorem exists_succeeded (kind : ControlActionKind) : ∃ d s result, oneBuffer.Reachable d ∧
    s ∈ d.started ∧ s.kind = kind ∧ s.accepted = 1 ∧ (s.ref, result) ∈ d.control.published ∧
      result.outcome = .succeeded ∧ d.acceptedRecords = 1 := by
  obtain ⟨d, hreach, htest⟩ := Machine.Reach.exists_of_run oneBuffer (fun _ _ ↦ True)
    (fun d ↦ [.drain, .shutdown].all (fun kind ↦ d.started.any fun s ↦ s.kind == kind &&
      s.accepted == 1 && d.control.published.any fun e ↦ e.1 == s.ref &&
        e.2.outcome == .succeeded) && d.acceptedRecords == 1)
    (List.flatten [oneStored,
      [.executeWrite 11, .writeComplete, .loop 0, .loop 0].map (.route ∘ .file),
      List.replicate 5 .worker, List.replicate 2 (.control (.advance 1)),
      [.startAction 2 .shutdown 1, .caller 2, .caller 2], (advances 2 12).map .kernel,
      List.replicate 34 (.caller 2), List.replicate 6 .worker, (advances 0 8).map .kernel,
      List.replicate 4 .worker,
      [.wake, .loop 0, .loop 0, .closeComplete 0, .loop 0].map (.route ∘ .file),
      List.replicate 5 .worker, [.control (.advance 1)]])
    (by decide +kernel)
  rw [Bool.and_eq_true, List.all_eq_true, beq_iff_eq] at htest
  obtain ⟨hall, haccepted⟩ := htest
  have hkind := hall kind (by cases kind <;> decide)
  simp only [List.any_eq_true, Bool.and_eq_true, beq_iff_eq] at hkind
  obtain ⟨s, hs, ⟨hkind, hcovers⟩, ⟨ref, result⟩, hpublished, rfl, hsucceeded⟩ := hkind
  exact ⟨d, s, result, hreach, hs, hkind, hcovers, hpublished, hsucceeded, haccepted⟩

/-- A Drain or Shutdown that succeeds covers what was accepted when it was started. By then exactly
the Records below its watermark were retired, in their order, and its report counts them. -/
theorem drain_barrier (h : (machine conv setup).Reach ok d) {s : Start} (hs : s ∈ d.started)
    (hpublished : (s.ref, result) ∈ d.control.published)
    (hsucceeded : result.outcome = .succeeded) :
    s.accepted ≤ result.report.watermarkRecords ∧
      result.report.Reports (d.retirements.take result.report.watermarkRecords) := by
  obtain ⟨dec, hdec, -, -, houtcome, hreport, hcovers⟩ := publishes h s hs result hpublished
  refine ⟨hcovers, ?_⟩
  rw [← hreport]
  exact reports_of_reach h hdec (houtcome.trans hsucceeded)

theorem drain_barrier_one : ∃ d s result, oneBuffer.Reachable d ∧ s ∈ d.started ∧
    s.kind = .drain ∧ (s.ref, result) ∈ d.control.published ∧
    1 ≤ result.report.watermarkRecords ∧
    result.report.Reports (d.retirements.take result.report.watermarkRecords) := by
  obtain ⟨d, s, result, hreach, hs, hkind, haccepted, hpublished, hsucceeded, -⟩ :=
    exists_succeeded .drain
  obtain ⟨hcovers, hreports⟩ := drain_barrier hreach hs hpublished hsucceeded
  exact ⟨d, s, result, hreach, hs, hkind, hpublished, haccepted ▸ hcovers, hreports⟩

theorem shutdown_grounds (h : (machine conv setup).Reach ok d) {s : Start} (hs : s ∈ d.started)
    (hkind : s.kind = .shutdown) (hpublished : (s.ref, result) ∈ d.control.published)
    (hsucceeded : result.outcome = .succeeded) :
    d.Grounds result.report.watermarkRecords .succeeded ∧ result.report.Reports d.retirements := by
  obtain ⟨dec, hdec, -, hdeckind, houtcome, hreport, -⟩ := publishes h s hs result hpublished
  rw [← houtcome] at hsucceeded
  rw [← hreport]
  have hgrounds := (Concluded.of_reach h dec hdec).shutdown hsucceeded (hdeckind.trans hkind)
  have hreports := reports_of_reach h hdec hsucceeded
  rw [List.take_of_length_le
    (by rw [(Counted.of_reach h).counts.length, hgrounds.retired h])] at hreports
  exact ⟨hgrounds, hreports⟩

/-- After a Shutdown that succeeded no Record is accepted, and every Record that ever was has been
retired. -/
theorem shutdown_complete (h : (machine conv setup).Reach ok d) {s : Start} (hs : s ∈ d.started)
    (hkind : s.kind = .shutdown) (hpublished : (s.ref, result) ∈ d.control.published)
    (hsucceeded : result.outcome = .succeeded) :
    d.kernel.Settled setup.kernel ∧ result.report.watermarkRecords = d.acceptedRecords ∧
      d.ledger.retiredRecords = d.acceptedRecords ∧
      d.retirements.map (·.1) = List.range d.acceptedRecords ∧
      result.report.Reports d.retirements := by
  obtain ⟨hgrounds, hreports⟩ := shutdown_grounds h hs hkind hpublished hsucceeded
  have hfinished := (Closing.of_reach h).ended (by rw [hgrounds.1]; rintro ⟨⟩)
  exact ⟨hfinished.settled, hgrounds.2, hfinished.retired,
    hfinished.retired ▸ (Counted.of_reach h).counts.order, hreports⟩

theorem shutdown_complete_one : ∃ d s result, oneBuffer.Reachable d ∧ s ∈ d.started ∧
    s.kind = .shutdown ∧ (s.ref, result) ∈ d.control.published ∧
    d.retirements.map (·.1) = [0] := by
  obtain ⟨d, s, result, hreach, hs, hkind, -, hpublished, hsucceeded, haccepted⟩ :=
    exists_succeeded .shutdown
  obtain ⟨-, -, -, horder, -⟩ := shutdown_complete hreach hs hkind hpublished hsucceeded
  rw [haccepted] at horder
  exact ⟨d, s, result, hreach, hs, hkind, hpublished, horder⟩

/-- Shutdowns lose nothing, if they succeed or only the close has failed: everything that was ever
accepted has been retired when the result is chosen, the report says so, and nothing is accepted
later. -/
structure ShutsDown (conv : Charconv) (setup : RuntimeSetup) (d : RuntimeDomain) : Prop where
  decided : ∀ action d' dec, (machine conv setup).step d action = some d' →
    d'.decisions = d.decisions ++ [dec] → dec.kind = .shutdown →
    dec.outcome = .succeeded ∨ dec.outcome = .failed ∧ d.shutdownOutcome = some .failed →
      dec.report.watermarkRecords = d.acceptedRecords ∧ dec.report.Reports d.retirements ∧
        ∀ later, ((machine conv setup).startingAt d).Reachable later →
          later.acceptedRecords = d.acceptedRecords
  published : d.Publishes

theorem accepted_final (h : (machine conv setup).Reachable d)
    (hsettled : d.kernel.Settled setup.kernel)
    (hlater : ((machine conv setup).startingAt d).Reachable d') :
    d'.acceptedRecords = d.acceptedRecords := by
  refine (hlater.invariant (I := fun d' ↦ (machine conv setup).Reachable d' ∧
    d'.kernel.Settled setup.kernel ∧ d'.acceptedRecords = d.acceptedRecords) ⟨h, hsettled, rfl⟩
    fun d₁ action d₂ hd hstep ↦ ?_).2.2
  obtain ⟨hreach, hsettled, heq⟩ := hd
  have hfollows : Follows conv setup d₁ d₂ := (Move.of_step hstep).kernel_cases
  obtain ⟨hsettled', haccepted⟩ := hfollows.settled (.of_reach (kernel_reachable hreach)) hsettled
  exact ⟨hreach.step trivial hstep, hsettled', haccepted.trans heq⟩

theorem shuts_down (h : (machine conv setup).Reach ok d) : d.ShutsDown conv setup := by
  refine ⟨fun action d' dec hstep hdec hkind houtcome ↦ ?_, publishes h⟩
  obtain ⟨kind, c, outcome, watermark, hdecides, rfl⟩ := (Move.of_step hstep).decided hdec
  have hne : d.shutdownOutcome ≠ none := by
    rcases houtcome with hsucceeded | ⟨-, hsome⟩
    · rw [((hdecides.concluded h).shutdown hsucceeded hkind).1]
      rintro ⟨⟩
    · rw [hsome]
      rintro ⟨⟩
  have hfinished := (Closing.of_reach h).ended hne
  obtain rfl : watermark = d.acceptedRecords := hdecides.final h hkind (by
    rintro rfl
    rcases houtcome with ⟨⟨⟩⟩ | ⟨⟨⟩, -⟩) hne
  have hreports := reports h (settled_eq_false (.of_reach h) (.inr hne)) (.inr hfinished.retired)
  rw [hfinished.retired] at hreports
  exact ⟨d.buildReport_watermarkRecords _, hreports, fun _ ↦
    accepted_final (h.mono fun _ _ _ ↦ trivial) hfinished.settled⟩

theorem shuts_down_one : ∃ d s result, oneBuffer.Reachable d ∧ s ∈ d.started ∧
    s.kind = .shutdown ∧ (s.ref, result) ∈ d.control.published ∧ result.outcome = .succeeded ∧
      d.ShutsDown .blank .oneBuffer := by
  obtain ⟨d, s, result, hreach, hs, hkind, -, hpublished, hsucceeded, -⟩ :=
    exists_succeeded .shutdown
  exact ⟨d, s, result, hreach, hs, hkind, hpublished, hsucceeded, shuts_down hreach⟩

end RuntimeDomain

end Ulog
