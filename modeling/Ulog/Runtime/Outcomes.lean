import Ulog.Runtime.Filed
import Ulog.Runtime.Shutdown

/-!
# Outcomes of Drain and Shutdown

A result is chosen at one of four places: by the worker for a Drain that is due or for an action
that is left when it leaves its loop, and by a caller whose Drain has nothing to wait for or whose
action is refused. `Decides` lists them, and what holds of every result is proved there once.

Whoever takes the watermark of an action takes it after the action was started, so it covers what
was accepted by then. An action succeeds when everything below its watermark was retired, or after a
Shutdown that was finished; only the destructor cancels an action.
-/

namespace Ulog.RuntimeDomain

variable {conv : Charconv} {setup : RuntimeSetup} {d d' : RuntimeDomain}
  {action : DomainAction} {ok : RuntimeDomain → DomainAction → Prop} {outcome : OperationOutcome}
  {kind : ControlActionKind} {c watermark : ℕ}

theorem findAction_eq_some {p : RuntimeControlAction → Bool} {i : ℕ}
    (h : d.findAction setup p = some i) : p (d.actions i) = true :=
  List.find?_some (p := fun i ↦ p (d.actions i)) h

/-! ## Where results are chosen -/

/-- The places where a result is chosen. -/
inductive Decides (setup : RuntimeSetup) (d : RuntimeDomain) :
    DomainAction → ControlActionKind → ℕ → OperationOutcome → ℕ → Prop
  | ready {stored : Bool} {i : ℕ} (hpc : d.worker = .readyDrains stored)
      (hfind : d.findAction setup d.isReady = some i) :
      Decides setup d .worker .drain (d.actions i).completion .succeeded (d.actions i).watermark
  | leaving {exit : WorkerExit} {a : RuntimeControlAction} {watermark : ℕ}
      (hpc : d.worker = .buildReport exit a watermark) :
      Decides setup d .worker a.kind a.completion exit.outcome watermark
  | drained {t c : ℕ} (hpc : d.callers t = .watermark .drain c none)
      (hretired : d.acceptedRecords = d.ledger.retiredRecords) :
      Decides setup d (.caller t) .drain c .succeeded d.acceptedRecords
  | refused {t c watermark : ℕ} {kind : ControlActionKind} {outcome : OperationOutcome}
      (hpc : d.callers t = .buildReport kind c outcome watermark) :
      Decides setup d (.caller t) kind c outcome watermark

theorem Move.decides (h : d.Move conv setup action d') : d'.decisions = d.decisions ∨
    ∃ kind c outcome watermark, d.Decides setup action kind c outcome watermark ∧
      d'.decisions = d.decisions ++ [d.decision kind c outcome watermark] := by
  cases h with
  | worker hpc h =>
    cases h with
    | ready _ hfind => exact .inr ⟨_, _, _, _, .ready hpc hfind, rfl⟩
    | buildReport => exact .inr ⟨_, _, _, _, .leaving hpc, rfl⟩
    | _ => exact .inl rfl
  | caller hpc h =>
    cases h with
    | drained hretired => exact .inr ⟨_, _, _, _, .drained hpc hretired, rfl⟩
    | buildReport => exact .inr ⟨_, _, _, _, .refused hpc, rfl⟩
    | _ => exact .inl rfl
  | _ => exact .inl rfl

theorem Move.decided (h : d.Move conv setup action d') {dec : Decision}
    (hdec : d'.decisions = d.decisions ++ [dec]) : ∃ kind c outcome watermark,
      d.Decides setup action kind c outcome watermark ∧
        dec = d.decision kind c outcome watermark := by
  rcases h.decides with hsame | ⟨kind, c, outcome, watermark, hdecides, happend⟩
  · cases List.self_eq_append_right.mp (hsame.symm.trans hdec)
  · cases List.append_cancel_left (happend.symm.trans hdec)
    exact ⟨kind, c, outcome, watermark, hdecides, rfl⟩

/-- What holds of a result when it is chosen and stays true holds of all results. -/
theorem forall_decisions {P : RuntimeDomain → Decision → Prop}
    (h : (machine conv setup).Reach ok d)
    (hkeep : ∀ d action d' dec, (machine conv setup).Reach ok d → d.Move conv setup action d' →
      P d dec → P d' dec)
    (hdecide : ∀ d action kind c outcome watermark, (machine conv setup).Reach ok d →
      ok d action → d.Decides setup action kind c outcome watermark →
      P d (d.decision kind c outcome watermark)) :
    ∀ dec ∈ d.decisions, P d dec := by
  refine Machine.Reach.invariant_of_reach (I := fun d ↦ ∀ dec ∈ d.decisions, P d dec) h
    (by rintro _ ⟨⟩) fun d action d' hd hall hok hstep dec hdec ↦ ?_
  have hmove := Move.of_step hstep
  refine hkeep d action d' dec hd hmove ?_
  rcases hmove.decides with heq | ⟨kind, c, outcome, watermark, hdecides, heq⟩ <;> rw [heq] at hdec
  · exact hall dec hdec
  · rcases List.mem_append.mp hdec with hdec | hdec
    · exact hall dec hdec
    · rw [List.mem_singleton.mp hdec]
      exact hdecide d action kind c outcome watermark hd hok hdecides

theorem buildReport_watermarkRecords (d : RuntimeDomain) (watermark : ℕ) :
    (d.buildReport watermark).watermarkRecords = watermark := by
  rw [buildReport]
  dsimp only
  split <;> rfl

/-! ## What stays true -/

theorem Move.accepted_le (h : d.Move conv setup action d')
    (hreach : (machine conv setup).Reach ok d) : d.acceptedRecords ≤ d'.acceptedRecords := by
  have hinv : d.kernel.Inv conv setup.kernel := .of_reach (kernel_reachable hreach)
  rcases h.kernel_cases with heq | ⟨a, hstep⟩
  · rw [acceptedRecords, acceptedRecords, heq]
  · rw [acceptedRecords_eq hinv, acceptedRecords_eq (hinv.step hstep)]
    exact h.admissions_prefix.length_le

theorem Move.started_prefix (h : d.Move conv setup action d') : d.started <+: d'.started := by
  cases h with
  | worker _ h => cases h <;> exact List.prefix_rfl
  | caller _ h => cases h <;> exact List.prefix_rfl
  | started => exact List.prefix_append ..
  | _ => exact List.prefix_rfl

/-- The result was chosen for the completion. -/
def Decided (d : RuntimeDomain) (c : ℕ) (outcome : OperationOutcome) (report : OperationReport) :
    Prop :=
  ∃ dec ∈ d.decisions, dec.completion = c ∧ dec.outcome = outcome ∧ dec.report = report

theorem Decided.step {report : OperationReport} (h : d.Decided c outcome report)
    (hmove : d.Move conv setup action d') : d'.Decided c outcome report := by
  obtain ⟨dec, hdec, heq⟩ := h
  refine ⟨dec, ?_, heq⟩
  rcases hmove.decides with hsame | ⟨_, _, _, _, -, happend⟩
  · exact hsame ▸ hdec
  · exact happend ▸ List.mem_append_left _ hdec

theorem decided_conclude (d : RuntimeDomain) (kind : ControlActionKind) (c : ℕ)
    (outcome : OperationOutcome) (watermark : ℕ) :
    (d.conclude kind c outcome watermark).Decided c outcome (d.buildReport watermark) :=
  ⟨d.decision kind c outcome watermark, List.mem_append_right _ (.head _), rfl, rfl, rfl⟩

theorem Move.retired_le (h : d.Move conv setup action d') :
    d.ledger.retiredRecords ≤ d'.ledger.retiredRecords := by
  cases h with
  | worker _ h =>
    cases h with
    | recordRetirement =>
      dsimp only
      rw [retiredRecords_retire]
      exact Nat.le_succ _
    | recordProcessed =>
      dsimp only [RouteLedger.process]
      split
      · rw [retiredRecords_retire]
        exact Nat.le_succ _
      · exact le_rfl
    | _ => exact le_rfl
  | caller _ h => cases h <;> exact le_rfl
  | _ => exact le_rfl

/-- The watermark covers what was accepted when the Operation was started. -/
def Covered (d : RuntimeDomain) (kind : ControlActionKind) (c watermark : ℕ) : Prop :=
  watermark ≤ d.acceptedRecords ∧
    ∃ s, d.started[c]? = some s ∧ s.kind = kind ∧ s.accepted ≤ watermark

theorem Covered.step (h : d.Covered kind c watermark) (hreach : (machine conv setup).Reach ok d)
    (hmove : d.Move conv setup action d') : d'.Covered kind c watermark := by
  obtain ⟨hle, s, hs, hcovers⟩ := h
  exact ⟨hle.trans (hmove.accepted_le hreach), s, getElem?_mono hmove.started_prefix hs, hcovers⟩

/-- The watermark that would be taken now covers no less later. -/
theorem Covered.now (h : d.Covered kind c d.acceptedRecords)
    (hreach : (machine conv setup).Reach ok d) (hmove : d.Move conv setup action d') :
    d'.Covered kind c d'.acceptedRecords := by
  obtain ⟨-, s, hs, hkind, hcovers⟩ := h
  exact ⟨le_rfl, s, getElem?_mono hmove.started_prefix hs, hkind,
    hcovers.trans (hmove.accepted_le hreach)⟩

/-- What an outcome rests on if it does not come from a Drain that is due. -/
def Grounds (d : RuntimeDomain) (watermark : ℕ) : OperationOutcome → Prop
  | .succeeded => d.shutdownOutcome = some .succeeded ∧ watermark = d.acceptedRecords
  | .cancelled => d.destructionStopRequested = true
  | .failed => d.shutdownOutcome ≠ none → watermark = d.acceptedRecords

/-- The loop is left once, and by nobody else in a critical section. -/
theorem Move.shutdownOutcome (hmove : d.Move conv setup action d')
    (hstage : d.StageOk d.worker.stage) : d'.shutdownOutcome = d.shutdownOutcome ∨
      d.shutdownOutcome = none ∧ d.mutex = none := by
  cases hmove with
  | worker hpc hworker =>
    rw [hpc] at hstage
    cases hworker with
    | @finish exit hmutex =>
      cases exit <;> exact .inr ⟨hstage.2.2.1, hmutex⟩
    | _ => exact .inl rfl
  | caller _ hcaller => cases hcaller <;> exact .inl rfl
  | _ => exact .inl rfl

/-- Grounds stay, also at the watermark of a later moment. -/
theorem Grounds.step (h : d.Grounds watermark outcome) (hreach : (machine conv setup).Reach ok d)
    (hmove : d.Move conv setup action d') (hmutex : outcome = .failed → d.mutex ≠ none) :
    d'.Grounds watermark outcome ∧
      (watermark = d.acceptedRecords → d'.Grounds d'.acceptedRecords outcome) := by
  have hdestruction : d.destructionStopRequested = true → d'.destructionStopRequested = true := by
    cases hmove with
    | worker _ hworker => cases hworker <;> exact id
    | caller _ hcaller => cases hcaller <;> exact id
    | requestDestruction => exact fun _ ↦ rfl
    | _ => exact id
  have hsame := hmove.shutdownOutcome (.of_reach hreach)
  have haccepted : d.shutdownOutcome ≠ none → d'.acceptedRecords = d.acceptedRecords := fun hne ↦
    have hfollows : Follows conv setup d d' := hmove.kernel_cases
    (hfollows.settled (.of_reach (kernel_reachable hreach))
      ((Closing.of_reach hreach).ended hne).settled).2
  cases outcome with
  | cancelled => exact ⟨hdestruction h, fun _ ↦ hdestruction h⟩
  | failed =>
    refine ⟨fun hne ↦ ?_, fun _ _ ↦ rfl⟩
    rw [hsame.resolve_right fun hnone ↦ hmutex rfl hnone.2] at hne
    exact (h hne).trans (haccepted hne).symm
  | succeeded =>
    obtain ⟨hsome, rfl⟩ := h
    have hne : d.shutdownOutcome ≠ none := by
      rw [hsome]
      rintro ⟨⟩
    have hsome' := (hsame.resolve_right fun hnone ↦ hne hnone.1).trans hsome
    exact ⟨⟨hsome', (haccepted hne).symm⟩, fun _ ↦ ⟨hsome', rfl⟩⟩

theorem grounds_refusal (hstage : d.StageOk d.worker.stage)
    (haccepting : d.acceptingActions = false) : d.Grounds d.acceptedRecords d.refusal := by
  rw [refusal]
  split
  · next hdestruction => exact hdestruction
  split
  · exact fun _ ↦ rfl
  next hdestruction hfailed =>
  have hjustifies : ∀ exit, ¬d.Justifies exit := by
    rintro exit (⟨-, h⟩ | ⟨-, h⟩)
    · exact hdestruction h
    · exact hfailed h
  cases hpc : d.worker.stage with
  | running | preparing | finishing =>
    rw [hpc] at hstage
    cases hstage.1.symm.trans haccepting
  | closing exit | settled exit =>
    rw [hpc] at hstage
    exact absurd hstage.2.2.2 (hjustifies exit)
  | completing outcome =>
    rw [hpc] at hstage
    obtain ⟨-, -, hsome, rfl | ⟨-, h⟩⟩ := hstage
    · exact ⟨hsome, rfl⟩
    · exact absurd h hfailed
  | ended =>
    rw [hpc] at hstage
    obtain ⟨-, ⟨-, -, exit, hexit⟩ | ⟨outcome, -, hsome, rfl | ⟨-, h⟩⟩⟩ := hstage
    · exact absurd hexit (hjustifies exit)
    · exact ⟨hsome, rfl⟩
    · exact absurd h hfailed

/-! ## Who has an Operation -/

/-- What a caller knows of the Operation that it has started. -/
def Backs (d : RuntimeDomain) : CallerPc → Prop
  | .startAction kind c | .watermark kind c none => d.Covered kind c d.acceptedRecords
  | .resetRegistrations c _ | .retireRegistration c _ => d.Covered .shutdown c d.acceptedRecords
  | .watermark kind c (some outcome) =>
    d.Covered kind c d.acceptedRecords ∧ d.Grounds d.acceptedRecords outcome
  | .buildReport kind c outcome watermark =>
    d.Covered kind c watermark ∧ d.Grounds watermark outcome
  | .tryComplete c outcome report => d.Decided c outcome report
  | _ => True

/-- What the worker knows of an Operation that it completes. -/
def WorkerBacks (d : RuntimeDomain) : WorkerPc → Prop
  | .buildReport exit a watermark => d.Covered a.kind a.completion watermark ∧
      (exit.shutdownOutcome ≠ none → a.kind = .shutdown → d.Grounds watermark exit.outcome)
  | .completeDrain _ c report => d.Decided c .succeeded report
  | .completeAction exit c report => d.Decided c exit.outcome report
  | _ => True

theorem mutex_ne_none (hreach : (machine conv setup).Reach ok d) {t : ℕ}
    (hin : (d.callers t).holdsMutex = true) : d.mutex ≠ none := by
  rw [(Guarded.of_reach hreach).caller (workerThread_lt hreach) hin]
  rintro ⟨⟩

structure Backed (d : RuntimeDomain) : Prop where
  callers : ∀ t, d.Backs (d.callers t)
  actions : ∀ i, (d.actions i).active = true →
    d.Covered (d.actions i).kind (d.actions i).completion (d.actions i).watermark
  worker : d.WorkerBacks d.worker

theorem Backs.step {pc : CallerPc} (h : d.Backs pc) (hreach : (machine conv setup).Reach ok d)
    (hmove : d.Move conv setup action d') (hmutex : pc.holdsMutex = true → d.mutex ≠ none) :
    d'.Backs pc := by
  cases pc with
  | startAction | resetRegistrations | retireRegistration => exact Covered.now h hreach hmove
  | watermark _ _ outcome =>
    cases outcome with
    | none => exact Covered.now h hreach hmove
    | some outcome =>
      exact ⟨h.1.now hreach hmove, (h.2.step hreach hmove fun _ ↦ hmutex rfl).2 rfl⟩
  | buildReport =>
    exact ⟨h.1.step hreach hmove, (h.2.step hreach hmove fun _ ↦ hmutex rfl).1⟩
  | tryComplete => exact Decided.step h hmove
  | _ => trivial

theorem WorkerBacks.step {pc : WorkerPc} (h : d.WorkerBacks pc)
    (hreach : (machine conv setup).Reach ok d) (hmove : d.Move conv setup action d')
    (hmutex : pc.holdsMutex = true → d.mutex ≠ none) : d'.WorkerBacks pc := by
  cases pc with
  | buildReport =>
    exact ⟨h.1.step hreach hmove, fun hexit hkind ↦
      ((h.2 hexit hkind).step hreach hmove fun _ ↦ hmutex rfl).1⟩
  | completeDrain | completeAction => exact Decided.step h hmove
  | _ => trivial

theorem actions_of_off {i j : ℕ}
    (h : (Function.update d.actions i { d.actions i with active := false } j).active = true) :
    Function.update d.actions i { d.actions i with active := false } j = d.actions j := by
  by_cases hji : j = i
  · rw [hji, Function.update_self] at h
    cases h
  · exact Function.update_of_ne hji ..

namespace Backed

theorem worker_step (h : d.Backed) (hreach : (machine conv setup).Reach ok d) {pc : WorkerPc}
    (hpc : d.worker = pc) (hmove : d.WorkerMove conv setup pc d') : d'.Backed := by
  have hstep : ∀ {kind c watermark}, d.Covered kind c watermark → d'.Covered kind c watermark :=
    fun hcovered ↦ hcovered.step hreach (.worker hpc hmove)
  have hcallers : d'.callers = d.callers → ∀ t, d'.Backs (d'.callers t) := by
    intro heq t
    rw [heq]
    exact (h.callers t).step hreach (.worker hpc hmove) (mutex_ne_none hreach)
  have hgoes : d'.callers = d.callers → d'.actions = d.actions → d'.WorkerBacks d'.worker →
      d'.Backed := by
    intro hsame hactions hworker
    refine ⟨hcallers hsame, ?_, hworker⟩
    rw [hactions]
    exact fun i hi ↦ hstep (h.actions i hi)
  have hoff : ∀ i, d'.actions = Function.update d.actions i { d.actions i with active := false } →
      ∀ j, (d'.actions j).active = true →
        d'.Covered (d'.actions j).kind (d'.actions j).completion (d'.actions j).watermark := by
    intro i heq j hactive
    rw [heq] at hactive ⊢
    have hsame := actions_of_off hactive
    rw [hsame] at hactive ⊢
    exact hstep (h.actions j hactive)
  cases hmove with
  | ready => exact ⟨hcallers rfl, hoff _ rfl, d.decided_conclude ..⟩
  | buildReport => exact hgoes rfl rfl (d.decided_conclude ..)
  | @takeAction exit i hmutex hfind =>
    refine ⟨hcallers rfl, hoff _ rfl, ?_⟩
    have hcovered := h.actions i (findAction_eq_some hfind)
    dsimp only [WorkerBacks]
    rw [actionWatermark]
    split
    · next hkind => exact ⟨hcovered, fun _ hkind' ↦ by cases hkind.symm.trans hkind'⟩
    · obtain ⟨hle, s, hs, hkind, hcovers⟩ := hcovered
      refine ⟨⟨le_rfl, s, hs, hkind, hcovers.trans hle⟩, fun hne _ ↦ ?_⟩
      have hstage : d.StageOk d.worker.stage := .of_reach hreach
      rw [hpc] at hstage
      cases exit with
      | destruction | routeFailure => exact absurd rfl hne
      | shutdown outcome =>
        obtain ⟨-, -, hsome, rfl | ⟨rfl, -⟩⟩ := hstage
        · exact ⟨hsome, rfl⟩
        · exact fun _ ↦ rfl
  | reads hreads => exact hgoes rfl rfl (by cases hreads <;> trivial)
  | callsKernel hcalls => exact hgoes rfl rfl (by cases hcalls <;> trivial)
  | usesRoute huses => exact hgoes rfl rfl (by cases huses <;> trivial)
  | completes hcompletes => exact hgoes rfl rfl (by cases hcompletes <;> trivial)
  | recordRetirement | noneReady | noneActive | recordProcessed | finish =>
    refine hgoes rfl rfl ?_
    dsimp only [goto]
    split <;> trivial
  | _ => exact hgoes rfl rfl trivial

theorem step (h : d.Backed) (hreach : (machine conv setup).Reach ok d)
    (hmove : d.Move conv setup action d') : d'.Backed := by
  have hactions : d'.actions = d.actions → ∀ i, (d'.actions i).active = true →
      d'.Covered (d'.actions i).kind (d'.actions i).completion (d'.actions i).watermark := by
    intro heq i hi
    rw [heq] at hi ⊢
    exact (h.actions i hi).step hreach hmove
  have hworker : d'.worker = d.worker → d'.WorkerBacks d'.worker :=
    fun heq ↦ heq ▸ h.worker.step hreach hmove fun hin hnone ↦ by
      cases hnone.symm.trans ((Guarded.of_reach hreach).holds consumerThread hin)
  have hcallers : d'.callers = d.callers → ∀ t, d'.Backs (d'.callers t) := by
    intro heq t
    rw [heq]
    exact (h.callers t).step hreach hmove (mutex_ne_none hreach)
  -- a caller goes on
  have hupdate : ∀ {t : ℕ} {p : CallerPc}, d'.callers = Function.update d.callers t p →
      d'.Backs p → ∀ t', d'.Backs (d'.callers t') := by
    intro t p hcallers hp t'
    rw [hcallers]
    by_cases ht : t' = t
    · rw [ht, Function.update_self]
      exact hp
    · rw [Function.update_of_ne ht]
      exact (h.callers t').step hreach hmove (mutex_ne_none hreach)
  have hnow : ∀ {kind c}, d.Covered kind c d.acceptedRecords →
      d'.Covered kind c d'.acceptedRecords := fun hcovered ↦ hcovered.now hreach hmove
  cases hmove with
  | worker hpc hmove => exact h.worker_step hreach hpc hmove
  | @caller t _ _ hpc hcaller =>
    have hself := h.callers t
    rw [hpc] at hself
    cases hcaller with
    | refuse haccepting =>
      exact ⟨hupdate rfl ⟨hself, grounds_refusal (d := d) (.of_reach hreach) haccepting⟩,
        hactions rfl, hworker rfl⟩
    | close | enter | nextRegistration | resetRegistration | retireRegistration | closed =>
      exact ⟨hupdate rfl (hnow hself), hactions rfl, hworker rfl⟩
    | watermark => exact ⟨hupdate rfl hself, hactions rfl, hworker rfl⟩
    | noEntry => exact ⟨hupdate rfl ⟨hself, fun _ ↦ rfl⟩, hactions rfl, hworker rfl⟩
    | @register kind c i =>
      refine ⟨hupdate rfl trivial, fun j hactive ↦ ?_, hworker rfl⟩
      by_cases hji : j = i
      · have heq : Function.update d.actions i ⟨kind, d.acceptedRecords, c, true⟩ i = _ :=
          Function.update_self ..
        dsimp only [setCaller, setAction]
        rw [hji, heq]
        exact hself
      · have heq : Function.update d.actions i ⟨kind, d.acceptedRecords, c, true⟩ j =
            d.actions j := Function.update_of_ne hji ..
        dsimp only [setCaller, setAction] at hactive ⊢
        rw [heq] at hactive ⊢
        exact h.actions j hactive
    | drained | buildReport =>
      exact ⟨hupdate rfl (d.decided_conclude ..), hactions rfl, hworker rfl⟩
    | _ => exact ⟨hupdate rfl trivial, hactions rfl, hworker rfl⟩
  | started =>
    exact ⟨hupdate rfl ⟨le_rfl, _, List.getElem?_concat_length, rfl, le_rfl⟩, hactions rfl,
      hworker rfl⟩
  | getLogger => exact ⟨hupdate rfl trivial, hactions rfl, hworker rfl⟩
  | _ => exact ⟨hcallers rfl, hactions rfl, hworker rfl⟩

theorem of_reach (h : (machine conv setup).Reach ok d) : d.Backed :=
  Machine.Reach.invariant_of_reach (I := Backed) h
    ⟨fun _ ↦ trivial, by rintro _ ⟨⟩, trivial⟩
    fun _ _ _ hd hbacked _ hstep ↦ hbacked.step hd (.of_step hstep)

end Backed

/-! ## Results -/

/-- What stays true of a result. -/
structure Concluded (d : RuntimeDomain) (dec : Decision) : Prop where
  covered : d.Covered dec.kind dec.completion dec.report.watermarkRecords
  retired : dec.outcome = .succeeded → dec.report.watermarkRecords ≤ d.ledger.retiredRecords
  shutdown : dec.outcome = .succeeded → dec.kind = .shutdown →
    d.Grounds dec.report.watermarkRecords .succeeded
  cancelled : dec.outcome = .cancelled → d.destructionStopRequested = true

/-- Everything was retired when a Shutdown was finished. -/
theorem Grounds.retired (h : d.Grounds watermark .succeeded)
    (hreach : (machine conv setup).Reach ok d) : d.ledger.retiredRecords = watermark := by
  rw [h.2]
  exact ((Closing.of_reach hreach).ended (by rw [h.1]; simp)).retired

theorem Decides.concluded (h : d.Decides setup action kind c outcome watermark)
    (hreach : (machine conv setup).Reach ok d) :
    d.Concluded (d.decision kind c outcome watermark) := by
  have hbacked := Backed.of_reach hreach
  have hstage : d.StageOk d.worker.stage := .of_reach hreach
  have hreport : (d.decision kind c outcome watermark).report.watermarkRecords = watermark :=
    d.buildReport_watermarkRecords watermark
  suffices hall : d.Covered kind c watermark ∧
      (outcome = .succeeded → watermark ≤ d.ledger.retiredRecords) ∧
      (outcome = .succeeded → kind = .shutdown → d.Grounds watermark .succeeded) ∧
      (outcome = .cancelled → d.destructionStopRequested = true) by
    obtain ⟨hcovered, hretired, hshutdown, hcancelled⟩ := hall
    refine ⟨?_, ?_, ?_, hcancelled⟩ <;> rw [hreport]
    · exact hcovered
    · exact hretired
    · exact hshutdown
  cases h with
  | @ready _ i _ hfind =>
    have hready := findAction_eq_some hfind
    rw [isReady, Bool.and_eq_true, Bool.and_eq_true, decide_eq_true_eq, beq_iff_eq] at hready
    exact ⟨hready.1.2 ▸ hbacked.actions i hready.1.1, fun _ ↦ hready.2, by rintro _ ⟨⟩,
      by rintro ⟨⟩⟩
  | @leaving exit a _ hpc =>
    have hself := hbacked.worker
    rw [hpc] at hself hstage
    obtain ⟨hcovered, hgrounds⟩ := hself
    cases exit with
    | destruction =>
      obtain ⟨-, -, -, ⟨-, hflag⟩ | ⟨hexit, -⟩⟩ := hstage
      · exact ⟨hcovered, by rintro ⟨⟩, by rintro ⟨⟩, fun _ ↦ hflag⟩
      · cases hexit
    | routeFailure => exact ⟨hcovered, by rintro ⟨⟩, by rintro ⟨⟩, by rintro ⟨⟩⟩
    | shutdown outcome =>
      obtain ⟨-, -, hsome, rfl | ⟨rfl, -⟩⟩ := hstage
      · have hfinished := (Closing.of_reach hreach).ended (by rw [hsome]; simp)
        exact ⟨hcovered, fun _ ↦ hfinished.retired ▸ hcovered.1,
          fun _ ↦ hgrounds (by rintro ⟨⟩), by rintro ⟨⟩⟩
      · exact ⟨hcovered, by rintro ⟨⟩, by rintro ⟨⟩, by rintro ⟨⟩⟩
  | @drained t _ hpc hretired =>
    have hself := hbacked.callers t
    rw [hpc] at hself
    exact ⟨hself, fun _ ↦ hretired.le, by rintro _ ⟨⟩, by rintro ⟨⟩⟩
  | @refused t _ _ _ _ hpc =>
    have hself := hbacked.callers t
    rw [hpc] at hself
    obtain ⟨hcovered, hgrounds⟩ := hself
    refine ⟨hcovered, ?_, ?_, ?_⟩ <;> rintro rfl
    · exact (hgrounds.retired hreach).ge
    · exact fun _ ↦ hgrounds
    · exact hgrounds

/-- After the end of the worker a Shutdown covers all that was ever accepted. -/
theorem Decides.final (h : d.Decides setup action kind c outcome watermark)
    (hreach : (machine conv setup).Reach ok d) (hkind : kind = .shutdown)
    (houtcome : outcome ≠ .cancelled) (hne : d.shutdownOutcome ≠ none) :
    watermark = d.acceptedRecords := by
  have hbacked := Backed.of_reach hreach
  have hstage : d.StageOk d.worker.stage := .of_reach hreach
  have hgrounds : d.Grounds watermark outcome := by
    cases h with
    | ready | drained => cases hkind
    | @leaving exit a _ hpc =>
      have hself := hbacked.worker
      rw [hpc] at hself hstage
      refine hself.2 ?_ hkind
      cases exit with
      | shutdown => rintro ⟨⟩
      | destruction | routeFailure => exact absurd hstage.2.2.1 hne
    | @refused t _ _ _ _ hpc =>
      have hself := hbacked.callers t
      rw [hpc] at hself
      exact hself.2
  cases outcome with
  | succeeded => exact hgrounds.2
  | failed => exact hgrounds hne
  | cancelled => exact absurd rfl houtcome

theorem Concluded.of_reach (h : (machine conv setup).Reach ok d) :
    ∀ dec ∈ d.decisions, d.Concluded dec := by
  refine forall_decisions (P := Concluded) h (fun d action d' dec hd hmove hdec ↦ ?_)
    fun d _ kind c outcome watermark hd _ hdecides ↦ hdecides.concluded hd
  refine ⟨hdec.covered.step hd hmove, fun hsucceeded ↦ (hdec.retired hsucceeded).trans
    hmove.retired_le, fun hsucceeded hkind ↦ ((hdec.shutdown hsucceeded hkind).step hd hmove
      (by rintro ⟨⟩)).1, fun hcancelled ↦ ?_⟩
  have hgrounds : d.Grounds 0 .cancelled := hdec.cancelled hcancelled
  exact (hgrounds.step hd hmove (by rintro ⟨⟩)).1

end Ulog.RuntimeDomain
