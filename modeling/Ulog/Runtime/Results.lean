import Ulog.Control.Dispatch
import Ulog.Runtime.Outcomes

/-!
# Published results

A result is published by a call of `TryComplete`, the call was made with a result that was chosen
for a completion object, and the object was filled when its Operation was started. No two Operations
have the same node and generation. So what is published for an Operation is a `Decision` about its
own completion, and what holds of every `Decision` holds of every published result.
-/

namespace Ulog

/-! ## The control reserve -/

/-- No call comes to its publication from elsewhere. -/
theorem ControlFrame.Turn.not_publish {f f' : ControlFrame} {n n' : ControlNode}
    {pc : ControlPc} {call : Option ControlFrame} (h : f.Turn n pc n' call) (hcall : call = some f')
    {outcome : OperationOutcome} {report : OperationReport} : f'.pc ≠ .publish outcome report := by
  rintro hpc
  cases h <;> cases hcall <;> cases hpc

namespace Control

variable {s s' : Control} {free queue : List ℕ} {action : ControlAction} {t : ℕ}
  {f : ControlFrame} {outcome : OperationOutcome} {report : OperationReport}

/-- A call publishes what it was made with. -/
theorem Inv.publish_of_step (h : s.Inv free queue) (hstep : s.step action = some s')
    (hf : s'.calls t = some f) (hpc : f.pc = .publish outcome report) : s.calls t = some f ∨
      ∃ c, action = .tryComplete t c outcome report ∧ s.completions c = some f.ref := by
  cases Effect.of_step hstep with
  | tryComplete _ hc =>
    rcases update_eq_cases hf with ⟨rfl, heq⟩ | ⟨-, hf⟩
    · cases heq
      cases hpc
      exact .inr ⟨_, rfl, hc⟩
    · exact .inl hf
  | resetOperation | register | dispatch =>
    rcases update_eq_cases hf with ⟨-, heq⟩ | ⟨-, hf⟩
    · cases heq
      cases hpc
    · exact .inl hf
  | advance hbefore hcall =>
    rcases update_eq_cases hf with ⟨-, heq⟩ | ⟨-, hf⟩
    · exact absurd hpc ((h.turn hbefore hcall).not_publish heq.symm)
    · exact .inl hf
  | _ => exact .inl hf

theorem Inv.published_of_step (h : s.Inv free queue) (hstep : s.step action = some s')
    {x : ControlRef × OperationResult} (hx : x ∈ s'.published) : x ∈ s.published ∨
      ∃ t f outcome report, s.calls t = some f ∧ f.pc = .publish outcome report ∧
        x = (f.ref, ⟨outcome, report⟩) := by
  cases Effect.of_step hstep with
  | @advance t f m' call hf hcall =>
    have hturn := h.turn hf hcall
    rw [afterCall, setCall, record] at hx
    dsimp only at hx
    split at hx
    · next hpublished =>
      rcases List.mem_append.mp hx with hx | hx
      · exact .inl hx
      · generalize m'.nodes f.node = n' at hturn hpublished hx
        rw [List.mem_singleton] at hx
        generalize hpc : f.pc = pc at hturn
        cases hturn with
        | publishArmed | publish => exact .inr ⟨t, f, _, _, hf, hpc, hx⟩
        | clear => cases hpublished.2
        | _ => cases hpublished.1.symm.trans hpublished.2
    · exact .inl hx
  | _ => exact .inl hx

theorem completions_of_step (hstep : s.step action = some s')
    (hmove : ∀ source target, action ≠ .moveCompletion source target) {c : ℕ} {r : ControlRef}
    (hc : s'.completions c = some r) : s.completions c = some r ∨
      ∃ o m', action = .tryStart o c ∧ s.memory.tryStart = (m', .ok r) ∧ s'.memory = m' := by
  cases Effect.of_step hstep with
  | started _ _ hstart =>
    rcases update_eq_cases hc with ⟨rfl, heq⟩ | ⟨-, hc⟩
    · cases heq
      exact .inr ⟨_, _, rfl, hstart, rfl⟩
    · exact .inl hc
  | movedCompletion => exact absurd rfl (hmove _ _)
  | tryComplete =>
    rcases update_eq_cases hc with ⟨-, ⟨⟩⟩ | ⟨-, hc⟩
    exact .inl hc
  | _ => exact .inl hc

theorem Inv.generation_le (h : s.Inv free queue) (hstep : s.step action = some s') (i : ℕ) :
    (s.memory.nodes i).generation ≤ (s'.memory.nodes i).generation := by
  cases Effect.of_step hstep with
  | @started _ _ _ r _ _ hstart =>
    obtain ⟨hself, hother, -⟩ := tryStart_nodes hstart
    dsimp only
    by_cases hi : i = r.node
    · rw [hi, hself]
      exact Nat.le_succ _
    · rw [hother i hi]
  | register _ ho =>
    exact (h.register_keeps (p := fun _ ↦ ()) ho (fun _ _ _ ↦ rfl) i).generation.ge
  | dispatch _ hpop =>
    have hnode := (linkedQueue_popTask h.queue_linked hpop).1.nodes i
    exact (congrArg ControlNode.generation hnode).ge
  | @advance _ f _ _ hf hcall =>
    by_cases hi : i = f.node
    · rw [hi]
      exact (h.turn hf hcall).generation.ge
    · exact (congrArg ControlNode.generation (ControlFrame.step_other hcall hi)).ge
  | _ => exact le_rfl

end Control

/-! ## The Runtime -/

namespace RuntimeDomain

variable {conv : Charconv} {setup : RuntimeSetup} {d d' : RuntimeDomain}
  {action : DomainAction} {ok : RuntimeDomain → DomainAction → Prop} {c : ℕ} {ref : ControlRef}
  {result : OperationResult} {control : Control} {a : ControlAction} {started : List Start}

/-- The result was chosen for the Operation. -/
def Chosen (d : RuntimeDomain) (ref : ControlRef) (result : OperationResult) : Prop :=
  ∃ c s, d.started[c]? = some s ∧ s.ref = ref ∧ d.Decided c result.outcome result.report

theorem Chosen.step (h : d.Chosen ref result) (hmove : d.Move conv setup action d') :
    d'.Chosen ref result := by
  obtain ⟨c, s, hs, href, hdecided⟩ := h
  exact ⟨c, s, getElem?_mono hmove.started_prefix hs, href, hdecided.step hmove⟩

/-- How the Runtime steps the control reserve, with the Operations that are started then. -/
inductive Steers (d : RuntimeDomain) (control : Control) : ControlAction → List Start → Prop
  | startFailed {o : ℕ} (hnone : control.completions d.started.length = none) :
      Steers d control (.tryStart o d.started.length) d.started
  | started {o : ℕ} {kind : ControlActionKind} {ref : ControlRef}
      (href : control.completions d.started.length = some ref) :
      Steers d control (.tryStart o d.started.length)
        (d.started ++ [⟨kind, ref, d.acceptedRecords⟩])
  | completes {t c : ℕ} {outcome : OperationOutcome} {report : OperationReport}
      (hdecided : d.Decided c outcome report) :
      Steers d control (.tryComplete t c outcome report) d.started
  | other {a : ControlAction} (hpermits : permitsControl a = true) : Steers d control a d.started

theorem Move.steers (h : d.Move conv setup action d') (hbacked : d.Backed) :
    d'.control = d.control ∧ d'.started = d.started ∨
      ∃ a, d.control.step a = some d'.control ∧ d.Steers d'.control a d'.started := by
  cases h with
  | worker hpc h =>
    have hself := hbacked.worker
    rw [hpc] at hself
    cases h with
    | completes hcompletes hcontrol =>
      cases hcompletes <;> exact .inr ⟨_, hcontrol, .completes hself⟩
    | _ => exact .inl ⟨rfl, rfl⟩
  | @caller t _ _ hpc h =>
    have hself := hbacked.callers t
    rw [hpc] at hself
    cases h with
    | tryComplete hcontrol => exact .inr ⟨_, hcontrol, .completes hself⟩
    | _ => exact .inl ⟨rfl, rfl⟩
  | startFailed hcontrol hnone => exact .inr ⟨_, hcontrol, .startFailed hnone⟩
  | started _ _ hcontrol href => exact .inr ⟨_, hcontrol, .started href⟩
  | control hpermits hcontrol => exact .inr ⟨_, hcontrol, .other hpermits⟩
  | _ => exact .inl ⟨rfl, rfl⟩

theorem control_reachable (h : (machine conv setup).Reach ok d) :
    (Control.machine setup.controlCapacity).Reachable d.control := by
  refine Machine.Reach.project (f := control) h rfl fun d action d' hd _ hstep ↦ ?_
  rcases (Move.of_step hstep).steers (.of_reach hd) with ⟨heq, -⟩ | ⟨a, ha, -⟩
  · exact .inl heq
  · exact .inr ⟨a, trivial, ha⟩

/-- Only an Operation that is started fills a completion. -/
theorem Steers.completions (h : d.Steers control a started)
    (hstep : d.control.step a = some control) (hc : control.completions c = some ref) :
    d.control.completions c = some ref ∨ ∃ s, started[c]? = some s ∧ s.ref = ref := by
  have hmove : ∀ source target, a ≠ .moveCompletion source target := by
    rintro _ _ rfl
    cases h with
    | other hpermits => cases hpermits
  refine (Control.completions_of_step hstep hmove hc).imp_right ?_
  rintro ⟨_, _, rfl, -⟩
  cases h with
  | startFailed hnone => cases hnone.symm.trans hc
  | started href =>
    cases href.symm.trans hc
    exact ⟨_, List.getElem?_concat_length, rfl⟩
  | other hpermits => cases hpermits

theorem Steers.decided {t : ℕ} {outcome : OperationOutcome} {report : OperationReport}
    (h : d.Steers control (.tryComplete t c outcome report) started) :
    d.Decided c outcome report := by
  cases h with
  | completes hdecided => exact hdecided
  | other hpermits => cases hpermits

/-- The Operations, their completions and their results. -/
structure Answered (d : RuntimeDomain) : Prop where
  completions : ∀ c ref, d.control.completions c = some ref →
    ∃ s, d.started[c]? = some s ∧ s.ref = ref
  current : ∀ s ∈ d.started, s.ref.generation ≤ (d.control.memory.nodes s.ref.node).generation
  once : (d.started.map (·.ref)).Nodup
  calls : ∀ t f outcome report, d.control.calls t = some f → f.pc = .publish outcome report →
    d.Chosen f.ref ⟨outcome, report⟩
  published : ∀ ref result, (ref, result) ∈ d.control.published → d.Chosen ref result

/-- The node of a new Operation is at the beginning of a generation. -/
theorem Answered.steers (h : d.Answered) (hsteers : d.Steers control a started)
    (hstep : d.control.step a = some control)
    (hle : ∀ i, (d.control.memory.nodes i).generation ≤ (control.memory.nodes i).generation) :
    (∀ s ∈ started, s.ref.generation ≤ (control.memory.nodes s.ref.node).generation) ∧
      (started.map (·.ref)).Nodup := by
  have hcurrent : ∀ s ∈ d.started,
      s.ref.generation ≤ (control.memory.nodes s.ref.node).generation :=
    fun s hs ↦ (h.current s hs).trans (hle _)
  cases hsteers with
  | startFailed | completes | other => exact ⟨hcurrent, h.once⟩
  | @started _ _ ref href =>
    rcases Control.completions_of_step hstep (by rintro _ _ ⟨⟩) href with
      hc | ⟨_, m', -, hstart, hmemory⟩
    · obtain ⟨s, hs, -⟩ := h.completions _ _ hc
      exact absurd (List.getElem?_eq_some_iff.mp hs).1 (Nat.lt_irrefl _)
    obtain ⟨hself, -, hnew⟩ := Control.tryStart_nodes hstart
    rw [List.map_append, List.nodup_append]
    refine ⟨fun s hs ↦ ?_, h.once, List.nodup_singleton _, ?_⟩
    · rcases List.mem_append.mp hs with hs | hs
      · exact hcurrent s hs
      · rw [List.mem_singleton.mp hs, hmemory, hself]
        exact (congrArg ControlRef.generation hnew).le
    · rintro _ hr _ hr' rfl
      obtain ⟨s, hs, rfl⟩ := List.mem_map.mp hr
      have hsame : s.ref = ref := List.mem_singleton.mp hr'
      have hle := h.current s hs
      rw [hsame, hnew] at hle
      exact Nat.not_succ_le_self _ hle

theorem Answered.step (h : d.Answered) (hreach : (machine conv setup).Reach ok d)
    (hmove : d.Move conv setup action d') : d'.Answered := by
  rcases hmove.steers (.of_reach hreach) with ⟨heq, hstarted⟩ | ⟨a, hstep, hsteers⟩
  · refine ⟨?_, ?_, by rw [hstarted]; exact h.once, ?_, ?_⟩ <;> rw [heq]
    · rw [hstarted]
      exact h.completions
    · rw [hstarted]
      exact h.current
    · exact fun t f outcome report hf hpc ↦ (h.calls t f outcome report hf hpc).step hmove
    · exact fun ref result hmem ↦ (h.published ref result hmem).step hmove
  · obtain ⟨free, queue, hhistory⟩ := Control.History.of_reachable (control_reachable hreach)
    have hinv := hhistory.inv
    obtain ⟨hcurrent, honce⟩ := h.steers hsteers hstep (hinv.generation_le hstep)
    refine ⟨fun c ref hc ↦ ?_, hcurrent, honce, fun t f outcome report hf hpc ↦ ?_,
      fun ref result hmem ↦ Chosen.step ?_ hmove⟩
    · rcases hsteers.completions hstep hc with hc | hnew
      · obtain ⟨s, hs, href⟩ := h.completions c ref hc
        exact ⟨s, getElem?_mono hmove.started_prefix hs, href⟩
      · exact hnew
    · refine Chosen.step ?_ hmove
      rcases hinv.publish_of_step hstep hf hpc with hf | ⟨c, rfl, hc⟩
      · exact h.calls t f outcome report hf hpc
      · obtain ⟨s, hs, href⟩ := h.completions c _ hc
        exact ⟨c, s, hs, href, hsteers.decided⟩
    · rcases hinv.published_of_step hstep hmem with hmem | ⟨t, f, outcome, report, hf, hpc, heq⟩
      · exact h.published ref result hmem
      · cases heq
        exact h.calls t f outcome report hf hpc

theorem Answered.of_reach (h : (machine conv setup).Reach ok d) : d.Answered :=
  Machine.Reach.invariant_of_reach (I := Answered) h
    ⟨by rintro _ _ ⟨⟩, by rintro _ ⟨⟩, .nil, by rintro _ _ _ _ ⟨⟩, by rintro _ _ ⟨⟩⟩
    fun _ _ _ hd hanswered _ hstep ↦ hanswered.step hd (.of_step hstep)

/-- What is published for an Operation was chosen for it, and the report covers what was accepted
when the Operation was started. -/
def Publishes (d : RuntimeDomain) : Prop :=
  ∀ s ∈ d.started, ∀ result, (s.ref, result) ∈ d.control.published →
    ∃ dec ∈ d.decisions, d.started[dec.completion]? = some s ∧ dec.kind = s.kind ∧
      dec.outcome = result.outcome ∧ dec.report = result.report ∧
      s.accepted ≤ result.report.watermarkRecords

theorem publishes (h : (machine conv setup).Reach ok d) : d.Publishes := by
  intro s hs result hpublished
  have hanswered := Answered.of_reach h
  obtain ⟨_, s', hs', href, dec, hdec, rfl, houtcome, hreport⟩ :=
    hanswered.published _ _ hpublished
  obtain rfl : s' = s :=
    List.inj_on_of_nodup_map hanswered.once (List.mem_of_getElem? hs') hs href
  obtain ⟨-, s, hs, hkind, hcovers⟩ := (Concluded.of_reach h dec hdec).covered
  cases hs.symm.trans hs'
  exact ⟨dec, hdec, hs', hkind.symm, houtcome, hreport, hreport ▸ hcovers⟩

/-- Only the destructor cancels an action; its report covers no less for that. -/
theorem cancelled_by_destructor (h : (machine conv setup).Reach ok d) {s : Start}
    (hs : s ∈ d.started) (hpublished : (s.ref, result) ∈ d.control.published)
    (hcancelled : result.outcome = .cancelled) :
    d.destructionStopRequested = true ∧ s.accepted ≤ result.report.watermarkRecords := by
  obtain ⟨dec, hdec, -, -, houtcome, -, hcovers⟩ := publishes h s hs result hpublished
  exact ⟨(Concluded.of_reach h dec hdec).cancelled (houtcome.trans hcancelled), hcovers⟩

theorem cancelled_by_destructor_drain : ∃ d s result, oneBuffer.Reachable d ∧ s ∈ d.started ∧
    s.kind = .drain ∧ (s.ref, result) ∈ d.control.published ∧ result.outcome = .cancelled ∧
    d.destructionStopRequested = true := by
  have hrun : oneBuffer.run (fun _ _ ↦ True) oneBuffer.init
      (List.flatten [[.destructor], List.replicate 37 .worker, [.startAction 2 .drain 0],
        List.replicate 4 (.caller 2), [.control (.advance 2)]]) = some _ := rfl
  have hreach := Machine.Reach.of_run .init hrun
  exact ⟨_, _, _, hreach, .head _, rfl, .head _, rfl,
    (cancelled_by_destructor hreach (.head _) (.head _) rfl).1⟩

end RuntimeDomain

end Ulog
