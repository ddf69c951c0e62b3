import Ulog.Producer.Fifo

/-!
# What the callback is handed

A `TryConsume` call first looks for the next Record, then runs the callback on it, then clears up.
The Record it hands over is the last of the consumptions, so its sequence is the number of
consumptions before it, and its view is the view of a published Record. Validation never fails, so a
call that answers `kRecord` has run its callback.
-/

namespace Ulog

variable {conv : Charconv} {config : ValidConfig} {k k' : Kernel} {m m' : KernelMemory}

namespace ConsumePc

variable {action : KernelAction}

/-- The callback runs. -/
def IsCallback : ConsumePc → Prop
  | .callback .. => True
  | _ => False

/-- The call has not run the callback. -/
def Upcoming : ConsumePc → Prop
  | .scan .. | .readEnvelope .. | .loadSequence _ | .validate _ | .callback .. => True
  | .done status => status ≠ .record
  | _ => False

/-- The call runs the callback or has run it. -/
def Past : ConsumePc → Prop
  | .callback .. | .releaseOwnership _ | .finishOwnership _ | .clearCell _ | .acknowledge _
  | .retire .. => True
  | .done status => status = .record
  | _ => False

end ConsumePc

namespace Kernel

/-- The Record under the callback is the last consumption. -/
def HandsOver (k : Kernel) : Prop :=
  ∀ f claim view, k.calls consumerThread = .consume f → f.pc = .callback claim view →
    k.consumptions.getLast? = some ⟨claim.envelope.admissionSequence, f.hasConsumer, some view⟩

theorem HandsOver.step (h : k.HandsOver) (hinv : k.Inv conv config)
    (hstep : k.step conv config action = some k') : k'.HandsOver := by
  intro f claim view hf hpc
  -- a call that is not at the callback now was not there before, unless nothing happened to it
  have hother : ∀ {t call}, (∀ g, call = .consume g → ∀ c v, g.pc ≠ .callback c v) →
      Function.update k.calls t call consumerThread = .consume f →
      k.calls consumerThread = .consume f := by
    intro t call hcall hf
    rcases update_eq_cases hf with ⟨-, heq⟩ | ⟨-, hf⟩
    · exact absurd hpc (hcall f heq.symm claim view)
    · exact hf
  cases Move.of_step hstep with
  | enter hidle hcall =>
    refine h f claim view (hother (fun g hg c v hpc ↦ ?_) hf) hpc
    cases hcall <;> cases hg
    dsimp only at hpc
    split at hpc <;> cases hpc
  | closeAdmission => exact h f claim view hf hpc
  | publish | retire | quiescent | register | returnPublish | «return» =>
    exact h f claim view (hother (by intro g hg; cases hg) hf) hpc
  | @consume t g _ m' pc' hg hconsume =>
    obtain ⟨rfl, -⟩ := hinv.consumer t g hg
    simp only [afterConsume, setCall, Function.update_self, KernelCall.consume.injEq] at hf
    subst hf
    simp only at hpc
    subst hpc
    simp only [afterConsume, consumption, List.getLast?_concat]

theorem HandsOver.of_reach {ok : Kernel → KernelAction → Prop}
    (h : (machine conv config).Reach ok k) : k.HandsOver := by
  have hboth : k.Inv conv config ∧ k.HandsOver := by
    refine Machine.Reach.invariant (I := fun k ↦ k.Inv conv config ∧ k.HandsOver) h
      ⟨inv_init, fun f claim view hf ↦ ?_⟩ fun k action k' hk _ hstep ↦
        ⟨hk.1.step hstep, hk.2.step hk.1 hstep⟩
    cases hf
  exact hboth.2

variable {f : ConsumeFrame} {claim : ConsumptionClaim} {view : RecordView}

theorem HandsOver.sequence (h : k.HandsOver) (hinv : k.Inv conv config)
    (hf : k.calls consumerThread = .consume f) (hpc : f.pc = .callback claim view) :
    k.consumptions.length = claim.envelope.admissionSequence + 1 := by
  have hlast := h f claim view hf hpc
  rw [List.getLast?_eq_some_iff] at hlast
  obtain ⟨before, hbefore⟩ := hlast
  have horder := congrArg List.getLast? hinv.order
  rw [hbefore, List.map_append, List.map_singleton, List.getLast?_concat, List.length_append,
    List.length_singleton, List.range_succ, List.getLast?_concat] at horder
  have hlength : claim.envelope.admissionSequence = before.length := Option.some.inj horder
  rw [hbefore, List.length_append, List.length_singleton, hlength]

/-- The callback is handed the Record that was accepted with its sequence. -/
theorem HandsOver.published (h : k.HandsOver) (hinv : k.Inv conv config)
    (hf : k.calls consumerThread = .consume f) (hpc : f.pc = .callback claim view)
    (hconsumer : f.hasConsumer = true) :
    ∃ (a : Admission) (r : PublishedRecord conv),
      k.admissions[claim.envelope.admissionSequence]? = some a ∧
        a.Contains conv config r.content ∧ r.limit = config.maximumRecordBytes ∧ view = r.view := by
  have hmem := List.mem_of_getLast? (h f claim view hf hpc)
  obtain ⟨a, slot, record, ha, hbuilds, hview⟩ := hinv.consumptions _ hmem
  obtain ⟨r, hcontains, hlimit, -, hr⟩ := hbuilds.exists_published
  exact ⟨a, r, ha, hcontains, hlimit, (Option.some.inj (hview hconsumer)).trans hr.symm⟩

/-- Before the callback a call looks on, or arrives there with one more consumption. -/
theorem Inv.consume_upcoming {pc pc' : ConsumePc} {choice : StepChoice} (hinv : k.Inv conv config)
    (hf : k.calls consumerThread = .consume ⟨true, pc⟩) (hpc : pc.Upcoming)
    (hcallback : ¬pc.IsCallback)
    (hstep : Ulog.consumeStep config k.memory ⟨true, pc⟩ choice = some (m', pc')) :
    pc'.Upcoming ∧ (pc'.IsCallback ∧ (consumption ⟨true, pc⟩ pc').length = 1 ∨
      ¬pc'.IsCallback ∧ consumption ⟨true, pc⟩ pc' = []) := by
  cases pc with
  | scan lane later =>
    simp only [Ulog.consumeStep] at hstep
    repeat' split at hstep
    all_goals
      cases hstep
      exact ⟨trivial, .inr ⟨id, rfl⟩⟩
  | readEnvelope lane readPosition later =>
    simp only [Ulog.consumeStep] at hstep
    split at hstep
    all_goals
      cases hstep
      exact ⟨trivial, .inr ⟨id, rfl⟩⟩
  | loadSequence later =>
    simp only [Ulog.consumeStep] at hstep
    cases hstep
    refine ⟨?_, .inr ⟨id, rfl⟩⟩
    change (if _ then ConsumeStatus.pending else .empty) ≠ .record
    split <;> decide
  | validate claim =>
    have hvalid := (hinv.validates hf rfl).1
    simp only [Ulog.consumeStep, hvalid, Bool.and_self, if_true] at hstep
    cases hstep
    exact ⟨trivial, .inl ⟨trivial, rfl⟩⟩
  | callback claim view => exact absurd trivial hcallback
  | done status =>
    simp only [Ulog.consumeStep] at hstep
    cases hstep
  | _ => exact hpc.elim

/-- From the callback on a call clears up. -/
theorem consumeStep_past {pc pc' : ConsumePc} {hasConsumer : Bool} {choice : StepChoice}
    (hpc : pc.Past) (hstep : consumeStep config m ⟨hasConsumer, pc⟩ choice = some (m', pc')) :
    pc'.Past ∧ ¬pc'.IsCallback ∧ consumption ⟨hasConsumer, pc⟩ pc' = [] := by
  cases pc with
  | callback claim view | releaseOwnership claim | finishOwnership claim | clearCell claim =>
    simp only [consumeStep] at hstep
    cases hstep
    exact ⟨trivial, id, rfl⟩
  | acknowledge claim =>
    simp only [consumeStep] at hstep
    cases hstep
    split
    · exact ⟨trivial, id, rfl⟩
    · exact ⟨rfl, id, rfl⟩
  | retire lane pc =>
    simp only [consumeStep] at hstep
    split at hstep
    · cases hstep
      exact ⟨trivial, id, rfl⟩
    · cases hstep
      exact ⟨rfl, id, rfl⟩
  | done status =>
    simp only [consumeStep] at hstep
    cases hstep
  | _ => exact hpc.elim

/-! ## The consumer's calls -/

theorem Inv.step_other (hinv : k.Inv conv config) (hstep : k.step conv config action = some k')
    (ht : action.thread ≠ some consumerThread) :
    k'.calls consumerThread = k.calls consumerThread ∧ k'.consumptions = k.consumptions := by
  have hmove := Move.of_step hstep
  refine ⟨hmove.calls_of_ne ht, ?_⟩
  cases hmove with
  | @consume t f _ _ _ hf hconsume =>
    obtain ⟨rfl, -⟩ := hinv.consumer t f hf
    exact absurd rfl ht
  | _ => rfl

theorem step_start {t : ℕ} {call : KernelCall} (hcall : Entry k.memory action t call)
    (hstep : k.step conv config action = some k') : k.calls t = .idle ∧ k' = k.setCall t call := by
  have hstart : k.start t call = some k' := by
    cases hcall <;> exact hstep
  rw [start] at hstart
  split at hstart
  · next hidle => exact ⟨hidle, (Option.some.inj hstart).symm⟩
  · cases hstart

theorem step_return {t : ℕ} (hstep : k.step conv config (.return t) = some k') :
    (k.calls t).Finished ∧ k'.calls t = .idle ∧ k'.consumptions = k.consumptions ∧
      k'.memory = k.memory := by
  cases Move.of_step hstep with
  | enter hidle hcall => cases hcall
  | returnPublish hf hpc =>
    refine ⟨?_, Function.update_self .., rfl, rfl⟩
    rw [hf]
    exact ⟨_, hpc⟩
  | «return» hcall hdone => exact ⟨hdone, Function.update_self .., rfl, rfl⟩

end Kernel

end Ulog
