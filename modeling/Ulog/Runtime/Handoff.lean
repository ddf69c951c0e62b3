import Ulog.Producer.Handoff
import Ulog.Runtime.Stages

/-!
# From the kernel to the route

The kernel of a Runtime is a run of its own machine. The worker is its only consumer, and where the
worker is in `Run` says which call it has in progress; so the Records that the route took are the
consumptions, in their order, as long as the worker does not discard Records.
-/

namespace Ulog

/-- The kernel call of the worker. -/
def WorkerPc.Calls (pc : WorkerPc) (call : KernelCall) : Prop :=
  match pc with
  | .consuming none => ∃ pc', call = .consume ⟨true, pc'⟩ ∧ pc'.Upcoming
  | .storing sequence => ∃ claim view, call = .consume ⟨true, .callback claim view⟩ ∧
      claim.envelope.admissionSequence = sequence
  | .consuming (some _) => ∃ pc', call = .consume ⟨true, pc'⟩ ∧ pc'.Past
  | .discarding _ => ∃ f, call = .consume f
  | .quiescent _ => ∃ f, call = .quiescent f
  | .retireRegistration .. => ∃ f, call = .retire f
  | _ => call = .idle

namespace WorkerPc

/-- The worker is in a call of the kernel. -/
def isCalling : WorkerPc → Bool
  | .consuming _ | .storing _ | .discarding _ | .quiescent _ | .retireRegistration .. => true
  | _ => false

/-- The worker is behind its call of the kernel and has used what it got. -/
def isPlain : WorkerPc → Bool
  | .dropClaim .. => false
  | pc => !pc.isCalling

variable {pc : WorkerPc} {call : KernelCall}

theorem Calls.idle (h : pc.Calls call) (hpc : pc.isCalling = false) : call = .idle := by
  cases pc with
  | consuming | storing | discarding | quiescent | retireRegistration => cases hpc
  | _ => exact h

theorem Calls.cases (h : pc.Calls call) : call = .idle ∨ (∃ f, call = .consume f) ∨
    (∃ f exit, call = .quiescent f ∧ pc = .quiescent exit) ∨
      ∃ f exit index, call = .retire f ∧ pc = .retireRegistration exit index := by
  cases pc with
  | consuming stored =>
    cases stored with
    | none | some =>
      obtain ⟨_, h, -⟩ := h
      exact .inr (.inl ⟨_, h⟩)
  | storing =>
    obtain ⟨_, _, h, -⟩ := h
    exact .inr (.inl ⟨_, h⟩)
  | discarding => exact .inr (.inl h)
  | quiescent =>
    obtain ⟨f, h⟩ := h
    exact .inr (.inr (.inl ⟨f, _, h, rfl⟩))
  | retireRegistration =>
    obtain ⟨f, h⟩ := h
    exact .inr (.inr (.inr ⟨f, _, _, h, rfl⟩))
  | _ => exact .inl h

theorem Calls.consume {f : ConsumeFrame} (h : pc.Calls (.consume f)) :
    (pc = .consuming none ∧ f.hasConsumer = true ∧ f.pc.Upcoming) ∨ (∃ s, pc = .storing s) ∨
      (∃ taken, pc = .consuming (some taken) ∧ f.hasConsumer = true ∧ f.pc.Past) ∨
      ∃ exit, pc = .discarding exit := by
  cases pc with
  | consuming stored =>
    cases stored with
    | none =>
      obtain ⟨pc', heq, hpc'⟩ := h
      cases heq
      exact .inl ⟨rfl, rfl, hpc'⟩
    | some taken =>
      obtain ⟨pc', heq, hpc'⟩ := h
      cases heq
      exact .inr (.inr (.inl ⟨taken, rfl, rfl, hpc'⟩))
  | storing s => exact .inr (.inl ⟨s, rfl⟩)
  | discarding exit => exact .inr (.inr (.inr ⟨exit, rfl⟩))
  | quiescent | retireRegistration =>
    obtain ⟨_, heq⟩ := h
    cases heq
  | _ => cases h

end WorkerPc

namespace RuntimeDomain

variable {conv : Charconv} {setup : RuntimeSetup} {d d' : RuntimeDomain} {pc pc' : WorkerPc}
  {action : DomainAction} {ok : RuntimeDomain → DomainAction → Prop} {kernel : Kernel}

/-! ## The kernel's run -/

theorem Move.kernel_cases (h : d.Move conv setup action d') : d'.kernel = d.kernel ∨
    ∃ b, d.kernel.step conv setup.kernel b = some d'.kernel := by
  cases h with
  | worker _ h =>
    cases h with
    | callsKernel _ hkernel | prepare _ hkernel | resetRegistration hkernel =>
      exact .inr ⟨_, hkernel⟩
    | _ => exact .inl rfl
  | caller _ h =>
    cases h with
    | close _ _ hkernel | registerProducer _ hkernel | resetRegistration hkernel
    | retireRegistration hkernel | registered hkernel | noPlace hkernel | dropRegistration hkernel
    | droppingRegistration hkernel => exact .inr ⟨_, hkernel⟩
    | _ => exact .inl rfl
  | closeAdmission _ hkernel | kernel _ hkernel => exact .inr ⟨_, hkernel⟩
  | _ => exact .inl rfl

theorem kernel_reachable (h : (machine conv setup).Reach ok d) :
    (Kernel.machine conv setup.kernel).Reachable d.kernel := by
  refine Machine.Reach.project (f := kernel) h rfl fun d action d' _ _ hstep ↦ ?_
  rcases (Move.of_step hstep).kernel_cases with heq | ⟨b, hb⟩
  · exact .inl heq
  · exact .inr ⟨b, trivial, hb⟩

/-! ## The worker's calls -/

/-- The worker and the kernel agree on what is going on and on how much was handed over. -/
structure Synced (d : RuntimeDomain) : Prop where
  call : d.worker.Calls (d.kernel.calls consumerThread)
  count : d.ledger.settled = false →
    d.kernel.consumptions.length = d.taken + if d.atCallback then 1 else 0
  dropped : ∀ consumed stored, d.worker = .dropClaim consumed stored →
    (consumed = .record ↔ stored.isSome = true)

theorem atCallback_eq_false (hconsuming : d.worker ≠ .consuming none)
    (hstoring : ∀ s, d.worker ≠ .storing s) : d.atCallback = false := by
  rw [atCallback]
  split
  · next hpc _ => exact absurd hpc hconsuming
  · next hpc => exact absurd hpc (hstoring _)
  · rfl

theorem atCallback_of_not_consume (hstoring : ∀ s, d.worker ≠ .storing s)
    (hcall : ∀ f, d.kernel.calls consumerThread ≠ .consume f) : d.atCallback = false := by
  rw [atCallback]
  split
  · next hf => exact absurd hf (hcall _)
  · next hpc => exact absurd hpc (hstoring _)
  · rfl

theorem atCallback_consuming {hasConsumer : Bool} {pc' : ConsumePc}
    (hpc : d.worker = .consuming none)
    (hcall : d.kernel.calls consumerThread = .consume ⟨hasConsumer, pc'⟩) :
    d.atCallback = true ↔ pc'.IsCallback := by
  rw [atCallback, hpc, hcall]
  cases pc' <;> simp [ConsumePc.IsCallback]

namespace Synced

/-- Outside its calls the worker has handed on all consumptions. -/
theorem idle (h : d.Synced) (hworker : d.worker = pc) (hpc : pc.isCalling = false) :
    d.kernel.calls consumerThread = .idle ∧
      (d.ledger.settled = false → d.kernel.consumptions.length = d.taken) := by
  rw [← hworker] at hpc
  refine ⟨h.call.idle hpc, fun hsettled ↦ ?_⟩
  have hcount := h.count hsettled
  rwa [atCallback_eq_false (fun heq ↦ by rw [heq] at hpc; cases hpc)
    (fun s heq ↦ by rw [heq] at hpc; cases hpc), if_neg (by decide), Nat.add_zero] at hcount

theorem of_plain (hpc : d.worker.isPlain = true) (hidle : d.kernel.calls consumerThread = .idle)
    (hcount : d.ledger.settled = false → d.kernel.consumptions.length = d.taken) : d.Synced where
  call := by
    rw [hidle]
    cases hworker : d.worker with
    | consuming | storing | discarding | quiescent | retireRegistration =>
      rw [hworker] at hpc
      cases hpc
    | _ => rfl
  count hsettled := by
    rw [atCallback_eq_false (fun heq ↦ by rw [heq] at hpc; cases hpc)
      (fun s heq ↦ by rw [heq] at hpc; cases hpc), if_neg (by decide), Nat.add_zero]
    exact hcount hsettled
  dropped consumed stored hworker := by
    rw [hworker] at hpc
    cases hpc

theorem goes (h : d.Synced) (hworker : d.worker = pc) (hpc : pc.isCalling = false)
    (hpc' : d'.worker.isPlain = true)
    (hkernel : d'.kernel.calls consumerThread = d.kernel.calls consumerThread ∧
      d'.kernel.consumptions = d.kernel.consumptions)
    (htaken : d'.taken = d.taken)
    (hsettled : d'.ledger.settled = false → d.ledger.settled = false) : d'.Synced := by
  obtain ⟨hidle, hcount⟩ := h.idle hworker hpc
  refine of_plain hpc' (hkernel.1.trans hidle) fun hs ↦ ?_
  rw [hkernel.2, htaken]
  exact hcount (hsettled hs)

theorem others (h : d.Synced) (hworker : d'.worker = d.worker)
    (hkernel : d'.kernel.calls consumerThread = d.kernel.calls consumerThread ∧
      d'.kernel.consumptions = d.kernel.consumptions)
    (htaken : d'.taken = d.taken) (hsettled : d'.ledger.settled = d.ledger.settled) :
    d'.Synced where
  call := by
    rw [hworker, hkernel.1]
    exact h.call
  count hs := by
    have hcallback : d'.atCallback = d.atCallback := by
      rw [atCallback, atCallback, hworker, hkernel.1]
    rw [hkernel.2, htaken, hcallback]
    exact h.count (hsettled ▸ hs)
  dropped := by
    rw [hworker]
    exact h.dropped

theorem advance_consume (h : d.Synced) (hinv : d.kernel.Inv conv setup.kernel)
    (hstage : d.StageOk d.worker.stage) (hcallback : d.atCallback = false) {f : ConsumeFrame}
    {choice : StepChoice} {m' : KernelMemory} {pc' : ConsumePc}
    (hf : d.kernel.calls consumerThread = .consume f)
    (hstep : consumeStep setup.kernel d.kernel.memory f choice = some (m', pc')) :
    Synced { d with kernel := d.kernel.afterConsume consumerThread f m' pc' } := by
  have hself : (d.kernel.afterConsume consumerThread f m' pc').calls consumerThread =
      .consume { f with pc := pc' } := Function.update_self consumerThread _ d.kernel.calls
  have hcount := h.count
  rw [hcallback, if_neg (by decide), Nat.add_zero] at hcount
  have hcall := h.call
  rw [hf] at hcall
  obtain ⟨hasConsumer, pc⟩ := f
  rcases hcall.consume with ⟨hpc, hconsumer, hupcoming⟩ | ⟨s, hpc⟩ |
    ⟨taken, hpc, hconsumer, hpast⟩ | ⟨exit, hpc⟩
  · dsimp only at hconsumer hupcoming hself
    subst hconsumer
    have hnot : ¬pc.IsCallback := by
      rw [← atCallback_consuming hpc hf, hcallback]
      decide
    obtain ⟨hupcoming', hcases⟩ := hinv.consume_upcoming hf hupcoming hnot hstep
    refine ⟨?_, fun hsettled ↦ ?_, h.dropped⟩
    · rw [hself, hpc]
      exact ⟨pc', rfl, hupcoming'⟩
    · have hiff : { d with
          kernel := d.kernel.afterConsume consumerThread ⟨true, pc⟩ m' pc' }.atCallback = true ↔
            pc'.IsCallback := atCallback_consuming hpc hself
      rcases hcases with ⟨hyes, hone⟩ | ⟨hno, hnone⟩
      · rw [if_pos (hiff.mpr hyes), ← hcount hsettled, ← hone]
        exact List.length_append
      · rw [if_neg (fun hyes ↦ hno (hiff.mp hyes)), ← hcount hsettled]
        exact congrArg List.length ((congrArg (d.kernel.consumptions ++ ·) hnone).trans
          (List.append_nil _))
  · rw [atCallback, hpc] at hcallback
    cases hcallback
  · dsimp only at hconsumer hpast hself
    subst hconsumer
    obtain ⟨hpast', -, hnone⟩ := Kernel.consumeStep_past hpast hstep
    refine ⟨?_, fun hsettled ↦ ?_, h.dropped⟩
    · rw [hself, hpc]
      exact ⟨pc', rfl, hpast'⟩
    · have hno : { d with
          kernel := d.kernel.afterConsume consumerThread ⟨true, pc⟩ m' pc' }.atCallback = false :=
        atCallback_eq_false (by rw [hpc]; rintro ⟨⟩) (by rw [hpc]; rintro _ ⟨⟩)
      rw [hno, if_neg (by decide), Nat.add_zero, ← hcount hsettled]
      exact congrArg List.length ((congrArg (d.kernel.consumptions ++ ·) hnone).trans
        (List.append_nil _))
  · refine ⟨?_, fun hsettled ↦ ?_, h.dropped⟩
    · rw [hself, hpc]
      exact ⟨_, rfl⟩
    · rw [hpc] at hstage
      exact absurd (hstage.2.1.symm.trans hsettled) (by decide)

theorem kernelMoves (h : d.Synced) (hinv : d.kernel.Inv conv setup.kernel)
    (hstage : d.StageOk d.worker.stage) {action : KernelAction}
    (hpermits : d.permitsKernel action = true)
    (hkernel : d.kernel.step conv setup.kernel action = some kernel) :
    Synced { d with kernel := kernel } := by
  by_cases ht : action.thread = some consumerThread
  swap
  · exact h.others rfl (hinv.step_other hkernel ht) rfl rfl
  have hcases := h.call.cases
  cases action with
  | publish t =>
    cases ht
    cases hpermits
  | consume | retire | quiescent | register | closeAdmission => cases hpermits
  | «return» t =>
    cases ht
    rw [permitsKernel] at hpermits
    split at hpermits
    · next f hf =>
      rw [hf] at hcases
      simp at hcases
    · cases hpermits
  | advance t choice =>
    cases ht
    have hcallback : d.atCallback = false := by
      rw [permitsKernel] at hpermits
      simpa using hpermits
    have hstoring : ∀ s, d.worker ≠ .storing s := by
      intro s hpc
      rw [atCallback, hpc] at hcallback
      cases hcallback
    -- calls other than `TryConsume` consume nothing
    have hsame : ∀ {call : KernelCall} {m' : KernelMemory}, (∀ f, call ≠ .consume f) →
        d.worker.Calls call →
        Synced { d with kernel := d.kernel.after consumerThread m' call } := by
      intro call m' hconsume hcall
      have hself : (d.kernel.after consumerThread m' call).calls consumerThread = call :=
        Function.update_self consumerThread _ d.kernel.calls
      refine ⟨by rw [hself]; exact hcall, fun hsettled ↦ ?_, h.dropped⟩
      have hcount := h.count hsettled
      have hno : { d with kernel := d.kernel.after consumerThread m' call }.atCallback = false :=
        atCallback_of_not_consume hstoring (by rw [hself]; exact hconsume)
      rw [hcallback] at hcount
      rw [hno]
      exact hcount
    cases Kernel.Move.of_step hkernel with
    | enter hidle hcall => cases hcall
    | publish hf | register hf =>
      rw [hf] at hcases
      simp at hcases
    | consume hf hstep => exact h.advance_consume hinv hstage hcallback hf hstep
    | retire hf =>
      rw [hf] at hcases
      obtain ⟨_, _, hpc⟩ : ∃ exit index, d.worker = .retireRegistration exit index := by
        simpa using hcases
      exact hsame (by rintro _ ⟨⟩) (by rw [hpc]; exact ⟨_, rfl⟩)
    | quiescent hf =>
      rw [hf] at hcases
      obtain ⟨_, hpc⟩ : ∃ exit, d.worker = .quiescent exit := by simpa using hcases
      exact hsame (by rintro _ ⟨⟩) (by rw [hpc]; exact ⟨_, rfl⟩)

end Synced

theorem Reads.plain (h : d.Reads pc pc') : pc.isCalling = false ∧ pc'.isPlain = true := by
  cases h <;> exact ⟨rfl, rfl⟩

namespace Synced

theorem starts (h : d.Synced) (hworker : d.worker = pc) (hpc : pc.isCalling = false)
    {a : KernelAction} {call : KernelCall}
    (hcall : Kernel.Entry d.kernel.memory a consumerThread call)
    (hkernel : d.kernel.step conv setup.kernel a = some kernel) (hpc' : d'.worker.Calls call)
    (hdrop : ∀ c s, d'.worker ≠ .dropClaim c s) (hcallback : d'.atCallback = false)
    (hd' : d'.kernel = kernel) (htaken : d'.taken = d.taken)
    (hsettled : d'.ledger.settled = d.ledger.settled) : d'.Synced := by
  obtain ⟨-, heq⟩ := Kernel.step_start hcall hkernel
  refine ⟨?_, fun hs ↦ ?_, fun c s hw ↦ absurd hw (hdrop c s)⟩
  · rw [hd', heq]
    exact (Function.update_self consumerThread call d.kernel.calls).symm ▸ hpc'
  · rw [hcallback, if_neg (by decide), Nat.add_zero, hd', heq, htaken]
    exact (h.idle hworker hpc).2 (hsettled ▸ hs)

theorem returns (h : d.Synced) (hconsuming : d.worker ≠ .consuming none)
    (hstoring : ∀ s, d.worker ≠ .storing s)
    (hkernel : d.kernel.step conv setup.kernel (.return consumerThread) = some kernel)
    (hpc' : pc.isPlain = true) : Synced { d with kernel := kernel, worker := pc } := by
  obtain ⟨-, hidle, hconsumptions, -⟩ := Kernel.step_return hkernel
  refine of_plain hpc' hidle fun hs ↦ ?_
  have hcount := h.count hs
  rw [atCallback_eq_false hconsuming hstoring, if_neg (by decide), Nat.add_zero] at hcount
  exact (congrArg List.length hconsumptions).trans hcount

theorem callsKernel (h : d.Synced) (hpc : d.worker = pc) {a : KernelAction}
    (hcalls : d.CallsKernel pc a pc')
    (hkernel : d.kernel.step conv setup.kernel a = some kernel) :
    Synced { d with kernel := kernel, worker := pc' } := by
  cases hcalls with
  | retireRegistration | quiescent | notQuiescent | drained | notDrained | discarding =>
    exact h.returns (by rw [hpc]; rintro ⟨⟩) (by rw [hpc]; rintro _ ⟨⟩) hkernel rfl
  | isQuiescent =>
    exact h.starts hpc rfl (.quiescent _) hkernel ⟨_, rfl⟩ (by rintro _ _ ⟨⟩) rfl rfl rfl rfl
  | discardRecord =>
    exact h.starts hpc rfl (.consume true) hkernel ⟨_, rfl⟩ (by rintro _ _ ⟨⟩) rfl rfl rfl rfl
  | consume =>
    have hentry := Kernel.Entry.consume (m := d.kernel.memory) true
    obtain ⟨-, heq⟩ := Kernel.step_start hentry hkernel
    have hself : kernel.calls consumerThread = .consume ⟨true,
        if d.kernel.memory.claimActive then .done .pending else .scan 0 false⟩ := by
      rw [heq]
      exact Function.update_self consumerThread _ d.kernel.calls
    refine h.starts hpc rfl hentry hkernel ?_ (by rintro _ _ ⟨⟩) ?_ rfl rfl rfl
    · refine ⟨_, rfl, ?_⟩
      split
      · change ConsumeStatus.pending ≠ .record
        decide
      · exact trivial
    · rw [Bool.eq_false_iff, Ne, atCallback_consuming rfl hself]
      split <;> exact id
  | @consuming stored hasConsumer consumed hcall =>
    obtain ⟨-, hidle, hconsumptions, -⟩ := Kernel.step_return hkernel
    have hworker := h.call
    rw [hcall, hpc] at hworker
    have hcallback : d.atCallback = false := by
      cases stored with
      | none =>
        rw [Bool.eq_false_iff, Ne, atCallback_consuming hpc hcall]
        exact id
      | some taken => exact atCallback_eq_false (by rw [hpc]; rintro ⟨⟩) (by rw [hpc]; rintro _ ⟨⟩)
    refine ⟨hidle, fun hsettled ↦ ?_, fun c s heq ↦ ?_⟩
    · have hcount := h.count hsettled
      rw [hcallback] at hcount
      rw [atCallback_eq_false (by rintro ⟨⟩) (by rintro _ ⟨⟩), ← hcount]
      exact congrArg List.length hconsumptions
    · cases heq
      cases stored with
      | none =>
        obtain ⟨pc', heq, hupcoming⟩ := hworker
        cases heq
        exact ⟨fun heq ↦ absurd heq hupcoming, by rintro ⟨⟩⟩
      | some taken =>
        obtain ⟨pc', heq, hpast⟩ := hworker
        cases heq
        exact ⟨fun _ ↦ rfl, fun _ ↦ hpast⟩

theorem usesRoute (h : d.Synced) (hpc : d.worker = pc) {route : RuntimeRoute}
    (huses : d.UsesRoute conv route pc pc') : Synced ((d.setRoute route).goto pc') := by
  cases huses with
  | @encode hasConsumer claim view hcall =>
    have hcallback : d.atCallback = true := (atCallback_consuming hpc hcall).mpr trivial
    have hworker := h.call
    rw [hcall, hpc] at hworker
    obtain ⟨pc', heq, -⟩ := hworker
    cases heq
    refine ⟨⟨claim, view, hcall, rfl⟩, fun hsettled ↦ ?_, by rintro _ _ ⟨⟩⟩
    have hcount := h.count hsettled
    rw [hcallback] at hcount
    exact hcount
  | _ => exact h.goes hpc rfl rfl ⟨rfl, rfl⟩ rfl id

/-- The callback hands on the next Record, the one that was accepted with its sequence. -/
theorem handsOver (h : d.Synced) (hinv : d.kernel.Inv conv setup.kernel)
    (hover : d.kernel.HandsOver) (hstage : d.StageOk d.worker.stage) {hasConsumer : Bool}
    {claim : ConsumptionClaim} {view : RecordView} (hpc : d.worker = .consuming none)
    (hcall : d.kernel.calls consumerThread = .consume ⟨hasConsumer, .callback claim view⟩) :
    claim.envelope.admissionSequence = d.taken ∧
      ∃ (a : Admission) (r : PublishedRecord conv),
        d.kernel.admissions[claim.envelope.admissionSequence]? = some a ∧
          a.Contains conv setup.kernel r.content ∧ r.limit = setup.kernel.maximumRecordBytes ∧
          view = r.view := by
  have hcallback : d.atCallback = true := (atCallback_consuming hpc hcall).mpr trivial
  have hworker := h.call
  rw [hpc] at hstage
  rw [hcall, hpc] at hworker
  obtain ⟨_, heq, -⟩ := hworker
  cases heq
  refine ⟨?_, hover.published hinv hcall rfl rfl⟩
  have hcount := h.count hstage.2.1
  rw [hcallback, if_pos rfl, hover.sequence hinv hcall rfl] at hcount
  omega

theorem worker_step (h : d.Synced) (hinv : d.kernel.Inv conv setup.kernel) (hpc : d.worker = pc)
    (hmove : d.WorkerMove conv setup pc d') : d'.Synced := by
  cases hmove with
  | reads hreads => exact h.goes hpc hreads.plain.1 hreads.plain.2 ⟨rfl, rfl⟩ rfl id
  | callsKernel hcalls hkernel => exact h.callsKernel hpc hcalls hkernel
  | usesRoute huses => exact h.usesRoute hpc huses
  | completes hcompletes =>
    cases hcompletes <;> exact h.goes hpc rfl rfl ⟨rfl, rfl⟩ rfl id
  | prepare _ hkernel =>
    exact h.goes hpc rfl rfl (hinv.step_other hkernel (by rintro ⟨⟩)) rfl id
  | resetRegistration hkernel =>
    exact h.starts hpc rfl (.retire ..) hkernel ⟨_, rfl⟩ (by rintro _ _ ⟨⟩) rfl rfl rfl rfl
  | settle => exact h.goes hpc rfl rfl ⟨rfl, rfl⟩ rfl (by rintro ⟨⟩)
  | store =>
    have hworker := h.call
    rw [hpc] at hworker
    obtain ⟨claim, view, hcall, -⟩ := hworker
    refine ⟨⟨_, hcall, trivial⟩, fun hsettled ↦ ?_, by rintro _ _ ⟨⟩⟩
    have hcount := h.count hsettled
    rw [atCallback, hpc, if_pos rfl] at hcount
    rw [atCallback_eq_false (by rintro ⟨⟩) (by rintro _ ⟨⟩)]
    exact hcount
  | recordRetirement =>
    refine h.goes hpc rfl ?_ ⟨rfl, rfl⟩ rfl (by rw [settled_retire]; exact id)
    dsimp only
    split <;> rfl
  | recordProcessed =>
    refine h.goes hpc rfl ?_ ⟨rfl, rfl⟩ rfl (by rw [settled_process]; exact id)
    dsimp only
    split <;> rfl
  | noneReady | noneActive | finish =>
    refine h.goes hpc rfl ?_ ⟨rfl, rfl⟩ rfl id
    dsimp only [goto]
    split <;> rfl
  | _ => exact h.goes hpc rfl rfl ⟨rfl, rfl⟩ rfl id

theorem of_reach (h : (machine conv setup).Reach ok d) : d.Synced := by
  refine Machine.Reach.invariant_of_reach (I := Synced) h
    ⟨rfl, fun _ ↦ rfl, by rintro _ _ ⟨⟩⟩ fun d action d' hd hs _ hstep ↦ ?_
  have hinv : d.kernel.Inv conv setup.kernel := .of_reach (kernel_reachable hd)
  -- callers have threads of their own
  have hother : ∀ {t : ℕ} {a : KernelAction} {kernel : Kernel}, d.callers t ≠ .idle →
      a.thread = some t → d.kernel.step conv setup.kernel a = some kernel →
      kernel.calls consumerThread = d.kernel.calls consumerThread ∧
        kernel.consumptions = d.kernel.consumptions := by
    intro t a kernel hpc ha hkernel
    refine hinv.step_other hkernel ?_
    rw [ha, Ne, Option.some_inj]
    exact Nat.ne_of_gt (Nat.zero_lt_of_lt (workerThread_lt hd t hpc))
  cases Move.of_step hstep with
  | worker hpc hworker => exact hs.worker_step hinv hpc hworker
  | caller hpc hcaller =>
    cases hcaller with
    | close _ _ hkernel => exact hs.others rfl (hinv.step_other hkernel (by rintro ⟨⟩)) rfl rfl
    | registerProducer _ hkernel | resetRegistration hkernel | retireRegistration hkernel
    | registered hkernel | noPlace hkernel | dropRegistration hkernel
    | droppingRegistration hkernel =>
      exact hs.others rfl (hother (by rw [hpc]; rintro ⟨⟩) rfl hkernel) rfl rfl
    | _ => exact hs.others rfl ⟨rfl, rfl⟩ rfl rfl
  | closeAdmission _ hkernel =>
    exact hs.others rfl (hinv.step_other hkernel (by rintro ⟨⟩)) rfl rfl
  | kernel hpermits hkernel => exact hs.kernelMoves hinv (.of_reach hd) hpermits hkernel
  | _ => exact hs.others rfl ⟨rfl, rfl⟩ rfl rfl

end Synced

/-- With every route the callback is handed the accepted Records in order, and it reads what was
built. -/
theorem callback_in_order (h : (machine conv setup).Reach ok d) (hpc : d.worker = .consuming none)
    {hasConsumer : Bool} {claim : ConsumptionClaim} {view : RecordView}
    (hcall : d.kernel.calls consumerThread = .consume ⟨hasConsumer, .callback claim view⟩) :
    claim.envelope.admissionSequence = d.taken ∧ ∃ a c,
      d.kernel.admissions[d.taken]? = some a ∧ a.Contains conv setup.kernel c ∧ view.Reads c := by
  have hkernel := kernel_reachable h
  obtain ⟨hnext, a, r, ha, hcontains, -, rfl⟩ :=
    (Synced.of_reach h).handsOver (.of_reach hkernel) (.of_reach hkernel) (.of_reach h) hpc hcall
  exact ⟨hnext, a, r.content, hnext ▸ ha, hcontains, r.reads⟩

theorem callback_in_order_first : ∃ d a c,
    oneBuffer.Reachable d ∧ d.atCallback = true ∧ d.kernel.admissions[0]? = some a ∧
      a.Contains .blank RuntimeSetup.oneBuffer.kernel c := by
  have hrun : oneBuffer.run (fun _ _ ↦ True) oneBuffer.init
      (List.flatten [[.getLogger 2 false, .caller 2], (advances 2 4).map .kernel,
        [.caller 2, .kernel (.publish 2 0 1 .info ⟨[], [], 0, 0⟩ true)],
        (advances 2 25).map .kernel, [.route (.file .opened)], List.replicate 8 .worker,
        (advances 0 3).map .kernel]) = some _ := rfl
  have hreach := Machine.Reach.of_run .init hrun
  obtain ⟨-, a, c, ha, hcontains, -⟩ := callback_in_order hreach rfl rfl
  exact ⟨_, a, c, hreach, rfl, ha, hcontains⟩

end RuntimeDomain

end Ulog
