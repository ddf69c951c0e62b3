import Ulog.Foundation.Queue
import Ulog.Producer.Consuming

/-!
# The kernel is a queue

The queue is the list of admissions, in the order of their sequences; the consumer pops it. Every
step of the kernel pushes, pops, or does neither, so the kernel refines `Queue.machine`. What the
callback sees is what the popped admission built, and every admission belongs to one publication:
one that is about to return its sequence, or one that has returned it.
-/

namespace Ulog

variable {conv : Charconv} {config : ValidConfig} {k k' : Kernel} {m m' : KernelMemory} {t : ℕ}
  {action : KernelAction}

/-- What the calls of an admission build. -/
def Admission.Contains (conv : Charconv) (config : ValidConfig) (a : Admission)
    (c : RecordContent) : Prop :=
  ∃ r : PublishedRecord conv, r.slot = a.initial ∧ r.limit = config.maximumRecordBytes ∧
    r.level = a.level ∧ r.source = a.source ∧ r.timestamp = a.timestamp ∧ r.calls = a.calls ∧
    r.content = c

theorem Admission.Builds.exists_published {a : Admission} {slot : RecordSlot}
    {record : StoredRecord} (h : a.Builds conv config slot record) :
    ∃ r : PublishedRecord conv, a.Contains conv config r.content ∧
      r.limit = config.maximumRecordBytes ∧ r.calls = a.calls ∧
      r.view = ⟨slot.storage, record.serializedBytes, record.accountingChargeBytes⟩ := by
  obtain ⟨started, finished, hbegin, hpublish, rfl⟩ := h
  let r : PublishedRecord conv :=
    { slot := a.initial, limit := config.maximumRecordBytes, level := a.level, source := a.source
      timestamp := a.timestamp, calls := a.calls, started, finished, record, begin_eq := hbegin
      publish_eq := hpublish }
  exact ⟨r, ⟨r, rfl, rfl, rfl, rfl, rfl, rfl, rfl⟩, rfl, rfl, rfl⟩

/-! ## Every admission has its publication -/

section Carrying

variable {f f' : PublishFrame} {choice : StepChoice}

theorem PublishFrame.Carries.unique {s s' : ℕ} (hs : f.Carries s) (hs' : f.Carries s') :
    s = s' := by
  rw [Carries.eq_def] at hs hs'
  cases hpc : f.pc with
  | writeEnvelope | publishPosition | clear =>
    rw [hpc] at hs hs'
    exact hs.symm.trans hs'
  | done result =>
    rw [hpc] at hs hs'
    exact Option.some.inj (hs.symm.trans hs')
  | _ =>
    rw [hpc] at hs
    exact hs.elim

/-- A call keeps its sequence until it returns it. -/
theorem PublishFrame.Carries.publishStep {s : ℕ} (hs : f.Carries s)
    (hstep : publishStep conv config m f choice = some (m', f')) :
    f'.Carries s ∧ f'.admission = f.admission := by
  rw [Carries.eq_def] at hs
  cases hpc : f.pc with
  | writeEnvelope | publishPosition =>
    rw [Ulog.publishStep, hpc] at hstep
    rw [hpc] at hs
    cases hstep
    exact ⟨hs, rfl⟩
  | clear =>
    rw [Ulog.publishStep, hpc] at hstep
    rw [hpc] at hs
    cases hstep
    exact ⟨congrArg some hs, rfl⟩
  | done result =>
    rw [Ulog.publishStep, hpc] at hstep
    cases hstep
  | _ =>
    rw [hpc] at hs
    exact hs.elim

theorem carries_of_fetch (hpc : f.pc = .fetchSequence)
    (hstep : publishStep conv config m f choice = some (m', f'))
    (hnext : m'.nextAdmissionSequence ≠ m.nextAdmissionSequence) :
    f'.Carries m.nextAdmissionSequence ∧ f'.admission = f.admission ∧
      m'.nextAdmissionSequence = m.nextAdmissionSequence + 1 := by
  rw [publishStep, hpc] at hstep
  simp only at hstep
  split_ifs at hstep
  · cases hstep
    exact ⟨rfl, rfl, rfl⟩
  · cases hstep
    exact absurd rfl hnext

end Carrying

namespace Kernel

/-- Every admission is carried by a call or has been returned. -/
def Accounted (k : Kernel) : Prop :=
  ∀ s a, k.admissions[s]? = some a →
    (s, a) ∈ k.returned ∨ ∃ t f, k.calls t = .publish f ∧ f.Carries s ∧ f.admission = a

theorem Accounted.update (h : k.Accounted) {call : KernelCall}
    {returned' : List (ℕ × Admission)} (hreturned : k.returned <+: returned')
    (hcall : ∀ f s, k.calls t = .publish f → f.Carries s →
      (s, f.admission) ∈ returned' ∨
        ∃ f', call = .publish f' ∧ f'.Carries s ∧ f'.admission = f.admission)
    (m' : KernelMemory) (consumptions' : List Consumption) :
    Accounted ⟨m', Function.update k.calls t call, k.admissions, consumptions', returned'⟩ := by
  intro s a hs
  rcases h s a hs with hret | ⟨t', f, hf, hcarries, rfl⟩
  · exact .inl (hreturned.subset hret)
  · by_cases ht : t' = t
    · subst ht
      refine (hcall f s hf hcarries).imp_right ?_
      rintro ⟨f', rfl, hrest⟩
      exact ⟨t', f', Function.update_self .., hrest⟩
    · exact .inr ⟨t', f, (Function.update_of_ne ht ..).trans hf, hcarries, rfl⟩

theorem Accounted.publish (h : k.Accounted) (hinv : k.Inv conv config) {f f' : PublishFrame}
    {choice : StepChoice} (hf : k.calls t = .publish f)
    (hstep : publishStep conv config k.memory f choice = some (m', f')) :
    (k.afterPublish t f m' f').Accounted := by
  have hold : Accounted ⟨m', Function.update k.calls t (.publish f'), k.admissions,
      k.consumptions, k.returned⟩ := by
    refine h.update (List.prefix_refl _) (fun g s hg hs ↦ .inr ⟨f', rfl, ?_⟩) _ _
    cases hf.symm.trans hg
    exact hs.publishStep hstep
  obtain ⟨admissions', e⟩ := hinv.stepEffect hf hstep
  rw [afterPublish]
  by_cases hnext : m'.nextAdmissionSequence = k.memory.nextAdmissionSequence
  · rw [if_pos hnext]
    exact hold
  · rw [if_neg hnext]
    intro s a hs
    by_cases hlt : s < k.admissions.length
    · exact hold s a ((List.getElem?_append_left hlt).symm.trans hs)
    · obtain ⟨hcarries, hadmission, -⟩ :=
        carries_of_fetch (e.fetched.resolve_left hnext) hstep hnext
      have hs' : s = k.memory.nextAdmissionSequence ∧ f.admission = a := by
        have hbound := (List.getElem?_eq_some_iff.mp hs).1
        rw [List.length_append, List.length_singleton] at hbound
        have heq : s = k.admissions.length := by omega
        subst heq
        refine ⟨hinv.admissions, ?_⟩
        simpa using hs
      obtain ⟨rfl, rfl⟩ := hs'
      exact .inr ⟨t, f', Function.update_self .., hcarries, hadmission⟩

theorem Accounted.other (h : k.Accounted) {call : KernelCall}
    (hcall : ∀ f, k.calls t ≠ .publish f) (m' : KernelMemory) (consumptions' : List Consumption) :
    Accounted ⟨m', Function.update k.calls t call, k.admissions, consumptions', k.returned⟩ :=
  h.update (List.prefix_refl _) (fun f _ hf ↦ absurd hf (hcall f)) m' consumptions'

theorem Accounted.step (h : k.Accounted) (hinv : k.Inv conv config)
    (hstep : k.step conv config action = some k') : k'.Accounted := by
  cases Move.of_step hstep with
  | enter hidle => exact h.other (fun f hf ↦ nomatch hidle.symm.trans hf) _ _
  | closeAdmission => exact h
  | publish hf hcall => exact h.publish hinv hf hcall
  | consume hf | retire hf | quiescent hf | register hf =>
    exact h.other (fun f hf' ↦ nomatch hf.symm.trans hf') _ _
  | @returnPublish _ f _ hf hpc =>
    rcases returned_cases hpc with ⟨hnone, hcarries⟩ | ⟨s, hs, hsome⟩
    · rw [hnone, List.append_nil]
      refine h.update (List.prefix_refl _) (fun g s hg hs ↦ ?_) _ _
      cases hf.symm.trans hg
      exact absurd hs (hcarries s)
    · rw [hsome]
      refine h.update (List.prefix_append ..) (fun g s' hg hcarries ↦ .inl ?_) _ _
      cases hf.symm.trans hg
      rw [hcarries.unique hs]
      exact List.mem_append_right _ (List.mem_singleton_self _)
  | «return» hcall => exact h.other hcall _ _

end Kernel

/-! ## The queue -/

namespace Kernel

/-- The state of the abstract queue. -/
def queue (k : Kernel) : Queue.State Admission :=
  .ofHistory k.admissions k.consumptions.length

theorem Inv.consumptions_le (h : k.Inv conv config) :
    k.consumptions.length ≤ k.admissions.length := by
  rcases Nat.eq_zero_or_pos k.consumptions.length with hzero | hpos
  · exact hzero.trans_le (Nat.zero_le _)
  · -- the last consumption has an admission
    have hlast : k.consumptions.length - 1 ∈ k.consumptions.map (·.sequence) := by
      rw [h.order]
      exact List.mem_range.mpr (Nat.sub_lt hpos Nat.one_pos)
    obtain ⟨c, hc, hsequence⟩ := List.mem_map.mp hlast
    obtain ⟨a, -, -, ha, -⟩ := h.consumptions c hc
    have hlt := (List.getElem?_eq_some_iff.mp ha).1
    omega

theorem admissions_grow (hstep : k.step conv config action = some k') :
    k.admissions <+: k'.admissions := by
  cases Move.of_step hstep with
  | publish =>
    rw [afterPublish]
    dsimp only
    split
    · exact List.prefix_rfl
    · exact List.prefix_append ..
  | _ => exact List.prefix_rfl

/-- What a step of the kernel does to the queue. -/
inductive QueueMove (k k' : Kernel) : Prop
  | stutter (hqueue : k'.queue = k.queue) (hadmissions : k'.admissions = k.admissions)
      (hconsumptions : k'.consumptions = k.consumptions)
  | push {t : ℕ} {f : PublishFrame} (hf : k.calls t = .publish f) (hpc : f.pc = .fetchSequence)
      (hsequence : k'.memory.nextAdmissionSequence = k.memory.nextAdmissionSequence + 1)
      (hconsumptions : k'.consumptions = k.consumptions)
      (hqueue : (Queue.machine Admission).step k.queue (.push f.admission) = some k'.queue)
  | pop {c : Consumption} (hsequence : c.sequence = k.queue.popped.length)
      (hadmissions : k'.admissions = k.admissions)
      (hconsumptions : k'.consumptions = k.consumptions ++ [c])
      (hqueue : (Queue.machine Admission).step k.queue .pop = some k'.queue)

theorem Inv.length_popped (h : k.Inv conv config) :
    k.queue.popped.length = k.consumptions.length :=
  List.length_take_of_le h.consumptions_le

theorem consumption_cases (f : ConsumeFrame) (pc : ConsumePc) :
    consumption f pc = [] ∨ ∃ c, consumption f pc = [c] := by
  unfold consumption
  split
  · exact .inr ⟨_, rfl⟩
  · split
    · exact .inr ⟨_, rfl⟩
    · exact .inl rfl
  · split
    · exact .inr ⟨_, rfl⟩
    · exact .inl rfl
  · exact .inl rfl

/-- The kernel simulates the queue. -/
theorem queueMove_of_step (h : k.Inv conv config) (hstep : k.step conv config action = some k') :
    k.QueueMove k' := by
  have h' : k'.Inv conv config := h.step hstep
  cases Move.of_step hstep with
  | @publish t f f' _ m' hf hcall =>
    by_cases hnext : m'.nextAdmissionSequence = k.memory.nextAdmissionSequence
    · have hadmissions : (k.afterPublish t f m' f').admissions = k.admissions := if_pos hnext
      exact .stutter (by rw [queue, hadmissions]; rfl) hadmissions rfl
    · have hadmissions : (k.afterPublish t f m' f').admissions = k.admissions ++ [f.admission] :=
        if_neg hnext
      obtain ⟨_, e⟩ := h.stepEffect hf hcall
      have hpc := e.fetched.resolve_left hnext
      refine .push hf hpc (carries_of_fetch hpc hcall hnext).2.2 rfl ?_
      rw [queue, queue, hadmissions]
      exact Queue.step_push h.consumptions_le f.admission
  | @consume t f _ m' pc' =>
    rcases consumption_cases f pc' with hnone | ⟨c, hc⟩
    · have hconsumptions : (k.afterConsume t f m' pc').consumptions = k.consumptions :=
        (congrArg (k.consumptions ++ ·) hnone).trans (List.append_nil _)
      exact .stutter (by rw [queue, hconsumptions]; rfl) rfl hconsumptions
    · have hconsumptions : (k.afterConsume t f m' pc').consumptions = k.consumptions ++ [c] :=
        congrArg (k.consumptions ++ ·) hc
      have horder := h'.order
      have hle := h'.consumptions_le
      rw [hconsumptions, List.length_append, List.length_singleton] at horder hle
      rw [List.map_append, h.order, List.range_succ] at horder
      refine .pop ?_ rfl hconsumptions ?_
      · rw [h.length_popped]
        exact List.singleton_inj.mp (List.append_cancel_left horder)
      · rw [queue, queue, hconsumptions, List.length_append]
        exact Queue.step_pop hle
  | _ => exact .stutter rfl rfl rfl

/-- What it means that the kernel is a queue of Records. -/
structure Fifo (conv : Charconv) (config : ValidConfig) (k : Kernel) : Prop where
  /-- the queue starts empty -/
  initial : (init config).queue = (Queue.machine Admission).init
  /-- every step pushes the Record whose sequence it fetches, pops the next one, or does neither -/
  simulates : ∀ action k', k.step conv config action = some k' → k.QueueMove k'
  /-- what was pushed is what has a sequence, and what was popped is what was consumed -/
  counts : k.admissions.length = k.memory.nextAdmissionSequence ∧
    k.queue.popped.length = k.consumptions.length
  /-- the consumer sees the sequences in order -/
  order : k.consumptions.map (·.sequence) = List.range k.consumptions.length
  /-- the callback sees the Record of its sequence -/
  views : ∀ c ∈ k.consumptions, c.hasConsumer → ∃ a view content,
    k.admissions[c.sequence]? = some a ∧ c.view = some view ∧ a.Contains conv config content ∧
    view.Reads content ∧ content.message <+: RecordBuild.appendedBytes conv a.calls ∧
    (content.message = RecordBuild.appendedBytes conv a.calls ↔ content.truncated = false)
  /-- a publication that was returned a sequence is its admission -/
  returned : ∀ x ∈ k.returned, k.admissions[x.1]? = some x.2
  /-- no sequence is returned twice -/
  once : (k.returned.map (·.1)).Nodup
  /-- every admission is one publication that has returned, or one that is going to -/
  origin : ∀ s a, k.admissions[s]? = some a → (s, a) ∈ k.returned ∨
    ∃ t f, k.calls t = .publish f ∧ f.Carries s ∧ f.admission = a
  /-- nobody writes the storage under the callback -/
  stable : ∀ f claim view, k.calls consumerThread = .consume f → f.pc = .callback claim view →
    (k.memory.cells claim.cell).slot.storage = view.storage
  /-- no validation fails -/
  validates : ∀ f claim, k.calls consumerThread = .consume f → f.pc = .validate claim →
    claim.validates config k.memory

/-- The kernel is a queue of Records, in every run. -/
theorem fifo (conv : Charconv) (config : ValidConfig) {k : Kernel}
    (h : (machine conv config).Reachable k) : k.Fifo conv config := by
  have hinv : k.Inv conv config := .of_reach h
  have haccounted : k.Inv conv config ∧ k.Accounted := by
    refine Machine.Reachable.invariant (I := fun k ↦ k.Inv conv config ∧ k.Accounted) h
      ⟨inv_init, fun s a hs ↦ ?_⟩ fun k action k' hk hstep ↦
        ⟨hk.1.step hstep, hk.2.step hk.1 hstep⟩
    cases hs
  refine { initial := rfl, simulates := fun _ _ ↦ queueMove_of_step hinv,
           counts := ⟨hinv.admissions, hinv.length_popped⟩, order := hinv.order,
           views := fun c hc hconsumer ↦ ?_, returned := fun x hx ↦ (hinv.returned x hx).1,
           once := hinv.returnedOnce, origin := haccounted.2,
           stable := fun f claim view hf hpc ↦ ?_,
           validates := fun f claim hf hpc ↦ (hinv.validates hf hpc).1 }
  · obtain ⟨a, slot, record, ha, hbuilds, hview⟩ := hinv.consumptions c hc
    obtain ⟨r, hcontains, -, hcalls, hr⟩ := hbuilds.exists_published
    obtain ⟨hreads, hmessage, htruncated, -⟩ := r.reads_message
    rw [hcalls] at hmessage htruncated
    rw [hr] at hreads
    exact ⟨a, _, _, ha, hview hconsumer, hcontains, hreads, hmessage, htruncated⟩
  · have hok := (hinv.consumer _ f hf).2
    rw [ConsumeFrame.Ok, hpc] at hok
    rw [hok.2.2]
    rfl

/-- Two producers publish at the same time: the first to start is the second to get a sequence and
the first to return. The consumer sees the Records in the order of their sequences. -/
theorem fifo_two_producers :
    ∃ k, (machine .blank .twoLanes).Reachable k ∧
      k.returned.map (·.1) = [1, 0] ∧ k.admissions.map (·.level) = [.error, .info] ∧
      k.consumptions.map (fun c ↦ (c.sequence, c.hasConsumer)) = [(0, true), (1, true)] ∧
      k.Fifo .blank .twoLanes := by
  obtain ⟨k, hreach, htest⟩ := Machine.Reach.exists_of_run
    (machine .blank .twoLanes) (fun _ _ ↦ True)
    (fun k ↦ decide (k.returned.map (·.1) = [1, 0] ∧ k.admissions.map (·.level) = [.error, .info] ∧
      k.consumptions.map (fun c ↦ (c.sequence, c.hasConsumer)) = [(0, true), (1, true)]))
    (List.flatten [[.register 1], advances 1 4, [.return 1, .register 2], advances 2 5,
      [.return 2, .publish 1 0 1 .info ⟨[0x61], [0x62], 7, 9⟩ true], advances 1 15,
      [.advance 1 { build := .call (.append (.text [0x68])) },
        .publish 2 1 1 .error ⟨[0x63], [], 3, 1⟩ true], advances 2 15,
      [.advance 2 { build := .call (.append (.text [0x69])) }], advances 2 7,
      advances 1 10, [.return 1], advances 2 3, [.return 2, .consume true],
      advances consumerThread 14, [.return consumerThread, .consume true],
      advances consumerThread 3])
    (by decide +kernel)
  obtain ⟨hreturned, hadmissions, hconsumptions⟩ := of_decide_eq_true htest
  exact ⟨k, hreach, hreturned, hadmissions, hconsumptions, fifo _ _ hreach⟩

end Kernel

end Ulog
