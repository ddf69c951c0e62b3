import Ulog.Producer.Fifo

/-!
# Closed admission and quiescence

A publication loads the admission flag after it has claimed its lane. Once admission is closed, a
lane whose flag is found clear has no publication left that can still get a sequence: such a
publication would hold the flag. `IsQuiescent` makes this test lane by lane, and what it finds stays
true, because admission never opens again. When it has gone through all lanes, no sequence is
allocated any more.
-/

namespace Ulog

variable {conv : Charconv} {config : ValidConfig} {m m' : KernelMemory} {f f' : PublishFrame}
  {choice : StepChoice} {k k' : Kernel} {action : KernelAction} {t : ℕ} {p : ℕ} {pc : DrainPc}

/-! ## Publications that have seen admission open -/

/-- Admission was open when the call looked, and it has not published its position yet. -/
def PublishPc.Admitting : PublishPc → Prop
  | .recheckState | .recheckGeneration | .reserve _ | .begin | .building | .publishRecord
  | .commit | .finishCommit | .storeRecord | .emplace | .finishEmplace | .fetchSequence
  | .writeEnvelope | .publishPosition => True
  | _ => False

theorem PublishPc.Admitting.holds {pc : PublishPc} (h : pc.Admitting) : pc.Holds := by
  cases pc <;> trivial

/-- A call gets past the admission check only while admission is open. -/
theorem admitting_publishStep (hstep : publishStep conv config m f choice = some (m', f'))
    (hadmitting : f'.pc.Admitting) : f.pc.Admitting ∨ m.admissionOpen = true := by
  cases hpc : f.pc with
  | activeState | activeGeneration | testAndSet | loadPositions =>
    rw [publishStep, hpc] at hstep
    simp only at hstep
    split at hstep <;> cases hstep <;> exact hadmitting.elim
  | clearFull | clear =>
    rw [publishStep, hpc] at hstep
    cases hstep
    exact hadmitting.elim
  | admission =>
    rw [publishStep, hpc] at hstep
    simp only at hstep
    split at hstep
    · next hopen => exact .inr hopen
    · cases hstep
      exact hadmitting.elim
  | unwind stages outcome =>
    rw [publishStep.eq_def, hpc] at hstep
    cases stages <;> cases hstep <;> exact hadmitting.elim
  | done result =>
    rw [publishStep, hpc] at hstep
    cases hstep
  | _ => exact .inl trivial

namespace Kernel

/-- Admission never opens again. -/
theorem admissionOpen_step (hstep : k.step conv config action = some k')
    (hclosed : k.memory.admissionOpen = false) : k'.memory.admissionOpen = false := by
  have hcontrol : ∀ {m'}, ControlEffect k.memory m' → m'.admissionOpen = false :=
    fun h ↦ h.uncounted.admissionOpen.trans hclosed
  cases Move.of_step hstep with
  | enter | returnPublish | «return» => exact hclosed
  | closeAdmission => rfl
  | publish _ hcall => exact (publishStep_unconsumed hcall).admissionOpen.trans hclosed
  | consume _ hcall => exact (consumeStep_uncounted hcall).admissionOpen.trans hclosed
  | retire _ hcall => exact hcontrol (.of_retireProducerStep hcall)
  | quiescent _ hcall => exact hcontrol (.of_quiescentStep hcall)
  | register _ hcall => exact hcontrol (.of_registerStep hcall)

/-! ## Quiescence -/

/-- No publication on the lane has seen admission open and is still about to publish. -/
def Sealed (k : Kernel) (p : ℕ) : Prop :=
  ∀ t f, k.calls t = .publish f → f.slot = p → ¬f.pc.Admitting

/-- Everything that was published on the lane has been read. -/
def Emptied (k : Kernel) (p : ℕ) : Prop :=
  (k.memory.lanes p).publishedPosition = (k.memory.lanes p).readPosition

/-- Admission is closed, and no lane has anything left. -/
structure Settled (config : ValidConfig) (k : Kernel) : Prop where
  closed : k.memory.admissionOpen = false
  lanes : ∀ p < config.producerSlots, k.Sealed p ∧ k.Emptied p

theorem Inv.sealed_of_clear (h : k.Inv conv config)
    (hclear : (k.memory.lanes p).publishing = false) :
    k.Sealed p := by
  rintro t f hf rfl hadmitting
  cases hclear.symm.trans (h.holds t f hf hadmitting.holds)

/-- With admission closed, a step leaves a sealed lane sealed and its published position where it
is; the reader stays behind it. -/
theorem Sealed.step (h : k.Sealed p) (hinv : k.Inv conv config)
    (hclosed : k.memory.admissionOpen = false) (hstep : k.step conv config action = some k') :
    k'.Sealed p ∧
      (k'.memory.lanes p).publishedPosition = (k.memory.lanes p).publishedPosition ∧
      (k.memory.lanes p).readPosition ≤ (k'.memory.lanes p).readPosition := by
  have hother : ∀ {t : ℕ} {call : KernelCall} {m' : KernelMemory} {consumptions' returned'},
      (∀ f, call = .publish f → ¬f.pc.Admitting) →
      Sealed ⟨m', Function.update k.calls t call, k.admissions, consumptions', returned'⟩ p := by
    intro t call m' _ _ hcall t' f hf hslot
    rcases update_eq_cases hf with ⟨-, heq⟩ | ⟨-, hf⟩
    · exact hcall f heq.symm
    · exact h t' f hf hslot
  have hsame : ∀ {m' : KernelMemory}, ControlEffect k.memory m' →
      (m'.lanes p).publishedPosition = (k.memory.lanes p).publishedPosition ∧
        (k.memory.lanes p).readPosition ≤ (m'.lanes p).readPosition := by
    intro m' hm
    rw [hm.sameIngress.lanes]
    exact ⟨rfl, le_rfl⟩
  cases Move.of_step hstep with
  | enter hidle hcall =>
    refine ⟨hother fun f hf ↦ ?_, hsame (.refl _)⟩
    cases hcall <;> cases hf
    exact id
  | closeAdmission => exact ⟨h, rfl, le_rfl⟩
  | @publish t f f' _ m' hf hcall =>
    obtain ⟨_, e⟩ := hinv.stepEffect hf hcall
    refine ⟨?_, ?_, (e.read_eq p).symm.le⟩
    · intro t' g hg hslot hadmitting
      rcases update_eq_cases hg with ⟨-, heq⟩ | ⟨-, hg⟩
      · cases heq
        rcases admitting_publishStep hcall hadmitting with hold | hopen
        · exact h t f hf (e.slot.symm.trans hslot) hold
        · cases hclosed.symm.trans hopen
      · exact h t' g hg hslot hadmitting
    · by_cases hp : p = f.slot
      · subst hp
        refine e.published.resolve_right fun hpublish ↦ h t f hf rfl ?_
        rw [hpublish.1]
        trivial
      · exact congrArg Lane.publishedPosition (e.lanes p hp)
  | consume hf hcall =>
    obtain ⟨rfl, -⟩ := hinv.consumer _ _ hf
    have e := hinv.consumeStep hf hcall
    exact ⟨hother (by rintro _ ⟨⟩), (e.lanes p).published, (e.lanes p).read⟩
  | retire _ hcall =>
    exact ⟨hother (by rintro _ ⟨⟩), hsame (.of_retireProducerStep hcall)⟩
  | quiescent _ hcall =>
    exact ⟨hother (by rintro _ ⟨⟩), hsame (.of_quiescentStep hcall)⟩
  | register _ hcall =>
    exact ⟨hother (by rintro _ ⟨⟩), hsame (.of_registerStep hcall)⟩
  | returnPublish | «return» => exact ⟨hother (by rintro _ ⟨⟩), hsame (.refl _)⟩

theorem Emptied.step (h : k.Emptied p) (hsealed : k.Sealed p) (hinv : k.Inv conv config)
    (hclosed : k.memory.admissionOpen = false) (hstep : k.step conv config action = some k') :
    k'.Emptied p := by
  obtain ⟨-, hpublished, hread⟩ := hsealed.step hinv hclosed hstep
  have hle := ((hinv.step hstep).lanes p).read
  rw [Emptied] at h ⊢
  omega

theorem Settled.step (h : k.Settled config) (hinv : k.Inv conv config)
    (hstep : k.step conv config action = some k') : k'.Settled config where
  closed := admissionOpen_step hstep h.closed
  lanes p hp :=
    ⟨((h.lanes p hp).1.step hinv h.closed hstep).1,
      (h.lanes p hp).2.step (h.lanes p hp).1 hinv h.closed hstep⟩

theorem Settled.accepted (h : k.Settled config) (hinv : k.Inv conv config)
    (hstep : k.step conv config action = some k') :
    k'.memory.nextAdmissionSequence = k.memory.nextAdmissionSequence := by
  have hsame : ∀ {m'}, ControlEffect k.memory m' →
      m'.nextAdmissionSequence = k.memory.nextAdmissionSequence :=
    fun h ↦ h.sameIngress.nextAdmissionSequence
  cases Move.of_step hstep with
  | enter | returnPublish | «return» | closeAdmission => rfl
  | @publish t f f' _ m' hf hcall =>
    have hok := hinv.frames t f hf
    obtain ⟨_, e⟩ := hinv.stepEffect hf hcall
    refine e.fetched.resolve_right fun hpc ↦ ?_
    rw [PublishFrame.Ok, hpc] at hok
    refine (h.lanes f.slot hok.1.slot).1 t f hf rfl ?_
    rw [hpc]
    trivial
  | consume hf hcall =>
    obtain ⟨rfl, -⟩ := hinv.consumer _ _ hf
    exact (hinv.consumeStep hf hcall).nextAdmission
  | retire _ hcall => exact hsame (.of_retireProducerStep hcall)
  | quiescent _ hcall => exact hsame (.of_quiescentStep hcall)
  | register _ hcall => exact hsame (.of_registerStep hcall)

/-- What a running `IsProducerDrained` has found out about the lane. -/
def DrainOk (k : Kernel) (p : ℕ) : DrainPc → Prop
  | .testPublishing => True
  | .loadPosition => k.Sealed p
  | .compare true position => k.Sealed p ∧ position ≤ (k.memory.lanes p).readPosition
  | .compare false position => k.Sealed p ∧ (k.memory.lanes p).publishedPosition = position

/-- What a running `IsQuiescent` has found out, if admission was closed when it started. -/
structure QuiescentOk (config : ValidConfig) (k : Kernel) (f : QuiescentFrame) : Prop where
  closed : k.memory.admissionOpen = false
  before : f.quiescent = true → ∀ p < f.slot, k.Sealed p ∧ k.Emptied p
  drained : ∀ pc, f.pc = .drained pc → f.quiescent = true ∧ k.DrainOk f.slot pc
  loadState : f.pc = .loadState → f.quiescent = true ∧ k.Sealed f.slot ∧ k.Emptied f.slot
  done : f.pc = .done → config.producerSlots ≤ f.slot

theorem DrainOk.step (h : k.DrainOk p pc) (hinv : k.Inv conv config)
    (hclosed : k.memory.admissionOpen = false) (hstep : k.step conv config action = some k') :
    k'.DrainOk p pc := by
  cases pc with
  | testPublishing => trivial
  | loadPosition => exact (Sealed.step h hinv hclosed hstep).1
  | compare loadedRead position =>
    cases loadedRead with
    | true =>
      obtain ⟨hsealed, -, hread⟩ := h.1.step hinv hclosed hstep
      exact ⟨hsealed, h.2.trans hread⟩
    | false =>
      obtain ⟨hsealed, hpublished, -⟩ := h.1.step hinv hclosed hstep
      exact ⟨hsealed, hpublished.trans h.2⟩

/-- What the call has found out stays true. -/
theorem QuiescentOk.step {f : QuiescentFrame} (h : k.QuiescentOk config f)
    (hinv : k.Inv conv config) (hstep : k.step conv config action = some k') :
    k'.QuiescentOk config f := by
  have hlane : ∀ p, k.Sealed p ∧ k.Emptied p → k'.Sealed p ∧ k'.Emptied p := fun p hp ↦
    ⟨(hp.1.step hinv h.closed hstep).1, hp.2.step hp.1 hinv h.closed hstep⟩
  exact
    { closed := admissionOpen_step hstep h.closed
      before := fun hq p hp ↦ hlane p (h.before hq p hp)
      drained := fun pc hpc ↦ (h.drained pc hpc).imp_right (·.step hinv h.closed hstep)
      loadState := fun hpc ↦ (h.loadState hpc).imp_right (hlane _)
      done := h.done }

theorem DrainOk.advance {pc' : DrainPc} (h : k.DrainOk p pc) (hinv : k.Inv conv config)
    (hdrain : drainStep k.memory p choice pc = .inl pc') : k.DrainOk p pc' := by
  cases pc with
  | testPublishing =>
    rw [drainStep] at hdrain
    split at hdrain
    · cases hdrain
    · next hclear =>
      cases hdrain
      exact hinv.sealed_of_clear (Bool.eq_false_iff.mpr hclear)
  | loadPosition =>
    rw [drainStep] at hdrain
    split at hdrain <;> cases hdrain
    · exact ⟨h, le_rfl⟩
    · exact ⟨h, rfl⟩
  | compare loadedRead position => cases hdrain

theorem DrainOk.emptied (h : k.DrainOk p pc) (hinv : k.Inv conv config)
    (hdrain : drainStep k.memory p choice pc = .inr true) : k.Sealed p ∧ k.Emptied p := by
  cases pc with
  | testPublishing =>
    rw [drainStep] at hdrain
    split at hdrain <;> cases hdrain
  | loadPosition => cases hdrain
  | compare loadedRead position =>
    have hequal := of_decide_eq_true (Sum.inr.inj hdrain)
    have hle := (hinv.lanes p).read
    cases loadedRead with
    | true =>
      obtain ⟨hsealed, hposition⟩ := h
      rw [if_pos rfl] at hequal
      refine ⟨hsealed, ?_⟩
      rw [Emptied]
      omega
    | false =>
      obtain ⟨hsealed, hpublished⟩ := h
      rw [if_neg (by decide)] at hequal
      exact ⟨hsealed, hpublished.trans hequal.symm⟩

end Kernel

theorem quiescentStep_closed {f f' : QuiescentFrame}
    (hstep : quiescentStep config m f choice = some (m', f')) : f'.closed = f.closed := by
  rw [quiescentStep] at hstep
  repeat' split at hstep
  all_goals cases hstep
  all_goals rfl

theorem QuiescentFrame.next_cases (config : ValidConfig) (f : QuiescentFrame) (quiescent : Bool) :
    (f.next config quiescent).slot = f.slot + 1 ∧
      (f.next config quiescent).quiescent = quiescent ∧
      (f.next config quiescent).closed = f.closed ∧
      ((∃ pc, (f.next config quiescent).pc = .finish pc) ∨
        (f.next config quiescent).pc = .done ∧ config.producerSlots ≤ f.slot + 1) := by
  refine ⟨rfl, rfl, rfl, ?_⟩
  rw [next, startRetirement]
  by_cases hlt : f.slot + 1 < config.producerSlots
  · rw [if_pos hlt]
    exact .inl ⟨_, rfl⟩
  · rw [if_neg hlt]
    exact .inr ⟨rfl, not_lt.mp hlt⟩

namespace Kernel

theorem QuiescentOk.next {f : QuiescentFrame} (h : k.QuiescentOk config f) (quiescent : Bool)
    (hslot : quiescent = true → f.quiescent = true ∧ k.Sealed f.slot ∧ k.Emptied f.slot) :
    k.QuiescentOk config (f.next config quiescent) := by
  obtain ⟨hnext, hquiescent, -, hpc⟩ := f.next_cases config quiescent
  have hfinish : ∀ pc, (f.next config quiescent).pc ≠ .drained pc ∧
      (f.next config quiescent).pc ≠ .loadState := by
    rcases hpc with ⟨_, hpc⟩ | ⟨hpc, -⟩ <;> rw [hpc] <;> exact fun _ ↦ ⟨by rintro ⟨⟩, by rintro ⟨⟩⟩
  refine ⟨h.closed, fun hq p hp ↦ ?_, fun pc hdrained ↦ absurd hdrained (hfinish pc).1,
    fun hload ↦ absurd hload (hfinish .testPublishing).2, fun hdone ↦ ?_⟩
  · obtain ⟨hq, hself⟩ := hslot (hquiescent.symm.trans hq)
    rw [hnext] at hp
    rcases Nat.lt_succ_iff_lt_or_eq.mp hp with hp | rfl
    · exact h.before hq p hp
    · exact hself
  · rcases hpc with ⟨_, hpc⟩ | ⟨-, hle⟩
    · cases hpc.symm.trans hdone
    · rw [hnext]
      exact hle

/-- A call that started with admission closed. -/
def Quiescing (config : ValidConfig) (k : Kernel) : Prop :=
  ∀ t f, k.calls t = .quiescent f → f.closed = true → k.QuiescentOk config f

theorem QuiescentOk.advance {f f' : QuiescentFrame} (h : k.QuiescentOk config f)
    (hinv : k.Inv conv config) (hstep : quiescentStep config k.memory f choice = some (m', f')) :
    k.QuiescentOk config f' := by
  rw [quiescentStep] at hstep
  cases hpc : f.pc <;> rw [hpc] at hstep <;> try dsimp only at hstep
  case finish pc =>
    revert hstep
    rcases retireStep k.memory f.slot choice pc with ⟨m₁, _ | pc₁⟩ <;> intro hstep
    · dsimp only at hstep
      split at hstep
      · next hq =>
        cases hstep
        refine ⟨h.closed, h.before, ?_, by rintro ⟨⟩, by rintro ⟨⟩⟩
        rintro _ ⟨⟩
        exact ⟨hq, trivial⟩
      · cases hstep
        exact h.next false (by rintro ⟨⟩)
    · cases hstep
      exact ⟨h.closed, h.before, by rintro _ ⟨⟩, by rintro ⟨⟩, by rintro ⟨⟩⟩
  case drained pc =>
    obtain ⟨hq, hok⟩ := h.drained pc hpc
    cases hdrain : drainStep k.memory f.slot choice pc with
    | inl pc' =>
      rw [hdrain] at hstep
      cases hstep
      refine ⟨h.closed, h.before, ?_, by rintro ⟨⟩, by rintro ⟨⟩⟩
      rintro _ ⟨⟩
      exact ⟨hq, hok.advance hinv hdrain⟩
    | inr drained =>
      rw [hdrain] at hstep
      cases drained with
      | true =>
        cases hstep
        exact ⟨h.closed, h.before, by rintro _ ⟨⟩, fun _ ↦ ⟨hq, hok.emptied hinv hdrain⟩,
          by rintro ⟨⟩⟩
      | false =>
        cases hstep
        exact h.next false (by rintro ⟨⟩)
  case loadState =>
    cases hstep
    exact h.next _ fun _ ↦ h.loadState hpc
  case done =>
    cases hstep

theorem Quiescing.step (h : k.Quiescing config) (hinv : k.Inv conv config)
    (hstep : k.step conv config action = some k') : k'.Quiescing config := by
  intro t f hf hclosed
  -- a call that was there before, or one that has just started
  have hcall : k.QuiescentOk config f ∨ k'.memory.admissionOpen = false ∧
      f = { pc := .finish (.drained .testPublishing), closed := true } := by
    cases Move.of_step hstep with
    | enter _ hcall =>
      rcases update_eq_cases hf with ⟨-, heq⟩ | ⟨-, hf⟩
      · cases hcall <;> cases heq
        right
        have hopen : k.memory.admissionOpen = false := by simpa using hclosed
        refine ⟨hopen, ?_⟩
        rw [hopen]
        rfl
      · exact .inl (h t f hf hclosed)
    | @quiescent t' g f' _ _ hg hcall =>
      rcases update_eq_cases hf with ⟨-, heq⟩ | ⟨-, hf⟩
      · cases heq
        have hsame : f.closed = g.closed := quiescentStep_closed hcall
        exact .inl ((h t' g hg (hsame.symm.trans hclosed)).advance hinv hcall)
      · exact .inl (h t f hf hclosed)
    | closeAdmission => exact .inl (h t f hf hclosed)
    | publish | consume | retire | register | returnPublish | «return» =>
      rcases update_eq_cases hf with ⟨-, heq⟩ | ⟨-, hf⟩
      · cases heq
      · exact .inl (h t f hf hclosed)
  rcases hcall with hok | ⟨hopen, rfl⟩
  · exact hok.step hinv hstep
  · exact ⟨hopen, fun _ p hp ↦ absurd hp (Nat.not_lt_zero _), by rintro _ ⟨⟩, by rintro ⟨⟩,
      by rintro ⟨⟩⟩

theorem Quiescing.of_reach {ok : Kernel → KernelAction → Prop}
    (h : (machine conv config).Reach ok k) : k.Quiescing config := by
  have hboth : k.Inv conv config ∧ k.Quiescing config := by
    refine Machine.Reach.invariant (I := fun k ↦ k.Inv conv config ∧ k.Quiescing config) h
      ⟨inv_init, ?_⟩ fun _ _ _ hk _ hstep ↦ ⟨hk.1.step hstep, hk.2.step hk.1 hstep⟩
    rintro _ _ ⟨⟩
  exact hboth.2

/-- When `IsQuiescent` returns true after admission was closed, the kernel is settled. -/
theorem Quiescing.settled (h : k.Quiescing config) {f : QuiescentFrame}
    (hf : k.calls t = .quiescent f) (hclosed : f.closed = true) (hpc : f.pc = .done)
    (hquiescent : f.quiescent = true) : k.Settled config := by
  have hok := h t f hf hclosed
  exact ⟨hok.closed, fun p hp ↦ hok.before hquiescent p (hp.trans_le (hok.done hpc))⟩

/-- Whatever happens after that, the number of accepted Records is final. -/
theorem quiescent_final {ok : Kernel → KernelAction → Prop} (h : (machine conv config).Reach ok k)
    {f : QuiescentFrame} (hf : k.calls t = .quiescent f) (hclosed : f.closed = true)
    (hpc : f.pc = .done) (hquiescent : f.quiescent = true)
    (hlater : ((machine conv config).startingAt k).Reach ok k') :
    k'.Settled config ∧ k'.memory.nextAdmissionSequence = k.memory.nextAdmissionSequence := by
  have hsettled := (Quiescing.of_reach h).settled hf hclosed hpc hquiescent
  refine And.right (Machine.Reach.invariant (I := fun k' ↦ k'.Inv conv config ∧
    k'.Settled config ∧ k'.memory.nextAdmissionSequence = k.memory.nextAdmissionSequence) hlater
    ⟨.of_reach h, hsettled, rfl⟩ fun _ _ _ hk _ hstep ↦ ?_)
  obtain ⟨hinv, hsettled, heq⟩ := hk
  exact ⟨hinv.step hstep, hsettled.step hinv hstep, (hsettled.accepted hinv hstep).trans heq⟩

/-- The only producer publishes one Record and retires. -/
theorem quiescent_final_retired :
    ∃ k, (machine .blank .singleCell).Reachable k ∧
      ∀ k', ((machine .blank .singleCell).startingAt k).Reachable k' →
        k'.memory.nextAdmissionSequence = 1 := by
  have hrun : (machine .blank .singleCell).run (fun _ _ ↦ True)
      (init .singleCell)
      (List.flatten [[.register 1], advances 1 4, [.return 1],
        [.publish 1 0 1 .info ⟨[], [], 7, 9⟩ true], advances 1 25, [.return 1, .consume true],
        advances consumerThread 12, [.retire 1 0 1], advances 1 12,
        [.return 1, .closeAdmission, .quiescent 1], advances 1 8]) = some _ := rfl
  have hreach := Machine.Reach.of_run .init hrun
  exact ⟨_, hreach, fun _ hlater ↦ (quiescent_final hreach (t := 1) rfl rfl rfl rfl hlater).2⟩

end Kernel

end Ulog
