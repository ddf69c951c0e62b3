import Ulog.Producer.Cells

/-!
# Completed builds

Once its builder has reported completion, a publication can only be dropped by `Publish`, and
`Publish` fails only where message bytes were lost and the truncation mark has no room: the mark
takes 38 bytes, which the message can give back but the source text and the fields cannot. With a
record bound of 128 bytes and a source location of 40 bytes there is no room for it, and
`completed_build_dropped` is a run in which an oversized message is rejected as invalid.

Where the mark fits, the call ends accepted after nine more steps of its own, whatever the other
threads do meanwhile.
-/

namespace Ulog

variable {conv : Charconv} {config : ValidConfig} {m m' : KernelMemory}
  {admissions : List Admission} {f f' : PublishFrame} {choice : StepChoice} {t : ℕ}

/-- The steps that a call with a completed build still has to make before it is done. -/
def PublishPc.stepsLeft : PublishPc → Option ℕ
  | .publishRecord => some 9
  | .commit => some 8
  | .finishCommit => some 7
  | .storeRecord => some 6
  | .emplace => some 5
  | .fetchSequence => some 4
  | .writeEnvelope => some 3
  | .publishPosition => some 2
  | .clear => some 1
  | .done (some ⟨.accepted, some _, _⟩) => some 0
  | _ => none

namespace PublishFrame

/-- The build of the call's arguments and builder calls needs no mark, or has room for it. -/
def MarkFits (conv : Charconv) (config : ValidConfig) (f : PublishFrame) : Prop :=
  ∀ started, f.initial.begin config.maximumRecordBytes f.level f.source f.timestamp =
    some started → (started.calls conv f.calls).MarkFits

theorem MarkFits.build (h : f.MarkFits conv config) (hok : f.Ok conv config m admissions)
    (hpc : f.pc = .publishRecord) : (f.build config m).MarkFits := by
  rw [Ok, hpc] at hok
  obtain ⟨-, started, hbegin, hbuild⟩ := hok
  rw [PublishFrame.build, hbuild]
  exact h started hbegin

end PublishFrame

/-- Each step of a completed build brings it nearer to its end, and none rejects it. -/
theorem stepsLeft_publishStep (hok : f.Ok conv config m admissions) (htidy : f.Tidy config m)
    (hfits : f.pc = .publishRecord → f.MarkFits conv config) {n : ℕ}
    (hleft : f.pc.stepsLeft = some (n + 1)) (choice : StepChoice) :
    ∃ m' f', publishStep conv config m f choice = some (m', f') ∧ f'.pc.stepsLeft = some n ∧
      f'.pc ≠ .publishRecord := by
  -- the steps after `Publish` are never refused, or the cell would be in no tidy state
  have hnext : ∀ {m' f'}, publishStep conv config m f choice = some (m', f') →
      f.pc ≠ .loadPositions → f'.Tidy config m' := fun hstep hpc ↦
    (publishTidy hok htidy (fun h ↦ absurd h hpc) hstep).tidy
  cases hpc : f.pc with
  | publishRecord =>
    rw [hpc] at hleft
    cases hleft
    rcases publishStep_publishRecord hok hpc choice with ⟨hnot, -⟩ | ⟨-, b, record, -, hstep⟩
    · exact absurd ((hfits hpc).build hok hpc) hnot
    · exact ⟨_, _, hstep, rfl, (by rintro ⟨⟩)⟩
  | commit | storeRecord | writeEnvelope | publishPosition | clear =>
    rw [hpc] at hleft
    cases hleft
    rw [publishStep, hpc]
    exact ⟨_, _, rfl, rfl, by rintro ⟨⟩⟩
  | finishCommit | fetchSequence =>
    rw [hpc] at hleft
    cases hleft
    rw [publishStep, hpc] at hnext ⊢
    dsimp only at hnext ⊢
    split
    · exact ⟨_, _, rfl, rfl, by rintro ⟨⟩⟩
    · next hrefused =>
      rw [if_neg hrefused] at hnext
      have hbad := hnext rfl (by decide)
      simp [PublishFrame.Tidy, PublishFrame.reject, PublishFrame.goto, dropAll] at hbad
  | emplace =>
    rw [hpc] at hleft
    cases hleft
    rw [PublishFrame.Tidy, hpc] at htidy
    rw [publishStep, hpc]
    dsimp only
    rw [if_pos htidy.1]
    exact ⟨_, _, rfl, rfl, (by rintro ⟨⟩)⟩
  | done result =>
    rw [hpc] at hleft
    rcases result with _ | ⟨outcome, _ | s, truncated⟩
    · cases hleft
    · cases outcome <;> cases hleft
    · cases outcome <;> cases hleft
  | _ =>
    rw [hpc] at hleft
    cases hleft

theorem PublishPc.stepsLeft_eq_zero {pc : PublishPc} (h : pc.stepsLeft = some 0) :
    ∃ s truncated, pc = .done (some ⟨.accepted, some s, truncated⟩) := by
  cases pc with
  | done result =>
    rcases result with _ | ⟨outcome, _ | s, truncated⟩
    · cases h
    · cases outcome <;> cases h
    · cases outcome with
      | accepted => exact ⟨s, truncated, rfl⟩
      | _ => cases h
  | _ => cases h

/-! ## Whole runs -/

/-- A step of this thread's call. -/
def KernelAction.isAdvance (t : ℕ) : KernelAction → Bool
  | .advance t' _ => t' == t
  | _ => false

namespace Kernel

variable {k k' : Kernel}

/-- However the threads are scheduled, the call of this thread is accepted after `n` more steps of
its own; until then its next step is always enabled. -/
def EndsAccepted (conv : Charconv) (config : ValidConfig) (k : Kernel) (t n : ℕ) : Prop :=
  ∀ actions k', (machine conv config).run (fun _ _ ↦ True) k actions = some k' →
    (∀ a ∈ actions, ∀ t', a = .return t' → t' ≠ t) →
    ∃ left f, actions.countP (KernelAction.isAdvance t) + left = n ∧ k'.calls t = .publish f ∧
      f.pc.stepsLeft = some left ∧
      (left ≠ 0 → ∀ choice, ∃ k'', k'.step conv config (.advance t choice) = some k'')

theorem Move.calls_eq {action : KernelAction} (h : k.Move conv config action k')
    (hf : k.calls t = .publish f) (haction : action.isAdvance t = false)
    (hreturn : ∀ t', action = .return t' → t' ≠ t) : k'.calls t = .publish f := by
  have hother : ∀ {t' call}, t' ≠ t → Function.update k.calls t' call t = .publish f :=
    fun hne ↦ (Function.update_of_ne (Ne.symm hne) ..).trans hf
  have hadvance : ∀ {t' choice}, KernelAction.isAdvance t (.advance t' choice) = false → t' ≠ t :=
    fun h ↦ by simpa [KernelAction.isAdvance] using h
  cases h with
  | enter hidle =>
    refine hother ?_
    rintro rfl
    cases hidle.symm.trans hf
  | closeAdmission => exact hf
  | publish | consume | retire | quiescent | register => exact hother (hadvance haction)
  | returnPublish | «return» => exact hother (hreturn _ rfl)

theorem endsAccepted (hk : (machine conv config).Reachable k) {n : ℕ}
    (hf : k.calls t = .publish f) (hfits : f.pc = .publishRecord → f.MarkFits conv config)
    (hleft : f.pc.stepsLeft = some n) : k.EndsAccepted conv config t n := by
  intro actions
  induction actions generalizing k f n with
  | nil =>
    intro k' hrun hreturn
    cases hrun
    refine ⟨n, f, Nat.zero_add n, hf, hleft, fun hn choice ↦ ?_⟩
    obtain ⟨left, rfl⟩ := Nat.exists_eq_succ_of_ne_zero hn
    obtain ⟨m', f', hstep, -⟩ := stepsLeft_publishStep ((Inv.of_reach hk).frames t f hf)
      ((Tidy.of_reach hk).frames t f hf) hfits hleft choice
    exact ⟨_, step_advance hf hstep⟩
  | cons action actions ih =>
    intro k' hrun hreturn
    rw [Machine.run, if_pos trivial] at hrun
    obtain ⟨k₁, hstep, hrest⟩ := Option.bind_eq_some_iff.mp hrun
    have hk₁ : (machine conv config).Reachable k₁ := .step hk trivial hstep
    have hreturn' := fun a ha ↦ hreturn a (List.mem_cons_of_mem _ ha)
    cases haction : action.isAdvance t with
    | false =>
      -- somebody else moves
      have hcall := (Move.of_step hstep).calls_eq hf haction
        (hreturn action (List.mem_cons_self ..))
      rw [List.countP_cons_of_neg (by rw [haction]; decide)]
      exact ih hk₁ hcall hfits hleft k' hrest hreturn'
    | true =>
      obtain ⟨choice, rfl⟩ : ∃ choice, action = .advance t choice := by
        cases action with
        | advance t' choice =>
          rw [KernelAction.isAdvance, beq_iff_eq] at haction
          exact ⟨choice, by rw [haction]⟩
        | _ => cases haction
      cases n with
      | zero =>
        -- a call that is done makes no step
        obtain ⟨s, truncated, hpc⟩ := PublishPc.stepsLeft_eq_zero hleft
        obtain ⟨m', f', hcall, -⟩ := advance_publish hf hstep
        rw [publishStep, hpc] at hcall
        cases hcall
      | succ n =>
        obtain ⟨m', f', hpublish, hleft', hnot⟩ :=
          stepsLeft_publishStep ((Inv.of_reach hk).frames t f hf)
            ((Tidy.of_reach hk).frames t f hf) hfits hleft choice
        obtain ⟨m₁, f₁, hcall, rfl⟩ := advance_publish hf hstep
        cases hcall.symm.trans hpublish
        obtain ⟨left, g, hcount, hrest⟩ :=
          ih hk₁ (Function.update_self ..) (fun hpc ↦ absurd hpc hnot) hleft' k' hrest hreturn'
        refine ⟨left, g, ?_, hrest⟩
        rw [List.countP_cons_of_pos haction]
        omega

/-- A call whose mark does not fit is rejected by its next step. -/
theorem EndsAccepted.markFits {n : ℕ} (h : k.EndsAccepted conv config t n)
    (hk : (machine conv config).Reachable k) (hf : k.calls t = .publish f)
    (hpc : f.pc = .publishRecord) : f.MarkFits conv config := by
  intro started hbegin
  have hok := (Inv.of_reach hk).frames t f hf
  rcases publishStep_publishRecord hok hpc {} with ⟨-, b, -, -, hstep⟩ | ⟨hfits, -⟩
  · obtain ⟨left, g, -, hg, hleft, -⟩ := h [.advance t {}] _
      (Option.bind_eq_some_iff.mpr ⟨_, step_advance hf hstep, rfl⟩) (by simp)
    cases (Function.update_self ..).symm.trans hg
    cases hleft
  · rw [PublishFrame.Ok, hpc] at hok
    obtain ⟨-, started', hbegin', hbuild⟩ := hok
    cases hbegin.symm.trans hbegin'
    rwa [PublishFrame.build, hbuild] at hfits

/-- A build is published exactly when it needs no truncation mark or has room for it: with the
whole message, or with a prefix of it and the mark. `TryPublishSlot` accepts the Record exactly
then. -/
theorem completed_build_accepted (conv : Charconv) (config : ValidConfig) {slot : RecordSlot}
    {level : Level} {source : SourceLocation} {timestamp : Int64} {started : RecordBuild}
    (cs : List RecordCall)
    (hbegin : slot.begin config.maximumRecordBytes level source timestamp = some started) :
    ((∃ finished record, (started.calls conv cs).publish = (finished, some record)) ↔
      (started.calls conv cs).MarkFits) ∧
    (∀ finished record, (started.calls conv cs).publish = (finished, some record) →
      Published config.maximumRecordBytes level source timestamp
        (RecordBuild.appendedBytes conv cs) (started.addedFields conv cs)
        (decide (started.calls conv cs).LosesBytes) finished record) ∧
    ∀ k t f, (machine conv config).Reachable k → k.calls t = .publish f →
      f.pc = .publishRecord → f.initial = slot → f.level = level → f.source = source →
      f.timestamp = timestamp → f.calls = cs →
      (k.EndsAccepted conv config t 9 ↔ (started.calls conv cs).MarkFits) := by
  obtain ⟨-, -, hquantum, -⟩ := config.maximumRecordBytes_bounds
  obtain ⟨msg, hbuilding, happending⟩ := building_calls conv cs (building_of_begin hbegin)
    (appending_of_begin hbegin)
  have hsome := hbuilding.publish_of_markFits ((counted_of_begin hbegin).calls conv cs) happending
    hquantum
  have hfits : ∀ {finished record}, (started.calls conv cs).publish = (finished, some record) →
      (started.calls conv cs).MarkFits := by
    intro finished record hpublish
    by_contra hnot
    cases hpublish.symm.trans (hbuilding.publish_of_not_markFits hnot)
  refine ⟨⟨?_, fun h ↦ ?_⟩, fun finished record hpublish ↦ ?_, ?_⟩
  · rintro ⟨finished, record, hpublish⟩
    exact hfits hpublish
  · obtain ⟨finished, record, hpublish, -⟩ := hsome h
    exact ⟨finished, record, hpublish⟩
  · obtain ⟨finished', record', hpublish', hpublished⟩ := hsome (hfits hpublish)
    cases hpublish.symm.trans hpublish'
    exact hpublished
  · rintro k t f hk hf hpc rfl rfl rfl rfl rfl
    refine ⟨fun h ↦ h.markFits hk hf hpc started hbegin, fun h ↦ ?_⟩
    refine endsAccepted hk hf (fun _ started' hbegin' ↦ ?_) (by rw [hpc]; rfl)
    cases hbegin.symm.trans hbegin'
    exact h

/-- The publication of this thread is about to run `Publish`. -/
def publishing (k : Kernel) (t : ℕ) : Bool :=
  match k.calls t with
  | .publish ⟨_, _, _, _, _, .publishRecord, _, _, _, _, _, _, _, _, _, _⟩ => true
  | _ => false

/-- The publication of this thread has been rejected as invalid. -/
def rejected (k : Kernel) (t : ℕ) : Bool :=
  match k.calls t with
  | .publish ⟨_, _, _, _, _, .done (some ⟨.invalidRecord, none, _⟩), _, _, _, _, _, _, _, _, _,
      _⟩ => true
  | _ => false

theorem exists_of_publishing (h : k.publishing t = true) :
    ∃ f, k.calls t = .publish f ∧ f.pc = .publishRecord := by
  rw [publishing] at h
  split at h
  · next hf => exact ⟨_, hf, rfl⟩
  · cases h

theorem exists_of_rejected (h : k.rejected t = true) :
    ∃ f result, k.calls t = .publish f ∧ f.pc = .done (some result) ∧
      result.outcome = .invalidRecord := by
  rw [rejected] at h
  split at h
  · next hf => exact ⟨_, _, hf, rfl, rfl⟩
  · cases h

/-- The build of this thread's publication loses message bytes and has room for the mark. -/
def cut (config : ValidConfig) (k : Kernel) (t : ℕ) : Bool :=
  match k.calls t with
  | .publish f => decide ((f.build config k.memory).LosesBytes ∧ (f.build config k.memory).MarkFits)
  | _ => false

/-- A message of 200 bytes is cut and marked, and its call ends accepted. -/
theorem completed_build_accepted_truncated :
    ∃ k f started finished record, (machine .blank .singleCell).Reachable k ∧
      k.calls 1 = .publish f ∧ f.pc = .publishRecord ∧
      f.initial.begin 128 f.level f.source f.timestamp = some started ∧
      (started.calls .blank f.calls).LosesBytes ∧
      (started.calls .blank f.calls).publish = (finished, some record) ∧
      record.truncated = true ∧ k.EndsAccepted .blank .singleCell 1 9 := by
  obtain ⟨k, hreach, htest⟩ := Machine.Reach.exists_of_run
    (machine .blank .singleCell) (fun _ _ ↦ True)
    (fun k ↦ k.publishing 1 && k.cut .singleCell 1)
    (List.flatten [[.register 1], advances 1 4, [.return 1],
      [.publish 1 0 1 .info ⟨[0x61], [0x62], 7, 9⟩ true], advances 1 15,
      [.advance 1 { build := .call (.append (.text (List.replicate 200 0x2e))) }], advances 1 1])
    (by decide +kernel)
  obtain ⟨hpublishing, hcut⟩ := (Bool.and_eq_true ..).mp htest
  obtain ⟨f, hf, hpc⟩ := exists_of_publishing hpublishing
  have hok := (Inv.of_reach hreach).frames 1 f hf
  rw [PublishFrame.Ok, hpc] at hok
  obtain ⟨-, started, hbegin, hbuild⟩ := hok
  simp only [cut, hf, PublishFrame.build, hbuild, decide_eq_true_iff] at hcut
  obtain ⟨hpublish, hpublished, haccepted⟩ :=
    completed_build_accepted .blank .singleCell f.calls hbegin
  obtain ⟨finished, record, hsome⟩ := hpublish.mpr hcut.2
  refine ⟨k, f, started, finished, record, hreach, hf, hpc, hbegin, hcut.1, hsome, ?_,
    (haccepted k 1 f hreach hf hpc rfl rfl rfl rfl rfl).mpr hcut.2⟩
  rw [(hpublished finished record hsome).truncated]
  exact decide_eq_true hcut.1

/-- With a source path of 40 bytes in a Record of 128, 32 bytes are left for the message. A message
of 33 bytes would have to be marked, and is dropped. -/
theorem completed_build_dropped :
    (∃ started finished, RecordSlot.begin {} 128 .info ⟨List.replicate 40 0x61, [], 7, 9⟩ 5 =
        some started ∧
      (started.calls .blank
        [.append (.text (List.replicate 33 0x2e))]).publish = (finished, none)) ∧
    ∃ k, (machine .blank .singleCell).Reachable k ∧
      (∃ f, k.calls 1 = .publish f ∧ f.pc = .publishRecord) ∧
      ∃ k', (machine .blank .singleCell).run (fun _ _ ↦ True) k
          (advances 1 6) = some k' ∧
        ∃ f result, k'.calls 1 = .publish f ∧ f.pc = .done (some result) ∧
          result.outcome = .invalidRecord := by
  refine ⟨⟨_, _, rfl, rfl⟩, ?_⟩
  obtain ⟨k, hreach, htest⟩ := Machine.Reach.exists_of_run
    (machine .blank .singleCell) (fun _ _ ↦ True)
    (fun k ↦ k.publishing 1 &&
      ((machine .blank .singleCell).run (fun _ _ ↦ True) k
        (advances 1 6)).any (·.rejected 1))
    (List.flatten [[.register 1], advances 1 4, [.return 1],
      [.publish 1 0 1 .info ⟨List.replicate 40 0x61, [], 7, 9⟩ true], advances 1 15,
      [.advance 1 { build := .call (.append (.text (List.replicate 33 0x2e))) }], advances 1 1])
    (by decide +kernel)
  rw [Bool.and_eq_true, Option.any_eq_true] at htest
  obtain ⟨hpublishing, k', hrun, hrejected⟩ := htest
  exact ⟨k, hreach, exists_of_publishing hpublishing, k', hrun, exists_of_rejected hrejected⟩

end Kernel

end Ulog
