import Ulog.Producer.Rejection

/-!
# Admission counters

`TryPublish` and the loggers stand before `TryPublishSlot`. Both filter by level. `TryPublish` then
checks that the registration belongs to the kernel; a logger looks up the registration of its thread
and checks that it is active. What passes becomes a publication, what does not is counted as missing
a producer.

An attempt is a call that passed the level filter. Each exit of an attempt bumps one counter: the
counters of the producer slots, the shards for missing producers, or the admission sequence itself.
`Attempt.decided` is the result of an attempt as the counters know it, which it is from the moment
of its bump. In every state a counter is the number of attempts that are decided for it, ended or
not, so that it counts results when no attempt is open.

A builder may log itself. The calls of one thread that are open at a time have different numbers
here, so that nesting is a case of interleaving.
-/

namespace Ulog

open ByteMemory

variable {r : AttemptResult} {action : KernelAction} {shard : ℕ}

/-! ## Results -/

/-- What an attempt ended with: no result if the builder threw; and how the builder ended, if it
was called. -/
structure AttemptResult where
  result : Option PublishResult
  built : Option BuildStatus := none
  deriving DecidableEq, Repr

/-- The counters of an attempt. -/
inductive AttemptCounter where
  | accepted
  | noProducer
  | laneFull
  | budget
  | abandoned
  | invalid
  | truncated
  deriving DecidableEq, Repr

namespace AttemptResult

/-- The one counter that the outcome belongs to. A build that throws or reports failure is
abandoned; every other failure to produce a Record is invalid. -/
def counter (r : AttemptResult) : AttemptCounter :=
  match r.result with
  | none => .abandoned
  | some result =>
    match result.outcome with
    | .accepted => .accepted
    | .noProducerSlot => .noProducer
    | .laneFull => .laneFull
    | .budgetExhausted => .budget
    | .invalidRecord | .filtered => if r.built = some .invalid then .abandoned else .invalid

def isAccepted (r : AttemptResult) : Bool := r.result.any (·.outcome == .accepted)

/-- Accepted with `truncated = true`. -/
def isTruncated (r : AttemptResult) : Bool :=
  r.result.any fun result ↦ result.outcome == .accepted && result.truncated

/-- The admission sequence of an accepted attempt. -/
def acceptedSequence (r : AttemptResult) : Option ℕ :=
  r.result.bind fun result ↦ if result.outcome = .accepted then result.admissionSequence else none

/-- The counters that the result was counted in. -/
def counts (r : AttemptResult) : AttemptCounter → Bool
  | .truncated => r.isTruncated
  | c => r.counter == c

end AttemptResult

/-- What a result adds to a counter. -/
def weight (r : Option AttemptResult) (c : AttemptCounter) : ℕ :=
  if r.any (·.counts c) then 1 else 0

/-! ## Attempts -/

inductive AttemptPc where
  /-- `CountMissingProducer` is due -/
  | missing
  /-- `IsActive` in `LogMessage`: the state -/
  | activeState (slot generation : ℕ)
  /-- `IsActive` in `LogMessage`: the generation -/
  | activeGeneration (slot generation : ℕ)
  /-- inside `TryPublishSlot` -/
  | publish
  /-- counted as missing a producer -/
  | rejected
  deriving DecidableEq, Repr

/-- A call of `TryPublish` or of a logger that passed the level filter. -/
structure Attempt where
  pc : AttemptPc
  level : Level
  source : SourceLocation
  hasOperation : Bool := true
  built : Option BuildStatus := none
  deriving DecidableEq, Repr

/-- The result of a publication as the counters know it. -/
def PublishFrame.decided (f : PublishFrame) (built : Option BuildStatus) : Option AttemptResult :=
  match f.pc with
  | .writeEnvelope | .publishPosition | .clear => some ⟨some { outcome := .accepted }, built⟩
  | .unwind _ outcome => some ⟨outcome.map fun o ↦ { outcome := o }, built⟩
  | .done result => some ⟨result, built⟩
  | _ => none

/-- The result of an attempt as the counters know it. -/
def Attempt.decided (a : Attempt) (call : KernelCall) : Option AttemptResult :=
  match a.pc with
  | .rejected => some ⟨some { outcome := .noProducerSlot }, none⟩
  | .publish =>
    match call with
    | .publish f => f.decided a.built
    | _ => none
  | _ => none

theorem Attempt.decided_publish {a : Attempt} (hpc : a.pc = .publish) (f : PublishFrame) :
    a.decided (.publish f) = f.decided a.built := by
  simp only [decided, hpc]

theorem Attempt.decided_rejected {a : Attempt} (hpc : a.pc = .rejected) (call : KernelCall) :
    a.decided call = some ⟨some { outcome := .noProducerSlot }, none⟩ := by
  simp only [decided, hpc]

/-- How the builder has ended, after the next step of the publication. -/
def PublishFrame.builtAfter (f : PublishFrame) (choice : StepChoice)
    (built : Option BuildStatus) : Option BuildStatus :=
  match f.pc, choice.build with
  | .building, .finish status => some status
  | _, _ => built

/-! ## The kernel behind its entry points -/

/-- The kernel with the threshold of its loggers, the shards of the counter for missing producers,
the attempts that are open, and the history: how many calls passed the level filter, and how those
that returned ended. -/
structure Frontend where
  kernel : Kernel
  threshold : Level
  missing : ℕ → ℕ := fun _ ↦ 0
  attempts : ℕ → Option Attempt := fun _ ↦ none
  reached : ℕ := 0
  ended : List AttemptResult := []

inductive FrontendAction where
  /-- `TryPublish`; `owned` tells whether the registration belongs to this kernel -/
  | tryPublish (thread : ℕ) (owned : Bool) (slot generation : ℕ) (level : Level)
    (source : SourceLocation) (hasOperation : Bool)
  /-- `Logger::LogMessage`, with what `FindThreadRegistration` finds -/
  | logMessage (thread : ℕ) (found : Option (ℕ × ℕ)) (level : Level) (source : SourceLocation)
  /-- the attempt makes its next step; `shard` is the `MissingProducerShard` of its thread -/
  | advance (thread : ℕ) (choice : StepChoice) (shard : ℕ)
  | return (thread : ℕ)
  /-- `SetLevel`; `CloseAdmission` is the kernel's action followed by this one with `none` -/
  | setLevel (level : Level)
  /-- an action of the kernel in another call -/
  | other (action : KernelAction)

/-- The thread whose attempt moves. -/
def FrontendAction.thread : FrontendAction → Option ℕ
  | .tryPublish thread .. | .logMessage thread .. | .advance thread .. | .return thread =>
    some thread
  | .setLevel _ | .other _ => none

namespace Frontend

variable (conv : Charconv) (config : ValidConfig)

/-- The thread has a call open. -/
def isBusy (s : Frontend) (thread : ℕ) : Bool :=
  (s.attempts thread).isSome ||
    match s.kernel.calls thread with
    | .idle => false
    | _ => true

def setAttempt (s : Frontend) (thread : ℕ) (a : Option Attempt) : Frontend :=
  { s with attempts := Function.update s.attempts thread a }

/-- The attempt enters `TryPublishSlot`. -/
def enter (s : Frontend) (thread slot generation : ℕ) (a : Attempt) : Option Frontend :=
  (s.kernel.step conv config
    (.publish thread slot generation a.level a.source a.hasOperation)).map fun k ↦
      { s with kernel := k }.setAttempt thread (some { a with pc := .publish, built := none })

/-- The memory changes; if a missing producer was counted, it was counted in this shard. -/
def countShard (s : Frontend) (shard : ℕ) (k : Kernel) : Frontend :=
  { s with
    kernel := k
    missing :=
      if k.memory.missingProducers = s.kernel.memory.missingProducers then s.missing
      else Function.update s.missing shard (s.missing shard + 1) }

/-- The next step of an attempt. -/
def advance (s : Frontend) (thread : ℕ) (a : Attempt) (choice : StepChoice) (shard : ℕ) :
    Option Frontend :=
  match a.pc with
  | .missing =>
    some ((s.countShard shard { s.kernel with memory := s.kernel.memory.countMissing }).setAttempt
      thread (some { a with pc := .rejected }))
  | .activeState slot generation =>
    if slot < config.producerSlots ∧ (s.kernel.memory.controls slot).state = .active then
      some (s.setAttempt thread (some { a with pc := .activeGeneration slot generation }))
    else some (s.setAttempt thread (some { a with pc := .missing }))
  | .activeGeneration slot generation =>
    if (s.kernel.memory.controls slot).generation = generation then
      s.enter conv config thread slot generation a
    else some (s.setAttempt thread (some { a with pc := .missing }))
  | .publish =>
    match s.kernel.calls thread with
    | .publish f =>
      (s.kernel.step conv config (.advance thread choice)).map fun k ↦
        (s.countShard shard k).setAttempt thread
          (some { a with built := f.builtAfter choice a.built })
    | _ => none
  | .rejected => none

/-- The attempt returns. -/
def finish (s : Frontend) (thread : ℕ) (a : Attempt) : Option Frontend :=
  match a.pc with
  | .rejected =>
    some { s.setAttempt thread none with
      ended := s.ended ++ [⟨some { outcome := .noProducerSlot }, none⟩] }
  | .publish =>
    match s.kernel.calls thread with
    | .publish f =>
      match f.pc with
      | .done result =>
        (s.kernel.step conv config (.return thread)).map fun k ↦
          { s.setAttempt thread none with
            kernel := k
            ended := s.ended ++ [⟨result, a.built⟩] }
      | _ => none
    | _ => none
  | _ => none

/-- The kernel's action is that of another call. -/
def isOther (s : Frontend) (action : KernelAction) : Bool :=
  match action with
  | .publish .. => false
  | action => action.thread.all fun thread ↦ (s.attempts thread).isNone

def step (s : Frontend) : FrontendAction → Option Frontend
  | .tryPublish thread owned slot generation level source hasOperation =>
    if s.isBusy thread then none
    else if !level.isEnabled s.threshold then some s
    else
      let s := { s with reached := s.reached + 1 }
      let a : Attempt := ⟨.missing, level, source, hasOperation, none⟩
      if owned then s.enter conv config thread slot generation a
      else some (s.setAttempt thread (some a))
  | .logMessage thread found level source =>
    if s.isBusy thread then none
    else if !level.isEnabled s.threshold then some s
    else
      let pc : AttemptPc :=
        match found with
        | none => .missing
        | some (slot, generation) => .activeState slot generation
      some ({ s with reached := s.reached + 1 }.setAttempt thread
        (some ⟨pc, level, source, true, none⟩))
  | .advance thread choice shard =>
    match s.attempts thread with
    | some a =>
      if shard < maximumProducerSlots then s.advance conv config thread a choice shard else none
    | none => none
  | .return thread =>
    match s.attempts thread with
    | some a => s.finish conv config thread a
    | none => none
  | .setLevel level => some { s with threshold := level }
  | .other action =>
    if s.isOther action then (s.kernel.step conv config action).map fun k ↦ { s with kernel := k }
    else none

def machine : Machine Frontend FrontendAction where
  init :=
    { kernel := Kernel.init config
      threshold := (Level.ofByte config.threshold).getD .none }
  step := step conv config

end Frontend

/-! ## GetSnapshot -/

/-- `CreditLedger::Snapshot`. -/
structure CreditSnapshot where
  capacityBytes : ℕ
  centralAvailableBytes : ℕ
  logicalRetainedBytes : ℕ
  physicalRetainedBytes : ℕ
  sampleConsistent : Bool
  deriving DecidableEq, Repr

/-- `CreditLedger::GetSnapshot`. -/
def CreditLedger.getSnapshot (l : CreditLedger) : CreditSnapshot :=
  let logicalRetained :=
    (∑ p ∈ Finset.range l.producerCount, (l.slots p).logicalCharge) % wordModulus
  let centralAvailable := min l.centralAvailable l.capacityBytes
  let physicalRetained := l.capacityBytes - centralAvailable
  { capacityBytes := l.capacityBytes
    centralAvailableBytes := centralAvailable
    logicalRetainedBytes := min logicalRetained physicalRetained
    physicalRetainedBytes := physicalRetained
    sampleConsistent :=
      l.centralAvailable ≤ l.capacityBytes && logicalRetained ≤ physicalRetained }

/-- `KernelSnapshot`. -/
structure KernelSnapshot where
  attemptedRecords : ℕ
  acceptedRecords : ℕ
  consumedRecords : ℕ
  rejectedNoProducer : ℕ
  rejectedLaneFull : ℕ
  rejectedBudget : ℕ
  abandonedBuilds : ℕ
  invalidRecords : ℕ
  truncatedRecords : ℕ
  retainedRecords : ℕ
  logicalRetainedBytes : ℕ
  physicalRetainedBytes : ℕ
  payloadCapacityBytes : ℕ
  activeProducerSlots : ℕ
  retiringProducerSlots : ℕ
  accountingSampleConsistent : Bool
  deriving DecidableEq, Repr

/-- `ProducerKernel::GetSnapshot`. -/
def Frontend.getSnapshot (config : ValidConfig) (s : Frontend) : KernelSnapshot :=
  let m := s.kernel.memory
  let slots := Finset.range config.producerSlots
  let accepted := m.nextAdmissionSequence
  let consumed := m.consumedRecords
  let noProducer := ∑ shard ∈ Finset.range maximumProducerSlots, s.missing shard
  let laneFull := ∑ p ∈ slots, (m.counters p).rejectedLaneFull
  let budget := ∑ p ∈ slots, (m.counters p).rejectedBudget
  let abandoned := ∑ p ∈ slots, (m.counters p).abandonedBuilds
  let producerInvalid := ∑ p ∈ slots, (m.counters p).invalidRecords
  let ledger := m.ledger.getSnapshot
  { attemptedRecords := accepted + noProducer + laneFull + budget + abandoned + producerInvalid
    acceptedRecords := accepted
    consumedRecords := consumed
    rejectedNoProducer := noProducer
    rejectedLaneFull := laneFull
    rejectedBudget := budget
    abandonedBuilds := abandoned
    invalidRecords := producerInvalid + m.validationErrors
    truncatedRecords := ∑ p ∈ slots, (m.counters p).truncatedRecords
    retainedRecords := if consumed ≤ accepted then accepted - consumed else 0
    logicalRetainedBytes := ledger.logicalRetainedBytes
    physicalRetainedBytes := ledger.physicalRetainedBytes
    payloadCapacityBytes := config.payloadCapacityBytes
    activeProducerSlots := (slots.filter fun p ↦ (m.controls p).state = .active).card
    retiringProducerSlots := (slots.filter fun p ↦
      (m.controls p).state = .retiring ∨ (m.controls p).state = .reconciling).card
    accountingSampleConsistent := ledger.sampleConsistent }

/-! ## Counters of the memory -/

/-- The counter of a producer slot. -/
def ProducerCounters.read (x : ProducerCounters) : AttemptCounter → ℕ
  | .accepted | .noProducer => 0
  | .laneFull => x.rejectedLaneFull
  | .budget => x.rejectedBudget
  | .abandoned => x.abandonedBuilds
  | .invalid => x.invalidRecords
  | .truncated => x.truncatedRecords

namespace KernelMemory

/-- The part of a counter that belongs to no producer slot. -/
def shared (m : KernelMemory) : AttemptCounter → ℕ
  | .accepted => m.nextAdmissionSequence
  | .noProducer => m.missingProducers
  | _ => 0

/-- A counter, over all producer slots. -/
def total (config : ValidConfig) (m : KernelMemory) (c : AttemptCounter) : ℕ :=
  m.shared c + ∑ p ∈ Finset.range config.producerSlots, (m.counters p).read c

variable {config : ValidConfig} {m m' : KernelMemory} {slot : ℕ} {c : AttemptCounter}

theorem total_congr (h : m.SameCounters m') : m'.total config c = m.total config c := by
  rw [total, total, h.counters]
  cases c <;> simp only [shared, h.missingProducers, h.nextAdmissionSequence]

theorem total_countMissing :
    m.countMissing.total config c = m.total config c + if c = .noProducer then 1 else 0 := by
  cases c <;> simp [total, shared, countMissing]
  omega

theorem total_count (hslot : slot < config.producerSlots) {g : ProducerCounters → ProducerCounters}
    {d : ℕ} (hg : (g (m.counters slot)).read c = (m.counters slot).read c + d) :
    (m.count slot g).total config c = m.total config c + d := by
  have hsum := sum_update_add (Finset.mem_range.mpr hslot) m.counters (·.read c)
    (g (m.counters slot))
  have hshared : (m.count slot g).shared c = m.shared c := by cases c <;> rfl
  rw [total, total, hshared]
  change _ + ∑ p ∈ _, (Function.update m.counters slot (g (m.counters slot)) p).read c = _
  omega

end KernelMemory

namespace ProducerCounters

variable (x : ProducerCounters) (c : AttemptCounter)

theorem read_laneFull : x.laneFull.read c = x.read c + if c = .laneFull then 1 else 0 := by
  cases c <;> rfl

theorem read_budget : x.budget.read c = x.read c + if c = .budget then 1 else 0 := by
  cases c <;> rfl

theorem read_abandoned : x.abandoned.read c = x.read c + if c = .abandoned then 1 else 0 := by
  cases c <;> rfl

theorem read_invalid : x.invalid.read c = x.read c + if c = .invalid then 1 else 0 := by
  cases c <;> rfl

theorem read_truncated (truncated : Bool) : (x.truncated truncated).read c =
    x.read c + if truncated ∧ c = .truncated then 1 else 0 := by
  cases truncated <;> cases c <;> rfl

end ProducerCounters

/-! ## Steps of a publication -/

theorem AttemptResult.counter_ne_truncated (r : AttemptResult) : r.counter ≠ .truncated := by
  rw [counter]
  split
  · nofun
  · split
    · nofun
    · nofun
    · nofun
    · nofun
    all_goals split <;> nofun

theorem weight_none (c : AttemptCounter) : weight none c = 0 := rfl

theorem weight_some (hr : r.isTruncated = false) (c : AttemptCounter) :
    weight (some r) c = if c = r.counter then 1 else 0 := by
  have hcounts : r.counts c = decide (c = r.counter) := by
    cases c with
    | truncated =>
      rw [AttemptResult.counts, hr, decide_eq_false r.counter_ne_truncated.symm]
    | _ => simp only [AttemptResult.counts, beq_eq_decide, eq_comm]
  rw [weight, Option.any_some, hcounts]
  simp only [decide_eq_true_eq]

/-- What is known of the result of a publication: only an accepted one has a sequence, and after a
failed build the call is on its way out. -/
def PublishFrame.Reports (f : PublishFrame) (built : Option BuildStatus) : Prop :=
  match f.pc with
  | .unwind _ outcome => outcome ≠ some .accepted
  | .done result => ∀ r ∈ result, r.outcome = .accepted ↔ r.admissionSequence ≠ none
  | _ => built ≠ some .invalid

/-- What a step of a publication does to the counters. -/
structure CountStep (config : ValidConfig) (m : KernelMemory) (d : Option AttemptResult)
    (m' : KernelMemory) (f' : PublishFrame) (built' : Option BuildStatus) : Prop where
  reports : f'.Reports built'
  total : ∀ c, m'.total config c + weight d c = m.total config c + weight (f'.decided built') c

variable {conv : Charconv} {config : ValidConfig} {m m' : KernelMemory}
  {admissions : List Admission} {f f' : PublishFrame} {choice : StepChoice}
  {built built' : Option BuildStatus} {d : Option AttemptResult}

theorem CountStep.silent (hreports : f'.Reports built') (hdecided : f'.decided built' = d)
    (hm : m.SameCounters m') : CountStep config m d m' f' built' := by
  refine ⟨hreports, fun c ↦ ?_⟩
  rw [hdecided, KernelMemory.total_congr hm]

theorem CountStep.bump (hreports : f'.Reports built') (hdecided : f'.decided built' = some r)
    (hr : r.isTruncated = false)
    (htotal : ∀ c, m'.total config c = m.total config c + if c = r.counter then 1 else 0) :
    CountStep config m none m' f' built' := by
  refine ⟨hreports, fun c ↦ ?_⟩
  rw [hdecided, weight_some hr, htotal c, weight_none, Nat.add_zero]

theorem CountStep.missing (hreports : f'.Reports built')
    (hdecided : f'.decided built' = some ⟨some { outcome := .noProducerSlot }, built'⟩) :
    CountStep config m none m.countMissing f' built' :=
  .bump hreports hdecided rfl fun _ ↦ KernelMemory.total_countMissing

theorem CountStep.count {m₁ : KernelMemory} {slot : ℕ} {g : ProducerCounters → ProducerCounters}
    (hslot : slot < config.producerSlots) (hm : m.SameCounters m₁) (hreports : f'.Reports built')
    (hdecided : f'.decided built' = some r) (hr : r.isTruncated = false)
    (hg : ∀ x c, (g x).read c = x.read c + if c = r.counter then 1 else 0) :
    CountStep config m none (m₁.count slot g) f' built' := by
  refine .bump hreports hdecided hr fun c ↦ ?_
  rw [KernelMemory.total_count hslot (hg _ c), KernelMemory.total_congr hm]

theorem CountStep.invalid {m₁ : KernelMemory} {slot : ℕ} (hslot : slot < config.producerSlots)
    (hbuilt : built ≠ some .invalid) (hm : m.SameCounters m₁) (hreports : f'.Reports built)
    (hdecided : f'.decided built = some ⟨some { outcome := .invalidRecord }, built⟩) :
    CountStep config m none (m₁.count slot ProducerCounters.invalid) f' built := by
  have hcounter : AttemptResult.counter ⟨some { outcome := .invalidRecord }, built⟩ = .invalid :=
    if_neg hbuilt
  refine .count hslot hm hreports hdecided rfl fun x c ↦ ?_
  rw [hcounter, ProducerCounters.read_invalid]

theorem publishStep_countStep (hok : f.Ok conv config m admissions) (hreports : f.Reports built)
    (hstep : publishStep conv config m f choice = some (m', f')) :
    CountStep config m (f.decided built) m' f' (f.builtAfter choice built) := by
  have hslot := hok.slot_lt
  have hanswer : ∀ o, o ≠ .accepted → (f.answer o).Reports built := by
    rintro o ho r ⟨⟩
    exact ⟨fun h ↦ absurd h ho, fun h ↦ absurd rfl h⟩
  unfold PublishFrame.Reports at hreports
  rw [PublishFrame.decided]
  rw [PublishFrame.builtAfter]
  rw [publishStep] at hstep
  cases hpc : f.pc <;> rw [hpc] at hstep hreports hslot <;>
    simp only [ne_eq, reduceCtorEq, not_false_eq_true, implies_true, forall_const] at hslot <;>
    try dsimp only at hstep
  case activeState | activeGeneration =>
    split at hstep <;> cases hstep
    · exact .silent hreports rfl ⟨rfl, rfl, rfl⟩
    · exact .missing (hanswer _ (by decide)) rfl
  case testAndSet =>
    split at hstep <;> cases hstep
    · exact .count hslot ⟨rfl, rfl, rfl⟩ (hanswer _ (by decide)) rfl rfl
        ProducerCounters.read_laneFull
    · exact .silent hreports rfl ⟨rfl, rfl, rfl⟩
  case loadPositions | emplace =>
    split at hstep <;> cases hstep <;> exact .silent hreports rfl ⟨rfl, rfl, rfl⟩
  case clearFull =>
    cases hstep
    exact .count hslot ⟨rfl, rfl, rfl⟩ (hanswer _ (by decide)) rfl rfl
      ProducerCounters.read_laneFull
  case admission | recheckState =>
    split at hstep <;> cases hstep
    · exact .silent hreports rfl ⟨rfl, rfl, rfl⟩
    · exact .missing (by rintro ⟨⟩) rfl
  case recheckGeneration =>
    split at hstep
    · cases hstep
      exact .missing (by rintro ⟨⟩) rfl
    · split at hstep
      · cases hstep
        exact .invalid hslot hreports ⟨rfl, rfl, rfl⟩ (by rintro ⟨⟩) rfl
      · split at hstep <;> cases hstep
        · exact .count hslot ⟨rfl, rfl, rfl⟩ (by rintro ⟨⟩) rfl rfl
            ProducerCounters.read_budget
        · exact .silent hreports rfl ⟨rfl, rfl, rfl⟩
  case reserve call =>
    split at hstep <;> cases hstep
    · exact .silent hreports rfl ⟨rfl, rfl, rfl⟩
    · exact .count hslot ⟨rfl, rfl, rfl⟩ (by rintro ⟨⟩) rfl rfl
        ProducerCounters.read_budget
    · exact .silent hreports rfl ⟨rfl, rfl, rfl⟩
  case begin =>
    split at hstep
    · cases hstep
      exact .invalid hslot hreports ⟨rfl, rfl, rfl⟩ (by rintro ⟨⟩) rfl
    · split at hstep <;> cases hstep
      · exact .silent hreports rfl ⟨rfl, rfl, rfl⟩
      · exact .invalid hslot hreports ⟨rfl, rfl, rfl⟩ (by rintro ⟨⟩) rfl
  case building =>
    dsimp only at hstep ⊢
    split at hstep <;> rename_i hbuild <;> cases hstep <;> rw [hbuild]
    · refine .silent ?_ ?_ ⟨rfl, rfl, rfl⟩
      · simpa only [PublishFrame.Reports, hpc] using hreports
      · simp only [PublishFrame.decided]
    · exact .silent (by rintro ⟨⟩) rfl ⟨rfl, rfl, rfl⟩
    · exact .count hslot ⟨rfl, rfl, rfl⟩ (by rintro ⟨⟩) rfl rfl
        ProducerCounters.read_abandoned
    · exact .count hslot ⟨rfl, rfl, rfl⟩ (by rintro ⟨⟩) rfl rfl
        ProducerCounters.read_abandoned
  case publishRecord =>
    split at hstep
    · cases hstep
      exact .invalid hslot hreports ⟨rfl, rfl, rfl⟩ (by rintro ⟨⟩) rfl
    · split at hstep <;> cases hstep
      · exact .invalid hslot hreports ⟨rfl, rfl, rfl⟩ (by rintro ⟨⟩) rfl
      · exact .silent hreports rfl ⟨rfl, rfl, rfl⟩
  case commit | storeRecord | finishEmplace | writeEnvelope | publishPosition =>
    cases hstep
    exact .silent hreports rfl ⟨rfl, rfl, rfl⟩
  case finishCommit =>
    split at hstep <;> cases hstep
    · exact .silent hreports rfl ⟨rfl, rfl, rfl⟩
    · exact .invalid hslot hreports ⟨rfl, rfl, rfl⟩ (by rintro ⟨⟩) rfl
  case fetchSequence =>
    split at hstep <;> cases hstep
    · refine .bump (r := ⟨some { outcome := .accepted }, built⟩) hreports rfl rfl fun c ↦ ?_
      cases c <;> simp [KernelMemory.total, KernelMemory.shared, AttemptResult.counter]
      omega
    · exact .invalid hslot hreports ⟨rfl, rfl, rfl⟩ (by rintro ⟨⟩) rfl
  case clear =>
    cases hstep
    refine ⟨?_, fun c ↦ ?_⟩
    · rintro r ⟨⟩
      exact ⟨fun _ ↦ (by rintro ⟨⟩), fun _ ↦ rfl⟩
    · have hcount := KernelMemory.total_count hslot
        (m := m.setPublishing f.slot false) (g := (·.truncated f.record.truncated))
        (ProducerCounters.read_truncated _ c _)
      have hsame : (m.setPublishing f.slot false).total config c = m.total config c :=
        KernelMemory.total_congr ⟨rfl, rfl, rfl⟩
      rw [hcount, hsame]
      cases hrecord : f.record.truncated <;> cases c <;>
        simp [weight, PublishFrame.decided, PublishFrame.goto, AttemptResult.counts,
          AttemptResult.isTruncated, AttemptResult.counter]
  case unwind stages outcome =>
    cases stages with
    | nil =>
      cases hstep
      refine .silent ?_ rfl ⟨rfl, rfl, rfl⟩
      rintro r hr
      obtain ⟨o, ho, rfl⟩ := Option.map_eq_some_iff.mp hr
      exact ⟨fun h ↦ absurd (ho.trans (congrArg some h)) hreports, fun h ↦ absurd rfl h⟩
    | cons stage stages =>
      cases hstep
      refine .silent hreports rfl ?_
      cases stage <;> exact ⟨rfl, rfl, rfl⟩
  case done result =>
    cases hstep

/-! ## Steps of other calls -/

theorem Kernel.Move.uncounted {k k' : Kernel} (h : k.Move conv config action k')
    (hcall : ∀ t ∈ action.thread, ∀ f, k.calls t ≠ .publish f) :
    k.memory.SameCounters k'.memory ∧ k'.memory.consumedRecords + k.memory.nextSequence =
      k.memory.consumedRecords + k'.memory.nextSequence ∧ k'.returned = k.returned := by
  have hother : ∀ {m'}, k.memory.Uncounted m' → k.memory.SameCounters m' ∧
      m'.consumedRecords + k.memory.nextSequence = k.memory.consumedRecords + m'.nextSequence ∧
      k.returned = k.returned := fun h ↦ ⟨h.toSameCounters, h.consumed, rfl⟩
  cases h with
  | enter _ _ | closeAdmission | «return» _ _ => exact ⟨⟨rfl, rfl, rfl⟩, rfl, rfl⟩
  | publish hf _ => exact absurd hf (hcall _ rfl _)
  | consume _ hstep => exact hother (consumeStep_uncounted hstep)
  | retire _ hstep => exact hother (ControlEffect.of_retireProducerStep hstep).uncounted
  | quiescent _ hstep => exact hother (ControlEffect.of_quiescentStep hstep).uncounted
  | register _ hstep => exact hother (ControlEffect.of_registerStep hstep).uncounted
  | returnPublish hf _ => exact absurd hf (hcall _ rfl _)

theorem Kernel.Move.not_publish {k k' : Kernel} (h : k.Move conv config action k')
    (hpublish : ∀ t slot generation level source hasOperation,
      action ≠ .publish t slot generation level source hasOperation)
    (hcall : ∀ t ∈ action.thread, ∀ f, k.calls t ≠ .publish f) :
    ∀ t ∈ action.thread, ∀ f, k'.calls t ≠ .publish f := by
  intro t ht f hcalls
  have hother : ∀ {call}, Function.update k.calls t call t = .publish f → call = .publish f :=
    fun heq ↦ (Function.update_self ..).symm.trans heq
  cases h with
  | enter _ hentry =>
    cases hentry with
    | publish => exact hpublish _ _ _ _ _ _ rfl
    | consume | retire | quiescent | register =>
      cases Option.some.inj ht
      exact nomatch hother hcalls
  | closeAdmission => cases ht
  | publish hf _ => exact hcall _ rfl _ hf
  | returnPublish hf _ => exact hcall _ rfl _ hf
  | consume | retire | quiescent | register | «return» =>
    cases Option.some.inj ht
    exact nomatch hother hcalls

/-! ## The invariant -/

namespace Frontend

/-- The result of the thread's attempt as the counters know it. -/
def decided (s : Frontend) (t : ℕ) : Option AttemptResult :=
  (s.attempts t).bind (·.decided (s.kernel.calls t))

/-- The invariant of the kernel behind its entry points. -/
structure Inv (conv : Charconv) (config : ValidConfig) (s : Frontend) : Prop where
  kernel : s.kernel.Inv conv config
  consumed : s.kernel.memory.consumedRecords = s.kernel.memory.nextSequence
  publishing : ∀ t f, s.kernel.calls t = .publish f →
    ∃ a, s.attempts t = some a ∧ a.pc = .publish ∧ f.Reports a.built
  shards : ∑ shard ∈ Finset.range maximumProducerSlots, s.missing shard =
    s.kernel.memory.missingProducers
  sequences : s.ended.filterMap (·.acceptedSequence) = s.kernel.returned.map (·.1)
  accepted : ∀ r ∈ s.ended, r.isAccepted = true → r.acceptedSequence ≠ none
  reached : ∃ n, Tallies (fun t ↦ (s.attempts t).isSome.toNat) n ∧ s.reached = s.ended.length + n
  counters : ∀ c, ∃ n, Tallies (fun t ↦ weight (s.decided t) c) n ∧
    s.kernel.memory.total config c = s.ended.countP (·.counts c) + n

variable {s s' : Frontend} {t : ℕ} {a : Attempt} {a' : Option Attempt} {k k' : Kernel}
  {threshold : Level} {missing : ℕ → ℕ} {reached : ℕ} {ended : List AttemptResult}

/-- One thread moves, and the books move with it. -/
theorem Inv.move (h : s.Inv conv config) (hkernel : k.Inv conv config)
    (hconsumed : k.memory.consumedRecords + s.kernel.memory.nextSequence =
      s.kernel.memory.consumedRecords + k.memory.nextSequence)
    (hcalls : ∀ t', t' ≠ t → k.calls t' = s.kernel.calls t')
    (hpublishing : ∀ f, k.calls t = .publish f →
      ∃ a, a' = some a ∧ a.pc = .publish ∧ f.Reports a.built)
    (hshards : ∑ shard ∈ Finset.range maximumProducerSlots, missing shard =
      k.memory.missingProducers)
    (hsequences : ended.filterMap (·.acceptedSequence) = k.returned.map (·.1))
    (haccepted : ∀ r ∈ ended, r.isAccepted = true → r.acceptedSequence ≠ none)
    (hreached : reached + (s.attempts t).isSome.toNat + s.ended.length =
      s.reached + a'.isSome.toNat + ended.length)
    (hcounters : ∀ c,
      k.memory.total config c + weight (s.decided t) c + s.ended.countP (·.counts c) =
      s.kernel.memory.total config c + weight (a'.bind (·.decided (k.calls t))) c +
        ended.countP (·.counts c)) :
    Inv conv config ⟨k, threshold, missing, Function.update s.attempts t a', reached, ended⟩ := by
  have hconsumed' : k.memory.consumedRecords = k.memory.nextSequence := by
    have := h.consumed
    omega
  refine ⟨hkernel, hconsumed', fun t' f hf ↦ ?_, hshards, hsequences, haccepted, ?_, fun c ↦ ?_⟩
  · change ∃ a, Function.update s.attempts t a' t' = some a ∧ _
    by_cases ht : t' = t
    · subst ht
      rw [Function.update_self]
      exact hpublishing f hf
    · rw [Function.update_of_ne ht]
      exact h.publishing t' f ((hcalls t' ht).symm.trans hf)
  · obtain ⟨n, hn, heq⟩ := h.reached
    obtain ⟨n', hn', heq'⟩ := hn.move t (v := fun t' ↦
      (Function.update s.attempts t a' t').isSome.toNat) fun t' ht ↦ by
        rw [Function.update_of_ne ht]
    refine ⟨n', hn', ?_⟩
    rw [Function.update_self] at heq'
    dsimp only
    omega
  · obtain ⟨n, hn, heq⟩ := h.counters c
    obtain ⟨n', hn', heq'⟩ := hn.move t (v := fun t' ↦
      weight ((Function.update s.attempts t a' t').bind (·.decided (k.calls t'))) c) fun t' ht ↦ by
        rw [Function.update_of_ne ht, hcalls t' ht]
        rfl
    refine ⟨n', hn', ?_⟩
    have := hcounters c
    rw [Function.update_self] at heq'
    dsimp only
    omega

/-- The shards add up, whichever of them is bumped. -/
theorem Inv.sum_shards (h : s.Inv conv config) (hshard : shard < maximumProducerSlots)
    (hmissing : k.memory.missingProducers = s.kernel.memory.missingProducers ∨
      k.memory.missingProducers = s.kernel.memory.missingProducers + 1) :
    ∑ i ∈ Finset.range maximumProducerSlots, (s.countShard shard k).missing i =
      k.memory.missingProducers := by
  have hsum := sum_update_add (Finset.mem_range.mpr hshard) s.missing id (s.missing shard + 1)
  have hshards := h.shards
  rw [countShard]
  dsimp only [id] at hsum ⊢
  split
  · next heq => rw [heq, hshards]
  · next hne =>
    have := hmissing.resolve_left hne
    omega

theorem Inv.open (h : s.Inv conv config) (hidle : s.attempts t = none)
    (hcall : s.kernel.calls t = .idle) (hdecided : ∀ call, a.decided call = none) :
    Inv conv config
      ({ s with reached := s.reached + 1 }.setAttempt t (some a)) := by
  refine h.move h.kernel rfl (fun _ _ ↦ rfl) (fun f hf ↦ ?_) h.shards h.sequences h.accepted ?_
    fun c ↦ ?_
  · rw [hcall] at hf
    cases hf
  · simp [hidle]
  · rw [Option.bind_some, hdecided, decided, hidle, Option.bind_none]

section

variable (h : s.Inv conv config) (ha : s.attempts t = some a)

include h ha

theorem Inv.goto (hdecided : ∀ call, a.decided call = none) {b : Attempt}
    (hdecided' : ∀ call, b.decided call = none) (hpc : a.pc ≠ .publish) :
    Inv conv config (s.setAttempt t (some b)) := by
  refine h.move h.kernel rfl (fun _ _ ↦ rfl) (fun f hf ↦ ?_) h.shards h.sequences h.accepted ?_
    fun c ↦ ?_
  · obtain ⟨a', ha', hpc', -⟩ := h.publishing t f hf
    cases ha.symm.trans ha'
    exact absurd hpc' hpc
  · simp [ha]
  · rw [Option.bind_some, hdecided', decided, ha, Option.bind_some, hdecided]

theorem Inv.enter (hdecided : ∀ call, a.decided call = none) (slot generation : ℕ)
    (hs : s.enter conv config t slot generation a = some s') : s'.Inv conv config := by
  obtain ⟨k, hk, rfl⟩ := Option.map_eq_some_iff.mp hs
  have hkernel := h.kernel.step hk
  cases Kernel.Move.of_step hk with
  | enter hidle hcall =>
    cases hcall
    refine h.move hkernel rfl (fun t' ht ↦ Function.update_of_ne ht ..) (fun f hf ↦ ?_) h.shards
      h.sequences h.accepted ?_ fun c ↦ ?_
    · cases (Function.update_self ..).symm.trans hf
      exact ⟨_, rfl, rfl, nofun⟩
    · simp [ha]
    · rw [decided, ha, Option.bind_some, Option.bind_some, hdecided]
      dsimp only [Kernel.setCall]
      rw [Function.update_self]
      rfl

theorem Inv.countMissing (hpc : a.pc = .missing) (hshard : shard < maximumProducerSlots) :
    Inv conv config
      ((s.countShard shard { s.kernel with memory := s.kernel.memory.countMissing }).setAttempt t
        (some { a with pc := .rejected })) := by
  refine h.move (h.kernel.sameIngress ⟨rfl, rfl, rfl, rfl⟩) rfl (fun _ _ ↦ rfl) (fun f hf ↦ ?_)
    (h.sum_shards hshard (.inr rfl)) h.sequences h.accepted ?_ fun c ↦ ?_
  · obtain ⟨a', ha', hpc', -⟩ := h.publishing t f hf
    cases ha.symm.trans ha'
    exact absurd (hpc.symm.trans hpc') nofun
  · rw [ha]
    rfl
  · have hnone : s.decided t = none := by
      simp [decided, ha, Attempt.decided, hpc]
    change s.kernel.memory.countMissing.total config c + weight (s.decided t) c + _ =
      _ + weight (some ⟨some { outcome := .noProducerSlot }, none⟩) c + _
    rw [hnone, weight_none, weight_some rfl, KernelMemory.total_countMissing]
    rfl

theorem Inv.publish (hpc : a.pc = .publish) {f : PublishFrame} (hf : s.kernel.calls t = .publish f)
    (hshard : shard < maximumProducerSlots)
    (hk : s.kernel.step conv config (.advance t choice) = some k) :
    Inv conv config ((s.countShard shard k).setAttempt t
      (some { a with built := f.builtAfter choice a.built })) := by
  obtain ⟨a', ha', -, hreports⟩ := h.publishing t f hf
  cases ha.symm.trans ha'
  have hkernel := h.kernel.step hk
  obtain ⟨m', f', hstep, rfl⟩ := Kernel.advance_publish hf hk
  have hcount := publishStep_countStep (h.kernel.frames t f hf) hreports hstep
  obtain ⟨-, hconsumed, hnext, hmissing, -⟩ := publishStep_unconsumed hstep
  refine h.move hkernel ?_ (fun t' ht ↦ Function.update_of_ne ht ..) (fun g hg ↦ ?_)
    (h.sum_shards hshard hmissing) h.sequences h.accepted ?_ fun c ↦ ?_
  · change m'.consumedRecords + _ = _ + m'.nextSequence
    rw [hconsumed, hnext]
  · cases (Function.update_self ..).symm.trans hg
    exact ⟨_, rfl, hpc, hcount.reports⟩
  · rw [ha]
    rfl
  · have hbefore : s.decided t = f.decided a.built := by
      rw [decided, ha, Option.bind_some, hf, Attempt.decided_publish hpc]
    have hcalls : (s.kernel.afterPublish t f m' f').calls t = .publish f' := Function.update_self ..
    have hafter : Attempt.decided { a with built := f.builtAfter choice a.built } (.publish f') =
        f'.decided (f.builtAfter choice a.built) := by
      simp only [Attempt.decided, hpc]
    rw [hbefore, Option.bind_some]
    change m'.total config c + _ + s.ended.countP _ = _ +
      weight (Attempt.decided _ ((s.kernel.afterPublish t f m' f').calls t)) c + s.ended.countP _
    rw [hcalls, hafter, hcount.total c]

end

theorem countP_concat (r : AttemptResult) (c : AttemptCounter) :
    (ended ++ [r]).countP (·.counts c) = ended.countP (·.counts c) + weight (some r) c := by
  rw [List.countP_append, List.countP_singleton, weight, Option.any_some]

theorem Inv.returns (h : s.Inv conv config) (ha : s.attempts t = some a)
    (hdecided : s.decided t = some r) (hkernel : k.Inv conv config)
    (hmemory : k.memory = s.kernel.memory) (hcalls : ∀ t', t' ≠ t → k.calls t' = s.kernel.calls t')
    (hcall : ∀ f, k.calls t ≠ .publish f)
    (hreturned : k.returned.map (·.1) = s.kernel.returned.map (·.1) ++ r.acceptedSequence.toList)
    (haccepted : r.isAccepted = true → r.acceptedSequence ≠ none) :
    Inv conv config ⟨k, s.threshold, s.missing, Function.update s.attempts t none, s.reached,
      s.ended ++ [r]⟩ := by
  refine h.move hkernel (by rw [hmemory]) hcalls (fun f hf ↦ absurd hf (hcall f)) ?_ ?_ ?_ ?_
    fun c ↦ ?_
  · rw [hmemory]
    exact h.shards
  · rw [hreturned, List.filterMap_append, h.sequences]
    cases hr : r.acceptedSequence <;> simp [hr]
  · intro r' hr'
    rcases List.mem_append.mp hr' with hr' | hr'
    · exact h.accepted r' hr'
    · rw [List.mem_singleton.mp hr']
      exact haccepted
  · simp [ha]
    omega
  · rw [hdecided, hmemory, countP_concat, Option.bind_none, weight_none]
    omega

/-- Only an accepted result has a sequence, and it has one. -/
theorem acceptedSequence_of_reports {f : PublishFrame} {result : Option PublishResult}
    (hpc : f.pc = .done result) {built : Option BuildStatus} (hreports : f.Reports built) :
    AttemptResult.acceptedSequence ⟨result, built⟩ = result.bind (·.admissionSequence) ∧
      (AttemptResult.isAccepted ⟨result, built⟩ = true →
        AttemptResult.acceptedSequence ⟨result, built⟩ ≠ none) := by
  rw [PublishFrame.Reports, hpc] at hreports
  cases result with
  | none => exact ⟨rfl, nofun⟩
  | some r =>
    have hiff := hreports r rfl
    have hsequence : AttemptResult.acceptedSequence ⟨some r, built⟩ =
        if r.outcome = .accepted then r.admissionSequence else none := rfl
    rw [hsequence]
    by_cases houtcome : r.outcome = .accepted
    · rw [if_pos houtcome]
      exact ⟨rfl, fun _ ↦ hiff.mp houtcome⟩
    · rw [if_neg houtcome]
      refine ⟨by_contra fun hne ↦ houtcome (hiff.mpr (Ne.symm hne)), fun haccepted ↦ ?_⟩
      exact absurd (by simpa [AttemptResult.isAccepted] using haccepted) houtcome

theorem Inv.finish (h : s.Inv conv config) (ha : s.attempts t = some a)
    (hs : s.finish conv config t a = some s') : s'.Inv conv config := by
  rw [Frontend.finish] at hs
  split at hs
  · next hpc =>
    cases hs
    have hdecided : s.decided t = some ⟨some { outcome := .noProducerSlot }, none⟩ := by
      rw [decided, ha, Option.bind_some, Attempt.decided_rejected hpc]
    have hcall : ∀ f, s.kernel.calls t ≠ .publish f := fun f hf ↦ by
      obtain ⟨a', ha', hpc', -⟩ := h.publishing t f hf
      cases ha.symm.trans ha'
      exact absurd (hpc.symm.trans hpc') nofun
    exact h.returns ha hdecided h.kernel rfl (fun _ _ ↦ rfl) hcall (List.append_nil _).symm nofun
  · next hpc =>
    split at hs
    · next f hf =>
      split at hs
      · next result hdone =>
        obtain ⟨k, hk, rfl⟩ := Option.map_eq_some_iff.mp hs
        obtain ⟨a', ha', -, hreports⟩ := h.publishing t f hf
        cases ha.symm.trans ha'
        have hkernel := h.kernel.step hk
        have hdecided : s.decided t = some ⟨result, a.built⟩ := by
          rw [decided, ha, Option.bind_some, hf, Attempt.decided_publish hpc]
          simp only [PublishFrame.decided, hdone]
        cases Kernel.Move.of_step hk with
        | enter _ hcall => cases hcall
        | returnPublish hf' hdone' =>
          cases hf.symm.trans hf'
          cases hdone.symm.trans hdone'
          obtain ⟨hsequence, haccepted⟩ := acceptedSequence_of_reports hdone hreports
          refine h.returns ha hdecided hkernel rfl (fun t' ht ↦ Function.update_of_ne ht ..)
            (fun g hg ↦ nomatch (Function.update_self ..).symm.trans hg) ?_ haccepted
          rw [hsequence]
          cases hseq : result.bind (·.admissionSequence) <;> simp
        | «return» hcall _ => exact absurd hf (hcall f)
      · cases hs
    · cases hs
  · cases hs

theorem Inv.other (h : s.Inv conv config) (hother : s.isOther action = true)
    (hk : s.kernel.step conv config action = some k) : Inv conv config { s with kernel := k } := by
  have hpublish : ∀ t slot generation level source hasOperation,
      action ≠ .publish t slot generation level source hasOperation := by
    rintro t slot generation level source hasOperation rfl
    cases hother
  have hnone : ∀ t ∈ action.thread, s.attempts t = none := by
    intro t ht
    have hall : action.thread.all (fun thread ↦ (s.attempts thread).isNone) = true := by
      revert hother
      cases action <;> first | exact id | exact nofun
    rw [ht, Option.all_some, Option.isNone_iff_eq_none] at hall
    exact hall
  have hcall : ∀ t ∈ action.thread, ∀ f, s.kernel.calls t ≠ .publish f := by
    intro t ht f hf
    obtain ⟨a, ha, -⟩ := h.publishing t f hf
    cases (hnone t ht).symm.trans ha
  have hmove := Kernel.Move.of_step hk
  obtain ⟨hcounts, hconsumed, hreturned⟩ := hmove.uncounted hcall
  have hcalls : ∀ t, action.thread ≠ some t → k.calls t = s.kernel.calls t :=
    fun t ht ↦ hmove.calls_of_ne ht
  have hdecided : ∀ t, decided { s with kernel := k } t = s.decided t := by
    intro t
    rw [decided, decided]
    by_cases ht : action.thread = some t
    · rw [hnone t ht, Option.bind_none, Option.bind_none]
    · rw [hcalls t ht]
  refine ⟨h.kernel.step hk, ?_, fun t f hf ↦ ?_, ?_, ?_, h.accepted, h.reached, fun c ↦ ?_⟩
  · have := h.consumed
    dsimp only
    omega
  · by_cases ht : action.thread = some t
    · exact absurd hf (hmove.not_publish hpublish hcall t ht f)
    · rw [hcalls t ht] at hf
      exact h.publishing t f hf
  · rw [hcounts.missingProducers]
    exact h.shards
  · rw [hreturned]
    exact h.sequences
  · simp only [hdecided]
    rw [KernelMemory.total_congr hcounts]
    exact h.counters c

theorem eq_none_of_not_isBusy (hbusy : ¬s.isBusy t = true) :
    s.attempts t = none ∧ s.kernel.calls t = .idle := by
  rw [isBusy, Bool.or_eq_true, not_or, Option.not_isSome_iff_eq_none] at hbusy
  refine ⟨hbusy.1, ?_⟩
  revert hbusy
  cases s.kernel.calls t <;> simp

theorem Inv.advance (h : s.Inv conv config) (ha : s.attempts t = some a)
    (hshard : shard < maximumProducerSlots)
    (hs : s.advance conv config t a choice shard = some s') :
    s'.Inv conv config := by
  rw [Frontend.advance] at hs
  split at hs
  · next hpc =>
    cases hs
    exact h.countMissing ha hpc hshard
  · next hpc =>
    have hdecided : ∀ call, a.decided call = none := fun call ↦ by simp [Attempt.decided, hpc]
    have hne : a.pc ≠ .publish := by rw [hpc]; nofun
    split at hs <;> cases hs <;> exact h.goto ha hdecided (fun _ ↦ rfl) hne
  · next hpc =>
    have hdecided : ∀ call, a.decided call = none := fun call ↦ by simp [Attempt.decided, hpc]
    split at hs
    · exact h.enter ha hdecided _ _ hs
    · cases hs
      exact h.goto ha hdecided (fun _ ↦ rfl) (by rw [hpc]; nofun)
  · next hpc =>
    split at hs
    · next hf =>
      obtain ⟨k, hk, rfl⟩ := Option.map_eq_some_iff.mp hs
      exact h.publish ha hpc hf hshard hk
    · cases hs
  · cases hs

theorem Inv.step (h : s.Inv conv config) {action : FrontendAction}
    (hs : s.step conv config action = some s') : s'.Inv conv config := by
  cases action with
  | tryPublish t owned slot generation level source hasOperation =>
    obtain ⟨hbusy, hs⟩ := Option.ite_none_left_eq_some.mp hs
    obtain ⟨hnone, hidle⟩ := eq_none_of_not_isBusy hbusy
    split at hs
    · cases hs
      exact h
    · have hopen : Inv conv config ({ s with reached := s.reached + 1 }.setAttempt t
          (some ⟨.missing, level, source, hasOperation, none⟩)) := h.open hnone hidle fun _ ↦ rfl
      dsimp only at hs
      split at hs
      · have hattempt : (setAttempt { s with reached := s.reached + 1 } t
            (some ⟨.missing, level, source, hasOperation, none⟩)).attempts t =
            some ⟨.missing, level, source, hasOperation, none⟩ := Function.update_self ..
        refine hopen.enter hattempt (fun _ ↦ rfl) slot generation (Eq.trans ?_ hs)
        simp only [Frontend.enter, setAttempt, Function.update_idem]
      · cases hs
        exact hopen
  | logMessage t found level source =>
    obtain ⟨hbusy, hs⟩ := Option.ite_none_left_eq_some.mp hs
    obtain ⟨hnone, hidle⟩ := eq_none_of_not_isBusy hbusy
    split at hs
    · cases hs
      exact h
    · cases hs
      refine h.open hnone hidle fun call ↦ ?_
      cases found <;> rfl
  | advance t choice shard =>
    rw [Frontend.step] at hs
    split at hs
    · next ha =>
      obtain ⟨hshard, hs⟩ := Option.ite_none_right_eq_some.mp hs
      exact h.advance ha hshard hs
    · cases hs
  | «return» t =>
    rw [Frontend.step] at hs
    split at hs
    · next ha => exact h.finish ha hs
    · cases hs
  | setLevel level =>
    cases hs
    exact { h with }
  | other action =>
    obtain ⟨hother, hs⟩ := Option.ite_none_right_eq_some.mp hs
    obtain ⟨k, hk, rfl⟩ := Option.map_eq_some_iff.mp hs
    exact h.other hother hk

theorem inv_init : (machine conv config).init.Inv conv config := by
  refine ⟨Kernel.inv_init, rfl, fun t f hf ↦ ?_, ?_, rfl, fun r hr ↦ ?_,
    ⟨0, .zero fun _ ↦ rfl, rfl⟩, fun c ↦ ⟨0, .zero fun _ ↦ rfl, ?_⟩⟩
  · cases (show KernelCall.idle = .publish f from hf)
  · exact Finset.sum_const_zero
  · cases (show r ∈ [] from hr)
  · have hread : ∀ p, (((machine conv config).init.kernel.memory.counters p).read c) = 0 := by
      intro p
      cases c <;> rfl
    rw [KernelMemory.total, Finset.sum_congr rfl fun p _ ↦ hread p, Finset.sum_const_zero]
    cases c <;> rfl

theorem Inv.of_reachable (h : (machine conv config).Reachable s) : s.Inv conv config :=
  h.invariant inv_init fun _ _ _ hs hstep ↦ hs.step hstep

/-! ## The snapshot -/

theorem sum_countP_counts (l : List AttemptResult) :
    l.countP (·.counts .accepted) + l.countP (·.counts .noProducer) +
      l.countP (·.counts .laneFull) + l.countP (·.counts .budget) +
      l.countP (·.counts .abandoned) + l.countP (·.counts .invalid) = l.length := by
  induction l with
  | nil => rfl
  | cons r l ih =>
    have hne := r.counter_ne_truncated
    simp only [List.countP_cons, List.length_cons, AttemptResult.counts]
    simp only [AttemptResult.counts] at ih
    cases hcounter : r.counter
    case truncated => exact absurd hcounter hne
    all_goals
      simp
      omega

/-- What `GetSnapshot` reports when no attempt is open. -/
structure Accounted (config : ValidConfig) (s : Frontend) : Prop where
  /-- Every call that passed the level filter has ended, and was counted. -/
  attempted : (s.getSnapshot config).attemptedRecords = s.reached ∧ s.ended.length = s.reached
  /-- Each of them in the one counter of its outcome. -/
  accepted : (s.getSnapshot config).acceptedRecords = s.ended.countP (·.isAccepted)
  noProducer : (s.getSnapshot config).rejectedNoProducer =
    s.ended.countP (·.counter = .noProducer)
  laneFull : (s.getSnapshot config).rejectedLaneFull = s.ended.countP (·.counter = .laneFull)
  budget : (s.getSnapshot config).rejectedBudget = s.ended.countP (·.counter = .budget)
  abandoned : (s.getSnapshot config).abandonedBuilds = s.ended.countP (·.counter = .abandoned)
  invalid : (s.getSnapshot config).invalidRecords =
    s.ended.countP (·.counter = .invalid) + s.kernel.memory.validationErrors
  /-- The accepted sequences are the first ones. -/
  sequences : (s.ended.filterMap (·.acceptedSequence)).Perm
    (List.range (s.getSnapshot config).acceptedRecords)
  truncated : (s.getSnapshot config).truncatedRecords = s.ended.countP (·.isTruncated)
  retained : (s.getSnapshot config).retainedRecords + (s.getSnapshot config).consumedRecords =
    (s.getSnapshot config).acceptedRecords

theorem counts_accepted (r : AttemptResult) : r.counts .accepted = r.isAccepted := by
  obtain ⟨_ | ⟨outcome, sequence, truncated⟩, built⟩ := r
  · rfl
  · cases outcome with
    | invalidRecord | filtered =>
      simp only [AttemptResult.counts, AttemptResult.counter, AttemptResult.isAccepted,
        Option.any_some]
      split <;> rfl
    | _ => rfl

theorem Inv.consumed_le (h : s.Inv conv config) :
    s.kernel.memory.consumedRecords ≤ s.kernel.memory.nextAdmissionSequence := by
  have hlength := h.kernel.consumed
  have horder := h.kernel.order
  rw [h.consumed, ← h.kernel.admissions]
  by_contra hlt
  have hmem : s.kernel.admissions.length ∈ s.kernel.consumptions.map (·.sequence) := by
    rw [horder, List.mem_range]
    omega
  obtain ⟨c, hc, hsequence⟩ := List.mem_map.mp hmem
  obtain ⟨a, slot, record, ha, -⟩ := h.kernel.consumptions c hc
  rw [hsequence, List.getElem?_eq_none le_rfl] at ha
  cases ha

/-- As many sequences as were accepted, each below their number and none of them twice. -/
theorem Inv.sequences_perm (h : s.Inv conv config)
    (hcount : s.kernel.memory.nextAdmissionSequence = s.ended.countP (·.isAccepted)) :
    (s.ended.filterMap (·.acceptedSequence)).Perm
      (List.range s.kernel.memory.nextAdmissionSequence) := by
  have hnodup : (s.ended.filterMap (·.acceptedSequence)).Nodup := by
    rw [h.sequences]
    exact h.kernel.returnedOnce
  have hsubset : s.ended.filterMap (·.acceptedSequence) ⊆
      List.range s.kernel.memory.nextAdmissionSequence := by
    intro q hq
    rw [h.sequences] at hq
    obtain ⟨x, hx, rfl⟩ := List.mem_map.mp hq
    rw [List.mem_range, ← h.kernel.admissions]
    exact (List.getElem?_eq_some_iff.mp (h.kernel.returned x hx).1).1
  refine (hnodup.subperm hsubset).perm_of_length_le ?_
  rw [List.length_range, hcount, List.length_filterMap_eq_countP]
  refine List.countP_mono_left fun r hr haccepted ↦ ?_
  exact Option.isSome_iff_ne_none.mpr (h.accepted r hr haccepted)

theorem attempts_accounted (h : (machine conv config).Reachable s)
    (hquiet : ∀ t, s.attempts t = none) : s.Accounted config := by
  have hinv := Inv.of_reachable h
  have hcounters : ∀ c, s.kernel.memory.total config c = s.ended.countP (·.counts c) := by
    intro c
    obtain ⟨n, hn, heq⟩ := hinv.counters c
    rw [heq, hn.eq_zero fun t ↦ ?_, Nat.add_zero]
    rw [decided, hquiet t, Option.bind_none, weight_none]
  have hreached : s.ended.length = s.reached := by
    obtain ⟨n, hn, heq⟩ := hinv.reached
    rw [heq, hn.eq_zero fun t ↦ by rw [hquiet t]; rfl, Nat.add_zero]
  have haccepted : s.kernel.memory.nextAdmissionSequence = s.ended.countP (·.isAccepted) := by
    simpa [KernelMemory.total, KernelMemory.shared, ProducerCounters.read, counts_accepted]
      using hcounters .accepted
  have hmissing : ∑ shard ∈ Finset.range maximumProducerSlots, s.missing shard =
      s.ended.countP (·.counts .noProducer) := by
    rw [hinv.shards]
    simpa [KernelMemory.total, KernelMemory.shared, ProducerCounters.read]
      using hcounters .noProducer
  have hslots : ∀ c, (∀ m : KernelMemory, m.shared c = 0) →
      ∑ p ∈ Finset.range config.producerSlots, (s.kernel.memory.counters p).read c =
        s.ended.countP (·.counts c) := by
    intro c hshared
    rw [← hcounters c, KernelMemory.total, hshared, Nat.zero_add]
  have hlaneFull := hslots .laneFull fun _ ↦ rfl
  have hbudget := hslots .budget fun _ ↦ rfl
  have habandoned := hslots .abandoned fun _ ↦ rfl
  have hinvalid := hslots .invalid fun _ ↦ rfl
  refine
    { attempted := ⟨?_, hreached⟩
      accepted := haccepted
      noProducer := hmissing
      laneFull := hlaneFull
      budget := hbudget
      abandoned := habandoned
      invalid := congrArg (· + _) hinvalid
      sequences := hinv.sequences_perm haccepted
      truncated := hslots .truncated fun _ ↦ rfl
      retained := ?_ }
  · have hsum := sum_countP_counts s.ended
    simp only [counts_accepted] at hsum
    rw [← haccepted, ← hmissing, ← hlaneFull, ← hbudget, ← habandoned, ← hinvalid, hreached]
      at hsum
    exact hsum
  · have hle := hinv.consumed_le
    change (if s.kernel.memory.consumedRecords ≤ s.kernel.memory.nextAdmissionSequence then
      _ - s.kernel.memory.consumedRecords else 0) + _ = _
    rw [if_pos hle]
    exact Nat.sub_add_cancel hle

theorem attempts_of_ne {action : FrontendAction} (hs : s.step conv config action = some s')
    (ht : action.thread ≠ some t) : s'.attempts t = s.attempts t := by
  have hother : ∀ {t' a}, some t' ≠ some t → Function.update s.attempts t' a t = s.attempts t :=
    fun hne ↦ Function.update_of_ne (fun heq ↦ hne (congrArg some heq.symm)) ..
  have henter : ∀ {t' slot generation a n s'}, some t' ≠ some t →
      enter conv config { s with reached := n } t' slot generation a = some s' →
        s'.attempts t = s.attempts t := by
    intro t' slot generation a n s' hne hs
    obtain ⟨k, -, rfl⟩ := Option.map_eq_some_iff.mp hs
    exact hother hne
  cases action with
  | tryPublish t' owned slot generation level source hasOperation =>
    obtain ⟨-, hs⟩ := Option.ite_none_left_eq_some.mp hs
    split at hs
    · cases hs
      rfl
    · dsimp only at hs
      split at hs
      · exact henter ht hs
      · cases hs
        exact hother ht
  | logMessage t' found level source =>
    obtain ⟨-, hs⟩ := Option.ite_none_left_eq_some.mp hs
    split at hs <;> cases hs
    · rfl
    · exact hother ht
  | advance t' choice shard =>
    rw [step] at hs
    split at hs
    · obtain ⟨-, hs⟩ := Option.ite_none_right_eq_some.mp hs
      rw [Frontend.advance] at hs
      split at hs
      · cases hs
        exact hother ht
      · split at hs <;> cases hs <;> exact hother ht
      · split at hs
        · exact henter ht hs
        · cases hs
          exact hother ht
      · split at hs
        · obtain ⟨k, -, rfl⟩ := Option.map_eq_some_iff.mp hs
          exact hother ht
        · cases hs
      · cases hs
    · cases hs
  | «return» t' =>
    rw [step] at hs
    split at hs
    · rw [Frontend.finish] at hs
      split at hs
      · cases hs
        exact hother ht
      · split at hs
        · split at hs
          · obtain ⟨k, -, rfl⟩ := Option.map_eq_some_iff.mp hs
            exact hother ht
          · cases hs
        · cases hs
      · cases hs
    · cases hs
  | setLevel level =>
    cases hs
    rfl
  | other action =>
    obtain ⟨-, hs⟩ := Option.ite_none_right_eq_some.mp hs
    obtain ⟨k, -, rfl⟩ := Option.map_eq_some_iff.mp hs
    rfl

/-- One thread registers, logs a Record, finds its lane full, and uses a registration of another
kernel. -/
theorem attempts_accounted_mixed : ∃ s,
    (machine .blank .singleCell).Reachable s ∧ (∀ t, s.attempts t = none) ∧
      s.reached = 3 ∧ (s.getSnapshot .singleCell).acceptedRecords = 1 ∧
      (s.getSnapshot .singleCell).rejectedLaneFull = 1 ∧
      (s.getSnapshot .singleCell).rejectedNoProducer = 1 ∧ s.Accounted .singleCell := by
  obtain ⟨s, hreach, htest⟩ := Machine.Reach.exists_of_run
    (machine .blank .singleCell) (fun _ a ↦ a.thread.all (· == 1) = true)
    (fun s ↦ (s.attempts 1).isNone && s.reached == 3 &&
      ((s.getSnapshot .singleCell).acceptedRecords == 1 &&
        (s.getSnapshot .singleCell).rejectedLaneFull == 1 &&
          (s.getSnapshot .singleCell).rejectedNoProducer == 1))
    (List.flatten
      [[.other (.register 1)], List.replicate 4 (.other (.advance 1 {})), [.other (.return 1)],
        [.logMessage 1 (some (0, 1)) .info ⟨[0x61], [0x62], 7, 9⟩],
        List.replicate 27 (.advance 1 {} 0), [.return 1],
        [.logMessage 1 (some (0, 1)) .info ⟨[0x61], [0x62], 7, 9⟩],
        List.replicate 7 (.advance 1 {} 0), [.return 1],
        [.tryPublish 1 false 0 1 .info ⟨[0x61], [0x62], 7, 9⟩ true, .advance 1 {} 31, .return 1]])
    (by decide +kernel)
  simp only [Bool.and_eq_true, beq_iff_eq, Option.isNone_iff_eq_none] at htest
  obtain ⟨⟨hone, hreached⟩, ⟨haccepted, hlaneFull⟩, hmissing⟩ := htest
  have hquiet : ∀ t, s.attempts t = none := by
    intro t
    by_cases ht : t = 1
    · rw [ht, hone]
    · refine hreach.invariant (I := fun s ↦ s.attempts t = none) rfl fun s a s' hnone hok hstep ↦ ?_
      rw [attempts_of_ne hstep fun heq ↦ ?_, hnone]
      rw [heq] at hok
      exact ht (by simpa using hok)
  have hreachable := hreach.mono fun _ _ _ ↦ trivial
  exact ⟨s, hreachable, hquiet, hreached, haccepted, hlaneFull, hmissing,
    attempts_accounted hreachable hquiet⟩

end Frontend

end Ulog
