import Ulog.Producer.Ingress

/-!
# What the consumer may conclude

`TryClaimConsumption` is not atomic: while it goes through the lanes, Records become visible in
lanes that it has passed and in lanes that it has not reached. Its two definite answers are right
all the same. It finds the next sequence if that was visible when the call started, because only the
consumer can move the head of a lane; and it says `kEmpty` only at a moment when every sequence that
was ever allocated has been acknowledged.
-/

namespace Ulog

/-- The steps that a call still makes at most, if it finds the Record. -/
def ScanPc.stepsLeft (config : ValidConfig) : ScanPc → ℕ
  | .scan p _ => 2 * (config.producerSlots - p)
  | .readEnvelope p _ _ => 2 * (config.producerSlots - p) - 1
  | _ => 0

/-- The consumer neither starts a call nor ends a claim with this action. -/
def IngressAction.continues : IngressAction → Bool
  | .tryClaimConsumption | .acknowledge | .cancel => false
  | _ => true

namespace Ingress

variable {config : ValidConfig} {s s' : Ingress} {q : ℕ} {a : LaneAdmission}

/-! ## The order of a lane -/

/-- From head to tail the sequences of a lane grow. -/
theorem Inv.increasing (h : s.Inv config) {p i j : ℕ} (hi : (s.lanes p).readPosition ≤ i)
    (hij : i < j) (hj : j < (s.lanes p).publishedPosition) :
    (s.cells (config.cellIndex p i)).admissionSequence <
      (s.cells (config.cellIndex p j)).admissionSequence := by
  obtain ⟨q, record, hq, hcell⟩ := h.window p i hi (hij.trans hj)
  obtain ⟨q', record', hq', hcell'⟩ := h.window p j (hi.trans hij.le) hj
  rw [hcell, hcell']
  rcases Nat.lt_trichotomy q q' with hlt | rfl | hgt
  · exact hlt
  · cases hq.symm.trans hq'
    exact absurd hij (lt_irrefl _)
  · exact absurd (h.order q' q _ _ hgt hq' hq rfl) hij.not_gt

/-- The next sequence, once visible, is at the head of its lane. -/
theorem Inv.position_eq (h : s.Inv config) (ha : s.admissions[s.nextSequence]? = some a)
    (hvisible : a.position < (s.lanes a.lane).publishedPosition) :
    a.position = (s.lanes a.lane).readPosition := by
  have hread := h.read _ a ha
  by_contra hne
  have hlt : (s.lanes a.lane).readPosition < a.position := by omega
  obtain ⟨q, record, hq, -⟩ := h.window a.lane _ le_rfl (hlt.trans hvisible)
  have hq' := h.read q _ hq
  rcases Nat.lt_trichotomy q s.nextSequence with hless | heq | hmore
  · exact absurd (hq'.mpr hless) (lt_irrefl _)
  · rw [heq, ha] at hq
    exact hne (congrArg LaneAdmission.position (Option.some.inj hq))
  · exact absurd (h.order _ _ _ _ hmore ha hq rfl) hlt.not_gt

/-! ## A cell is free before it is written -/

theorem Inv.writer (h : s.Inv config) {action : IngressAction}
    (hstep : s.step config action = some s') {cell : ℕ} (hcell : s'.cells cell ≠ s.cells cell) :
    ∃ t p position sequence record, action.thread = some t ∧
      s.threads t = .writeEnvelope p position sequence record ∧
      cell = config.cellIndex p position := by
  cases haction : action.thread with
  | some t =>
    rcases h.step_effect haction hstep with rfl | ⟨p, pc, e⟩
    · exact absurd rfl hcell
    · obtain ⟨position, sequence, record, hwrite⟩ := e.written cell hcell
      exact ⟨t, p, position, sequence, record, rfl, hwrite⟩
  | none => cases ConsumerMove.of_step haction hstep <;> exact absurd rfl hcell

/-- Every other sequence that was ever given to the cell has been acknowledged. -/
theorem Inv.overwrites (h : s.Inv config) {t p position sequence : ℕ} {record : RecordHandle}
    (hpc : s.threads t = .writeEnvelope p position sequence record)
    (hq : s.admissions[q]? = some a)
    (hcell : config.cellIndex a.lane a.position = config.cellIndex p position)
    (hne : q ≠ sequence) : q ∈ s.acknowledged := by
  have hlane : a.lane = p := by
    by_contra hlane
    exact config.cellIndex_ne_of_lane_ne hlane hcell
  have hok := h.frames t
  rw [hpc] at hok
  obtain ⟨-, -, hpublished, hroom, -⟩ := hok
  rw [h.acknowledged, List.mem_range, ← h.read q a hq]
  rcases (h.located q a hq).2 with hvisible | ⟨t', ht'⟩
  · by_contra hread
    rw [hlane] at hcell hvisible hread
    exact config.cellIndex_ne_of_lt (by omega) (by omega) hcell
  · -- the holder of the lane is the thread itself, and it carries its own sequence
    have hholds := PublicationPc.lane_of_carried ht'
    rw [hlane] at hholds
    have ht : t' = t := h.unique t' t p hholds (by rw [hpc]; rfl)
    rw [ht, hpc] at ht'
    cases ht'
    exact absurd rfl hne

/-! ## The empty answer -/

/-- The answer `kEmpty` is given by the final load, when the two sequences agree. -/
theorem Inv.empty (h : s.Inv config) {action : IngressAction}
    (hstep : s.step config action = some s') (hbefore : s.consumer ≠ .returned .empty)
    (hafter : s'.consumer = .returned .empty) (hq : q < s.nextAdmissionSequence) :
    q ∈ s.acknowledged := by
  have hequal : s.nextAdmissionSequence = s.nextSequence := by
    cases haction : action.thread with
    | some t =>
      rcases h.step_effect haction hstep with rfl | ⟨p, pc, e⟩
      · exact absurd hafter hbefore
      · exact absurd (e.consumer.symm.trans hafter) hbefore
    | none =>
      cases ConsumerMove.of_step haction hstep with
      | start => split at hafter <;> cases hafter
      | pass | look | finish | skip | take => cases hafter
      | answer hpc =>
        dsimp only at hafter
        split at hafter
        · cases hafter
        · next hno => exact not_not.mp fun hne ↦ hno (.inr hne)
      | acknowledge | cancel => exact absurd hafter hbefore
  rw [h.acknowledged, List.mem_range, ← hequal]
  exact hq

/-! ## The search for the next sequence -/

/-- A call that was started when the Record with the next sequence was visible, or has just
returned it. -/
structure Seeking (s : Ingress) (q : ℕ) (a : LaneAdmission) : Prop where
  next : s.nextSequence = q
  admission : s.admissions[q]? = some a
  visible : a.position < (s.lanes a.lane).publishedPosition
  consumer : match s.consumer with
    | .scan p _ | .readEnvelope p _ _ => p ≤ a.lane
    | .returned answer => answer = .record ⟨a.lane, a.position, ⟨a.record, q⟩⟩ ∧
        s.claim = some ⟨a.lane, a.position, ⟨a.record, q⟩⟩
    | .idle | .loadSequence _ => False

theorem Inv.lane_lt_of_admission (h : s.Inv config) (ha : s.admissions[q]? = some a) :
    a.lane < config.producerSlots := (h.located q a ha).1

/-- The steps of publications do not disturb the search. -/
theorem Seeking.effect (hs : s.Seeking q a) {t p : ℕ} {pc : PublicationPc}
    (e : Effect config s s' t p pc) : s'.Seeking q a where
  next := e.nextSequence.trans hs.next
  admission := getElem?_mono e.grows hs.admission
  visible := hs.visible.trans_le (e.published_le _)
  consumer := by
    rw [e.consumer, e.claim]
    exact hs.consumer

/-- Every step of the call gets closer to the Record. -/
theorem Seeking.scan (hs : s.Seeking q a) (h : s.Inv config)
    (hmove : s.ConsumerMove config .scan s') :
    s'.Seeking q a ∧ s'.consumer.stepsLeft config < s.consumer.stepsLeft config := by
  obtain ⟨rfl, hadmission, hvisible, hconsumer⟩ := hs
  have hlane := h.lane_lt_of_admission hadmission
  have hhead := h.position_eq hadmission hvisible
  have hok := h.consumer
  cases hmove with
  | @pass p later hpc hp hempty =>
    rw [hpc] at hconsumer ⊢
    dsimp only at hconsumer
    -- the lane of the Record is not empty
    have hne : p ≠ a.lane := by
      rintro rfl
      omega
    refine ⟨⟨rfl, hadmission, hvisible, show p + 1 ≤ a.lane by omega⟩, ?_⟩
    simp only [ScanPc.stepsLeft]
    omega
  | @look p later hpc hp hready =>
    rw [hpc] at hconsumer ⊢
    refine ⟨⟨rfl, hadmission, hvisible, hconsumer⟩, ?_⟩
    simp only [ScanPc.stepsLeft]
    omega
  | @finish p later hpc hp =>
    rw [hpc] at hconsumer
    dsimp only at hconsumer
    omega
  | @skip p readPosition later hpc hother =>
    rw [hpc] at hconsumer hok ⊢
    dsimp only at hconsumer
    have hne : p ≠ a.lane := by
      rintro rfl
      obtain ⟨q, record, hq, hcell⟩ := h.window _ readPosition hok.2.1.le hok.2.2
      have hsame := h.sequence_unique hq hadmission rfl (hok.2.1.symm.trans hhead.symm)
      rw [hcell] at hother
      exact hother hsame
    refine ⟨⟨rfl, hadmission, hvisible, show p + 1 ≤ a.lane by omega⟩, ?_⟩
    simp only [ScanPc.stepsLeft]
    omega
  | @take p readPosition later hpc hnext =>
    rw [hpc] at hok ⊢
    have hheads := h.heads hok.2.1 hok.2.2 hnext
    cases hadmission.symm.trans hheads.admission
    have hclaim : (⟨p, readPosition, s.cells (config.cellIndex p readPosition)⟩ :
        ConsumptionClaim) = ⟨p, readPosition,
          ⟨(s.cells (config.cellIndex p readPosition)).record, s.nextSequence⟩⟩ := by
      rw [← hnext]
    refine ⟨⟨rfl, hadmission, hvisible, ?_⟩, ?_⟩
    · dsimp only
      rw [hclaim]
      exact ⟨rfl, rfl⟩
    · simp only [ScanPc.stepsLeft]
      have := hok.1
      omega
  | answer hpc =>
    rw [hpc] at hconsumer
    exact hconsumer.elim

theorem Seeking.enabled (config : ValidConfig) (hs : s.Seeking q a) :
    s.consumer.resting = true ∨ ∃ s', s.step config .scan = some s' := by
  have hconsumer := hs.consumer
  rw [Ingress.step, Ingress.scan]
  revert hconsumer
  cases s.consumer with
  | idle | returned => exact fun _ ↦ .inl rfl
  | scan p later =>
    refine fun _ ↦ .inr ?_
    dsimp only
    split
    · split <;> exact ⟨_, rfl⟩
    · exact ⟨_, rfl⟩
  | readEnvelope p readPosition later =>
    refine fun _ ↦ .inr ?_
    dsimp only
    split <;> exact ⟨_, rfl⟩
  | loadSequence => exact fun hconsumer ↦ hconsumer.elim

/-- Whatever the publications do, the call gives this claim after at most two steps for each lane;
until then its next step is always enabled. -/
def Finds (config : ValidConfig) (s : Ingress) (c : ConsumptionClaim) : Prop :=
  ∀ actions s', (machine config).run (fun _ _ ↦ True) s actions = some s' →
    (∀ action ∈ actions, action.continues = true) →
    (s'.consumer = .returned (.record c) ∧ s'.claim = some c) ∨
      (actions.count .scan < 2 * config.producerSlots ∧ ∃ s'', s'.step config .scan = some s'')

theorem Seeking.run (hs : s.Seeking q a) (h : s.Inv config) {actions : List IngressAction}
    (hrun : (machine config).run (fun _ _ ↦ True) s actions = some s')
    (hactions : ∀ action ∈ actions, action.continues = true) :
    s'.Seeking q a ∧ s'.Inv config ∧
      actions.count .scan + s'.consumer.stepsLeft config ≤ s.consumer.stepsLeft config := by
  induction actions generalizing s with
  | nil =>
    cases hrun
    exact ⟨hs, h, by simp⟩
  | cons action actions ih =>
    rw [Machine.run, if_pos trivial] at hrun
    obtain ⟨s₁, hstep, hrest⟩ := Option.bind_eq_some_iff.mp hrun
    have hstep : s.step config action = some s₁ := hstep
    have hactions' := fun action ha ↦ hactions action (List.mem_cons_of_mem _ ha)
    cases haction : action.thread with
    | some t =>
      have hne : action ≠ .scan := by
        rintro rfl
        cases haction
      rw [List.count_cons_of_ne hne]
      rcases h.step_effect haction hstep with rfl | ⟨p, pc, e⟩
      · exact ih hs h hrest hactions'
      · have hrec := ih (hs.effect e) (h.effect e) hrest hactions'
        rwa [e.consumer] at hrec
    | none =>
      have hmove := ConsumerMove.of_step haction hstep
      obtain rfl : action = .scan := by
        have hcontinues := hactions action (List.mem_cons_self ..)
        cases hmove <;> first | rfl | cases hcontinues
      obtain ⟨hs₁, hless⟩ := hs.scan h hmove
      obtain ⟨hs', hinv, hle⟩ := ih hs₁ (h.step hstep) hrest hactions'
      refine ⟨hs', hinv, ?_⟩
      rw [List.count_cons_self]
      omega

/-- A call that starts with the next sequence visible returns it. -/
theorem Inv.finds (h : s.Inv config) (hactive : s.claimActive = false)
    (ha : s.admissions[s.nextSequence]? = some a)
    (hvisible : a.position < (s.lanes a.lane).publishedPosition)
    (hstep : s.step config .tryClaimConsumption = some s') :
    s'.Finds config ⟨a.lane, a.position, ⟨a.record, s.nextSequence⟩⟩ := by
  have hinv := h.step hstep
  have hseeking : s'.Seeking s.nextSequence a ∧
      s'.consumer.stepsLeft config = 2 * config.producerSlots := by
    cases ConsumerMove.of_step rfl hstep with
    | start hresting =>
      rw [hactive, if_neg Bool.false_ne_true]
      exact ⟨⟨rfl, ha, hvisible, Nat.zero_le _⟩, rfl⟩
  intro actions s'' hrun hactions
  obtain ⟨hs, hinv', hle⟩ := hseeking.1.run hinv hrun hactions
  rw [hseeking.2] at hle
  rcases hs.enabled config with hresting | henabled
  · have hconsumer := hs.consumer
    cases hpc : s''.consumer with
    | returned answer =>
      rw [hpc] at hconsumer
      exact .inl ⟨by rw [hconsumer.1], hconsumer.2⟩
    | idle =>
      rw [hpc] at hconsumer
      exact hconsumer.elim
    | scan | readEnvelope | loadSequence =>
      rw [hpc] at hresting
      cases hresting
  · obtain ⟨s₁, hscan⟩ := henabled
    have hless := (hs.scan hinv' (.of_scan hscan)).2
    exact .inr ⟨by omega, s₁, hscan⟩

/-! ## The contract of the lanes -/

/-- What the users of `ProducerLanes` rely on. -/
structure Trustworthy (config : ValidConfig) (s : Ingress) : Prop where
  /-- the answer `kEmpty` comes at a moment when every allocated sequence is acknowledged -/
  empty : ∀ action s', s.step config action = some s' → s.consumer ≠ .returned .empty →
    s'.consumer = .returned .empty → ∀ q < s.nextAdmissionSequence, q ∈ s.acknowledged
  /-- a call that starts with the next sequence visible, and without an active claim, returns it -/
  found : ∀ s' a, s.claimActive = false → s.admissions[s.nextSequence]? = some a →
    a.position < (s.lanes a.lane).publishedPosition →
    s.step config .tryClaimConsumption = some s' →
    s'.Finds config ⟨a.lane, a.position, ⟨a.record, s.nextSequence⟩⟩
  /-- sequences grow from head to tail -/
  increasing : ∀ p i j, (s.lanes p).readPosition ≤ i → i < j →
    j < (s.lanes p).publishedPosition →
    (s.cells (config.cellIndex p i)).admissionSequence <
      (s.cells (config.cellIndex p j)).admissionSequence
  /-- a cell is written by a publication that is about to write it -/
  writer : ∀ action s', s.step config action = some s' →
    ∀ cell, s'.cells cell ≠ s.cells cell →
    ∃ t p position sequence record, action.thread = some t ∧
      s.threads t = .writeEnvelope p position sequence record ∧
      cell = config.cellIndex p position
  /-- and then every earlier Record of this cell is acknowledged -/
  overwrites : ∀ t p position sequence record,
    s.threads t = .writeEnvelope p position sequence record →
    ∀ q a, s.admissions[q]? = some a →
    config.cellIndex a.lane a.position = config.cellIndex p position → q ≠ sequence →
    q ∈ s.acknowledged

/-- In every run the consumer's answers can be trusted. -/
theorem trustworthy (config : ValidConfig) {s : Ingress} (h : (machine config).Reachable s) :
    s.Trustworthy config := by
  have hinv : s.Inv config := .of_reach h
  exact
    { empty := fun _ _ hstep hbefore hafter _ hq ↦ hinv.empty hstep hbefore hafter hq
      found := fun _ _ hactive ha hvisible hstep ↦ hinv.finds hactive ha hvisible hstep
      increasing := fun _ _ _ hi hij hj ↦ hinv.increasing hi hij hj
      writer := fun _ _ hstep _ hcell ↦ hinv.writer hstep hcell
      overwrites := fun _ _ _ _ _ hpc _ _ hq hcell hne ↦ hinv.overwrites hpc hq hcell hne }

/-- One lane with one cell: the second publication has claimed the cell of the first one, which was
first cancelled and then acknowledged. -/
theorem trustworthy_reused :
    ∃ s, (machine .singleCell).Reachable s ∧ s.acknowledged = [0] ∧
      s.threads 1 = .writeEnvelope 0 1 1 ⟨0, 0, 2, 56, 64⟩ ∧ s.Trustworthy .singleCell := by
  have hrun : (machine .singleCell).run (fun _ _ ↦ True) {}
      [.tryClaimPublication 1 0, .advance 1, .publish 1 ⟨0, 0, 1, 56, 64⟩, .advance 1, .advance 1,
        .advance 1, .return 1, .tryClaimConsumption, .scan, .scan, .cancel, .tryClaimConsumption,
        .scan, .scan, .acknowledge, .tryClaimPublication 1 0, .advance 1,
        .publish 1 ⟨0, 0, 2, 56, 64⟩] = some _ := rfl
  have hreach := Machine.Reach.of_run .init hrun
  exact ⟨_, hreach, rfl, rfl, trustworthy _ hreach⟩

end Ingress

end Ulog
