import Ulog.Producer.Effects
import Ulog.Producer.Publishing

/-!
# The consumer and the control calls

The consumer works at the first position of the window, which no publication owns. `ConsumeEffect`
says what one of its steps may do to the memory and to the history; every step of `TryConsume` is
one of these. The other calls (register, retire, `IsQuiescent`, closing admission) touch neither
lanes nor cells, so the invariant does not see them.
-/

namespace Ulog

variable {conv : Charconv} {config : ValidConfig} {k : Kernel} {m m' : KernelMemory} {t : ℕ}
  {claim : ConsumptionClaim}

/-! ## The consumer -/

theorem ConsumeFrame.ok_of_clearing {f : ConsumeFrame} (hclaim : f.pc.clearing = some claim) :
    f.Ok config m ↔
      claim.Ok config m ∧ claim.cell = config.cellIndex claim.lane claim.readPosition := by
  unfold ConsumeFrame.Ok
  revert hclaim
  cases f.pc with
  | releaseOwnership c | finishOwnership c | clearCell c | acknowledge c =>
    intro hclaim
    cases hclaim
    exact Iff.rfl
  | _ => exact fun hclaim ↦ nomatch hclaim

/-- What a step of `TryConsume` does: it may clear the cell of its claim, read on past it, and
decide a consumption. -/
structure ConsumeEffect (conv : Charconv) (config : ValidConfig) (k : Kernel) (m' : KernelMemory)
    (f : ConsumeFrame) (pc' : ConsumePc) (cs : List Consumption) : Prop where
  lanes : ∀ p, PublishFrame.LaneKept (k.memory.lanes p) (m'.lanes p)
  publishing : ∀ p, (m'.lanes p).publishing = (k.memory.lanes p).publishing
  read : ∀ p, (m'.lanes p).readPosition ≤ (m'.lanes p).publishedPosition
  cells : ∀ i, m'.cells i = k.memory.cells i ∨ ∃ claim, f.pc.clearing = some claim ∧ i = claim.cell
  clearing : ∀ claim, f.pc.clearing = some claim → pc'.clearing = some claim ∨
    claim.readPosition < (m'.lanes claim.lane).readPosition
  nextAdmission : m'.nextAdmissionSequence = k.memory.nextAdmissionSequence
  frame : ConsumeFrame.Ok config m' ⟨f.hasConsumer, pc'⟩
  order : cs.map (·.sequence) = List.range' k.consumptions.length cs.length
  consumed : cs.length + k.memory.nextSequence + f.pc.consumed = m'.nextSequence + pc'.consumed
  consumptions : ∀ c ∈ cs, c.Ok conv config k.admissions

namespace ConsumeEffect

variable {f : ConsumeFrame} {pc' : ConsumePc} {cs : List Consumption}

section

variable (e : ConsumeEffect conv config k m' f pc' cs) (h : k.Inv conv config)
  (hf : k.calls consumerThread = .consume f)

include e h hf

/-- The consumer's cell is not the cell of a publication. -/
theorem cells_of_ownsCell {g : PublishFrame} (hg : k.calls t = .publish g) (howns : g.pc.OwnsCell) :
    m'.cells (g.cell config) = k.memory.cells (g.cell config) := by
  refine (e.cells _).resolve_right ?_
  rintro ⟨claim, hclaim, hcell⟩
  obtain ⟨hok, hindex⟩ :=
    (ConsumeFrame.ok_of_clearing hclaim).mp (h.consumer _ f hf).2
  obtain ⟨-, hposition, hroom⟩ := (h.frames t g hg).ownsCell howns
  rw [hindex] at hcell
  by_cases hlane : g.slot = claim.lane
  · have hread := hok.read
    have hpublished := hok.published
    rw [PublishFrame.cell, hlane] at hcell
    rw [hlane] at hposition hroom
    exact config.cellIndex_ne_of_lt (by omega) (by omega) hcell.symm
  · exact config.cellIndex_ne_of_lane_ne hlane hcell

/-- A window position that stays in the window keeps its cell, unless the consumer still clears
it. -/
theorem window_kept {p position : ℕ} (hread : (m'.lanes p).readPosition ≤ position)
    (hpublished : position < (m'.lanes p).publishedPosition) :
    (∃ claim, pc'.clearing = some claim ∧ claim.lane = p ∧ claim.readPosition = position) ∨
      ¬k.Clearing p position ∧
        m'.cells (config.cellIndex p position) = k.memory.cells (config.cellIndex p position) := by
  have hold := (e.lanes p).read.trans hread
  have hpub : position < (k.memory.lanes p).publishedPosition := by
    rw [← (e.lanes p).published]
    exact hpublished
  by_cases hclearing : k.Clearing p position
  · -- the consumer was clearing it, and has not read past it
    obtain ⟨g, claim, hg, hclaim, rfl, rfl⟩ := hclearing
    rw [hf] at hg
    cases hg
    refine .inl ⟨claim, (e.clearing claim hclaim).resolve_right ?_, rfl, rfl⟩
    exact fun hlt ↦ absurd hlt hread.not_gt
  · refine .inr ⟨hclearing, (e.cells _).resolve_right ?_⟩
    rintro ⟨claim, hclaim, hindex⟩
    obtain ⟨hok, hclaimCell⟩ := (ConsumeFrame.ok_of_clearing hclaim).mp (h.consumer _ f hf).2
    rw [hclaimCell] at hindex
    have hlane : p = claim.lane := by
      by_contra hne
      exact config.cellIndex_ne_of_lane_ne hne hindex
    subst hlane
    have hclaimRead := hok.read
    have hroom := (h.lanes claim.lane).published
    have hposition : claim.readPosition = position := by
      by_contra hne
      exact config.cellIndex_ne_of_lt (by omega) (by omega) hindex.symm
    exact hclearing ⟨f, claim, hf, hclaim, rfl, hposition⟩

theorem window {p position : ℕ} (hread : (m'.lanes p).readPosition ≤ position)
    (hpublished : position < (m'.lanes p).publishedPosition) :
    (∃ claim, pc'.clearing = some claim ∧ claim.lane = p ∧ claim.readPosition = position) ∨
      CellOk conv config k.admissions (m'.cells (config.cellIndex p position)) p position := by
  refine (e.window_kept h hf hread hpublished).imp_right ?_
  rintro ⟨hclearing, hcell⟩
  rw [(e.lanes p).published] at hpublished
  rw [hcell]
  exact (h.window p position ((e.lanes p).read.trans hread) hpublished).resolve_left hclearing

end

end ConsumeEffect

namespace Kernel

theorem Inv.consumeEffect (h : k.Inv conv config) {f : ConsumeFrame} {pc' : ConsumePc}
    {cs : List Consumption} (hf : k.calls consumerThread = .consume f)
    (e : ConsumeEffect conv config k m' f pc' cs) :
    Inv conv config ⟨m', Function.update k.calls consumerThread (.consume ⟨f.hasConsumer, pc'⟩),
      k.admissions, k.consumptions ++ cs, k.returned⟩ := by
  have hpublish : ∀ t g, Function.update k.calls consumerThread
      (.consume ⟨f.hasConsumer, pc'⟩) t = .publish g → k.calls t = .publish g := by
    intro t g hg
    rcases update_eq_cases hg with ⟨-, heq⟩ | ⟨-, hg⟩
    · cases heq
    · exact hg
  have hcarries : ∀ t s, Carries ⟨m', Function.update k.calls consumerThread
      (.consume ⟨f.hasConsumer, pc'⟩), k.admissions, k.consumptions ++ cs, k.returned⟩ t s →
      k.Carries t s :=
    fun t s ⟨g, hg, hs⟩ ↦ ⟨g, hpublish t g hg, hs⟩
  refine { lanes := ?_, frames := ?_, holds := ?_, unique := ?_, window := ?_, consumer := ?_,
           admissions := h.admissions.trans e.nextAdmission.symm, order := ?_, consumed := ?_,
           consumptions := ?_, carried := ?_, returned := ?_, returnedOnce := h.returnedOnce }
  · intro p
    have hlane := h.lanes p
    have hkept := e.lanes p
    refine ⟨e.read p, ?_, fun hflag ↦ ?_⟩
    · change (m'.lanes p).publishedPosition ≤ (m'.lanes p).readPosition + _
      rw [hkept.published]
      exact hlane.published.trans (Nat.add_le_add_right hkept.read _)
    · change (m'.lanes p).writePosition = (m'.lanes p).publishedPosition
      rw [hkept.write, hkept.published]
      exact hlane.write ((e.publishing p).symm.trans hflag)
  · intro t g hg
    have hold := hpublish t g hg
    exact (h.frames t g hold).mono (fun _ ↦ e.lanes _) (e.cells_of_ownsCell h hf hold)
      (List.prefix_refl _)
  · intro t g hg hholds
    exact (e.publishing _).trans (h.holds t g (hpublish t g hg) hholds)
  · intro t₁ t₂ g₁ g₂ hg₁ hg₂
    exact h.unique t₁ t₂ g₁ g₂ (hpublish t₁ g₁ hg₁) (hpublish t₂ g₂ hg₂)
  · intro p position hread hpublished
    refine (e.window h hf hread hpublished).imp_left ?_
    rintro ⟨claim, hclaim, hrest⟩
    exact ⟨⟨f.hasConsumer, pc'⟩, claim, Function.update_self consumerThread _ k.calls,
      hclaim, hrest⟩
  · intro t g hg
    rcases update_eq_cases hg with ⟨rfl, heq⟩ | ⟨ht, hg⟩
    · cases heq
      exact ⟨rfl, e.frame⟩
    · exact absurd (h.consumer t g hg).1 ht
  · change (k.consumptions ++ cs).map _ = List.range (k.consumptions ++ cs).length
    have happend : List.range' 0 k.consumptions.length ++
        List.range' (0 + k.consumptions.length) cs.length = _ := List.range'_append_1
    rw [Nat.zero_add] at happend
    rw [List.map_append, h.order, e.order, List.length_append, List.range_eq_range',
      List.range_eq_range', happend]
  · have hold := h.consumed
    have hnew := e.consumed
    unfold unacknowledged at hold ⊢
    rw [hf] at hold
    simp only [Function.update_self, List.length_append] at hold ⊢
    omega
  · intro c hc
    rcases List.mem_append.mp hc with hc | hc
    · exact h.consumptions c hc
    · exact e.consumptions c hc
  · exact fun t₁ t₂ s h₁ h₂ ↦ h.carried t₁ t₂ s (hcarries t₁ s h₁) (hcarries t₂ s h₂)
  · intro x hx
    obtain ⟨hadm, hnot⟩ := h.returned x hx
    exact ⟨hadm, fun t ht ↦ hnot t (hcarries t _ ht)⟩

end Kernel

/-! ## The steps of `TryConsume` -/

section ConsumeSteps

variable {f : ConsumeFrame} {pc' : ConsumePc}

theorem ConsumeEffect.of_sameIngress (h : k.Inv conv config) {cs : List Consumption}
    (hm : SameIngress k.memory m') (hclearing : f.pc.clearing = none)
    (hframe : ConsumeFrame.Ok config m' ⟨f.hasConsumer, pc'⟩)
    (horder : cs.map (·.sequence) = List.range' k.consumptions.length cs.length)
    (hconsumed : cs.length + f.pc.consumed = pc'.consumed)
    (hcs : ∀ c ∈ cs, c.Ok conv config k.admissions) :
    ConsumeEffect conv config k m' f pc' cs where
  lanes p := .of_eq (congrFun hm.lanes p)
  publishing p := by rw [hm.lanes]
  read p := by
    rw [hm.lanes]
    exact (h.lanes p).read
  cells i := .inl (congrFun hm.cells i)
  clearing claim hclaim := by
    rw [hclearing] at hclaim
    cases hclaim
  nextAdmission := hm.nextAdmissionSequence
  frame := hframe
  order := horder
  consumed := by
    rw [hm.nextSequence]
    omega
  consumptions := hcs

theorem ConsumeEffect.onClaim (h : k.Inv conv config) (hok : f.Ok config k.memory)
    (hclearing : f.pc.clearing = some claim) (hclearing' : pc'.clearing = some claim)
    (hconsumed : f.pc.consumed = pc'.consumed) (hlanes : m'.lanes = k.memory.lanes)
    (hcells : ∀ i ≠ claim.cell, m'.cells i = k.memory.cells i)
    (hnext : m'.nextSequence = k.memory.nextSequence)
    (hadmission : m'.nextAdmissionSequence = k.memory.nextAdmissionSequence) :
    ConsumeEffect conv config k m' f pc' [] := by
  obtain ⟨hclaim, hindex⟩ := (ConsumeFrame.ok_of_clearing hclearing).mp hok
  have hlane : ∀ p, m'.lanes p = k.memory.lanes p := congrFun hlanes
  refine { lanes := fun p ↦ .of_eq (hlane p), publishing := fun p ↦ by rw [hlane],
           read := fun p ↦ ?_, cells := fun i ↦ ?_, clearing := fun c hc ↦ ?_,
           nextAdmission := hadmission, frame := ?_, order := rfl, consumed := ?_,
           consumptions := nofun }
  · rw [hlane]
    exact (h.lanes p).read
  · by_cases hi : i = claim.cell
    · exact .inr ⟨claim, hclearing, hi⟩
    · exact .inl (hcells i hi)
  · exact .inl (hclearing'.trans (hclearing.symm.trans hc))
  · refine (ConsumeFrame.ok_of_clearing hclearing').mpr ⟨⟨hclaim.lane, ?_, ?_⟩, hindex⟩
    · rw [hlane]
      exact hclaim.read
    · rw [hlane]
      exact hclaim.published
  · rw [hconsumed, hnext, List.length_nil, Nat.zero_add]

theorem ConsumeEffect.acknowledge (h : k.Inv conv config) (hclaim : claim.Ok config k.memory)
    (hclearing : f.pc.clearing = some claim)
    (hframe : ConsumeFrame.Ok config m' ⟨f.hasConsumer, pc'⟩)
    (hlanes : m'.lanes = Function.update k.memory.lanes claim.lane
      ⟨claim.readPosition + 1, (k.memory.lanes claim.lane).publishedPosition,
      (k.memory.lanes claim.lane).writePosition, (k.memory.lanes claim.lane).publishing⟩)
    (hcells : m'.cells = k.memory.cells)
    (hadmission : m'.nextAdmissionSequence = k.memory.nextAdmissionSequence)
    (hnext : m'.nextSequence = k.memory.nextSequence + 1)
    (hconsumed : f.pc.consumed = pc'.consumed + 1) : ConsumeEffect conv config k m' f pc' [] := by
  have hlane : ∀ p, ∃ read, m'.lanes p = ⟨read, (k.memory.lanes p).publishedPosition,
        (k.memory.lanes p).writePosition, (k.memory.lanes p).publishing⟩ ∧
      (k.memory.lanes p).readPosition ≤ read ∧ read ≤ (k.memory.lanes p).publishedPosition ∧
      (p = claim.lane → read = claim.readPosition + 1) := by
    intro p
    rw [hlanes]
    by_cases hp : p = claim.lane
    · subst hp
      exact ⟨_, Function.update_self .., hclaim.read.trans_le (Nat.le_succ _), hclaim.published,
        fun _ ↦ rfl⟩
    · exact ⟨_, Function.update_of_ne hp .., le_rfl, (h.lanes p).read, fun heq ↦ absurd heq hp⟩
  refine { lanes := fun p ↦ ?_, publishing := fun p ↦ ?_, read := fun p ↦ ?_,
           cells := fun i ↦ .inl (congrFun hcells i), clearing := fun c hc ↦ .inr ?_,
           nextAdmission := hadmission, frame := hframe, order := rfl, consumed := ?_,
           consumptions := nofun }
  · obtain ⟨read, hp, hle, -⟩ := hlane p
    rw [hp]
    exact ⟨rfl, rfl, hle⟩
  · obtain ⟨read, hp, -⟩ := hlane p
    rw [hp]
  · obtain ⟨read, hp, -, hle, -⟩ := hlane p
    rw [hp]
    exact hle
  · cases hclearing.symm.trans hc
    obtain ⟨read, hp, -, -, hread⟩ := hlane claim.lane
    rw [hp, hread rfl]
    exact Nat.lt_succ_self _
  · rw [hnext, hconsumed, List.length_nil]
    omega

section

variable (h : k.Inv conv config) (hf : k.calls consumerThread = .consume f)

include h hf

theorem Kernel.Inv.validates (hpc : f.pc = .validate claim) :
    claim.validates config k.memory = true ∧
      claim.cell = config.cellIndex claim.lane claim.readPosition ∧
      ∃ a record, k.admissions[claim.envelope.admissionSequence]? = some a ∧
        a.Builds conv config (k.memory.cells claim.cell).slot record ∧
        (k.memory.cells claim.cell).record = some record := by
  have hok := (h.consumer _ f hf).2
  rw [ConsumeFrame.Ok, hpc] at hok
  obtain ⟨hclaim, henvelope, -⟩ := hok
  have hcell : CellOk conv config k.admissions
      (k.memory.cells (config.cellIndex claim.lane claim.readPosition)) claim.lane
      claim.readPosition := by
    refine (h.window _ _ hclaim.read.le hclaim.published).resolve_left ?_
    rintro ⟨g, c, hg, hc, -⟩
    rw [hf] at hg
    cases hg
    rw [hpc] at hc
    cases hc
  obtain ⟨a, record, hadmission, -, -, hbuilds, hrecord, howned, hhandle⟩ := hcell
  rw [← henvelope] at hadmission hhandle
  have hindex : claim.cell = config.cellIndex claim.lane claim.readPosition :=
    congrArg RecordHandle.slotIndex hhandle
  rw [← hindex] at hbuilds hrecord howned hhandle
  refine ⟨?_, hindex, a, record, hadmission, hbuilds, hrecord⟩
  have hlt : claim.cell < config.ingressCells := by
    rw [hindex]
    exact config.cellIndex_lt_ingressCells hclaim.lane _
  simp only [ConsumptionClaim.validates, hrecord, howned, hhandle, hlt, decide_true, BEq.rfl,
    Bool.and_self]

theorem Kernel.Inv.consumption_ok (hpc : f.pc = .validate claim) {c : Consumption}
    (hsequence : c.sequence = claim.envelope.admissionSequence)
    (hview : c.hasConsumer = true → c.view = some (claim.view k.memory)) :
    c.Ok conv config k.admissions := by
  obtain ⟨-, -, a, record, hadmission, hbuilds, hrecord⟩ := h.validates hf hpc
  refine ⟨a, _, record, hsequence ▸ hadmission, hbuilds, fun hconsumer ↦ ?_⟩
  rw [hview hconsumer, ConsumptionClaim.view, hrecord]
  rfl

/-- Before its consumption is decided, the claim carries the next sequence. -/
theorem Kernel.Inv.next_sequence (hpc : f.pc = .validate claim) :
    claim.envelope.admissionSequence = k.consumptions.length := by
  have hok := (h.consumer _ f hf).2
  rw [ConsumeFrame.Ok, hpc] at hok
  have hconsumed := h.consumed
  rw [Kernel.unacknowledged, hf] at hconsumed
  simp only [hpc] at hconsumed
  exact hok.2.2.trans hconsumed.symm

theorem Kernel.Inv.consumeStep {choice : StepChoice}
    (hstep : consumeStep config k.memory f choice = some (m', pc')) :
    ConsumeEffect conv config k m' f pc' (Kernel.consumption f pc') := by
  have hok := (h.consumer _ f hf).2
  have hquiet : ∀ {m' pc'}, SameIngress k.memory m' → f.pc.clearing = none →
      f.pc.consumed = pc'.consumed → Kernel.consumption f pc' = [] →
      ConsumeFrame.Ok config m' ⟨f.hasConsumer, pc'⟩ →
      ConsumeEffect conv config k m' f pc' (Kernel.consumption f pc') := by
    intro m' pc' hm hclearing hconsumed hnone hframe
    rw [hnone]
    exact .of_sameIngress h hm hclearing hframe rfl ((Nat.zero_add _).trans hconsumed) nofun
  cases hpc : f.pc with
  | scan lane later =>
    rw [Ulog.consumeStep, hpc] at hstep
    simp only at hstep
    split_ifs at hstep with hlane hempty
    all_goals cases hstep
    · exact hquiet ⟨rfl, rfl, rfl, rfl⟩ (by rw [hpc]; rfl) (by rw [hpc]; rfl) rfl trivial
    · refine hquiet ⟨rfl, rfl, rfl, rfl⟩ (by rw [hpc]; rfl) (by rw [hpc]; rfl) rfl ?_
      exact ⟨hlane, rfl, lt_of_le_of_ne (h.lanes lane).read (Ne.symm hempty)⟩
    · exact hquiet ⟨rfl, rfl, rfl, rfl⟩ (by rw [hpc]; rfl) (by rw [hpc]; rfl) rfl trivial
  | readEnvelope lane position later =>
    rw [Ulog.consumeStep, hpc] at hstep
    rw [ConsumeFrame.Ok, hpc] at hok
    simp only at hstep
    split_ifs at hstep with hsequence
    all_goals cases hstep
    · exact hquiet ⟨rfl, rfl, rfl, rfl⟩ (by rw [hpc]; rfl) (by rw [hpc]; rfl) rfl trivial
    · refine hquiet ⟨rfl, rfl, rfl, rfl⟩ (by rw [hpc]; rfl) (by rw [hpc]; rfl) rfl ?_
      exact ⟨⟨hok.1, hok.2.1, hok.2.2⟩, rfl, not_not.mp hsequence⟩
  | loadSequence later =>
    rw [Ulog.consumeStep, hpc] at hstep
    cases hstep
    exact hquiet ⟨rfl, rfl, rfl, rfl⟩ (by rw [hpc]; rfl) (by rw [hpc]; rfl) rfl trivial
  | validate claim =>
    obtain ⟨hvalid, hindex, -⟩ := h.validates hf hpc
    have hsequence := h.next_sequence hf hpc
    have hclaim : claim.Ok config k.memory := by
      rw [ConsumeFrame.Ok, hpc] at hok
      exact hok.1
    have hlt : claim.cell < config.ingressCells := by
      rw [hindex]
      exact config.cellIndex_lt_ingressCells hclaim.lane _
    rw [Ulog.consumeStep, hpc] at hstep
    simp only [hvalid, Bool.and_true, if_pos hlt] at hstep
    split_ifs at hstep with hconsumer
    all_goals cases hstep
    · refine .of_sameIngress h ⟨rfl, rfl, rfl, rfl⟩ (by rw [hpc]; rfl) ⟨hclaim, hindex, rfl⟩ ?_
        (by rw [hpc]; rfl) ?_
      · exact congrArg (fun s ↦ [s]) hsequence
      · intro c hc
        rw [List.mem_singleton.mp hc]
        exact h.consumption_ok hf hpc rfl fun _ ↦ rfl
    · have hcs : Kernel.consumption f (.releaseOwnership claim) =
          [⟨claim.envelope.admissionSequence, f.hasConsumer, none⟩] := by
        rw [Kernel.consumption, hpc]
      rw [hcs]
      refine .of_sameIngress h ⟨rfl, rfl, rfl, rfl⟩ (by rw [hpc]; rfl)
        ⟨⟨hclaim.lane, hclaim.read, hclaim.published⟩, hindex⟩ ?_ (by rw [hpc]; rfl) ?_
      · exact congrArg (fun s ↦ [s]) hsequence
      · intro c hc
        rw [List.mem_singleton.mp hc]
        exact h.consumption_ok hf hpc rfl fun hc ↦ absurd hc hconsumer
  | callback claim view =>
    rw [Ulog.consumeStep, hpc] at hstep
    rw [ConsumeFrame.Ok, hpc] at hok
    cases hstep
    refine hquiet ⟨rfl, rfl, rfl, rfl⟩ (by rw [hpc]; rfl) (by rw [hpc]; rfl) ?_ ⟨hok.1, hok.2.1⟩
    rw [Kernel.consumption, hpc]
  | releaseOwnership claim | finishOwnership claim =>
    rw [Ulog.consumeStep, hpc] at hstep
    cases hstep
    exact .onClaim h hok (by rw [hpc]; rfl) rfl (by rw [hpc]; rfl) rfl
      (fun i hi ↦ Function.update_of_ne hi ..) rfl rfl
  | clearCell claim =>
    rw [Ulog.consumeStep, hpc] at hstep
    cases hstep
    have hnone : Kernel.consumption f (.acknowledge claim) = [] := by
      rw [Kernel.consumption, hpc]
    rw [hnone]
    refine .onClaim h hok (by rw [hpc]; rfl) rfl (by rw [hpc]; rfl) rfl (fun i hi ↦ ?_) rfl rfl
    exact (Function.update_of_ne hi ..).trans (Function.update_of_ne hi ..)
  | acknowledge claim =>
    have hclearing : f.pc.clearing = some claim := by
      rw [hpc]
      rfl
    obtain ⟨hclaim, -⟩ := (ConsumeFrame.ok_of_clearing hclearing).mp hok
    rw [Ulog.consumeStep, hpc] at hstep
    simp only [startRetirement, if_pos hclaim.lane] at hstep
    cases hstep
    exact .acknowledge h hclaim hclearing trivial rfl rfl rfl rfl (by rw [hpc]; rfl)
  | retire lane pc =>
    rw [Ulog.consumeStep, hpc] at hstep
    simp only at hstep
    split at hstep <;> next heq =>
      cases hstep
      exact hquiet (ControlEffect.of_retireStep heq).sameIngress (by rw [hpc]; rfl)
        (by rw [hpc]; rfl) rfl trivial
  | done status =>
    rw [Ulog.consumeStep, hpc] at hstep
    cases hstep

end

end ConsumeSteps

/-! ## Starting and returning, and the control calls -/

namespace Kernel

variable {call : KernelCall} {returned' : List (ℕ × Admission)}

/-- The invariant is about lanes, cells and sequences only. -/
theorem Inv.sameIngress (h : k.Inv conv config) (hm : SameIngress k.memory m') :
    Inv conv config ⟨m', k.calls, k.admissions, k.consumptions, k.returned⟩ where
  lanes p := by
    change LaneOk _ (m'.lanes p)
    rw [hm.lanes]
    exact h.lanes p
  frames t g hg := (h.frames t g hg).mono (fun _ ↦ .of_eq (congrFun hm.lanes _))
    (fun _ ↦ congrFun hm.cells _) (List.prefix_refl _)
  holds t g hg hholds := by
    change (m'.lanes g.slot).publishing = true
    rw [hm.lanes]
    exact h.holds t g hg hholds
  unique := h.unique
  window p position hread hpublished := by
    change (m'.lanes p).readPosition ≤ position at hread
    change position < (m'.lanes p).publishedPosition at hpublished
    change _ ∨ CellOk _ _ _ (m'.cells _) _ _
    rw [hm.lanes] at hread hpublished
    rw [hm.cells]
    exact h.window p position hread hpublished
  consumer t g hg := by
    obtain ⟨ht, hok⟩ := h.consumer t g hg
    refine ⟨ht, hok.mono (fun p ↦ ?_) (fun p ↦ ?_) (fun p _ _ _ ↦ ?_) hm.nextSequence⟩
    · rw [hm.lanes]
    · rw [hm.lanes]
    · rw [hm.cells]
  admissions := h.admissions.trans hm.nextAdmissionSequence.symm
  order := h.order
  consumed := by
    change _ = m'.nextSequence + k.unacknowledged
    rw [hm.nextSequence]
    exact h.consumed
  consumptions := h.consumptions
  carried := h.carried
  returned := h.returned
  returnedOnce := h.returnedOnce

/-- A thread starts a call, or goes on with one that is neither a publication nor at work in the
consumer's cell. A publication that returns leaves its sequence in the history. -/
theorem Inv.replace (h : k.Inv conv config)
    (hold : ∀ g, k.calls t = .consume g → g.pc.clearing = none ∧ g.pc.consumed = 0)
    (hpublish : ∀ g, call = .publish g → g.pc = .activeState)
    (hconsume : ∀ g, call = .consume g → t = consumerThread ∧ g.pc.clearing = none ∧
      g.pc.consumed = 0 ∧ g.Ok config k.memory)
    (hreturned : returned' = k.returned ∨ ∃ s g, k.calls t = .publish g ∧ g.Carries s ∧
      returned' = k.returned ++ [(s, g.admission)]) :
    Inv conv config ⟨k.memory, Function.update k.calls t call, k.admissions, k.consumptions,
      returned'⟩ := by
  have hnew : ∀ t' g, Function.update k.calls t call t' = .publish g →
      g.pc = .activeState ∨ t' ≠ t ∧ k.calls t' = .publish g := by
    intro t' g hg
    rcases update_eq_cases hg with ⟨-, heq⟩ | hg
    · exact .inl (hpublish g heq.symm)
    · exact .inr hg
  have hcarries : ∀ t' s, Carries ⟨k.memory, Function.update k.calls t call, k.admissions,
      k.consumptions, returned'⟩ t' s → t' ≠ t ∧ k.Carries t' s := by
    rintro t' s ⟨g, hg, hs⟩
    rcases hnew t' g hg with hpc | ⟨ht, hg⟩
    · rw [PublishFrame.Carries, hpc] at hs
      exact hs.elim
    · exact ⟨ht, g, hg, hs⟩
  have hholds : ∀ t' g, Function.update k.calls t call t' = .publish g → g.pc.Holds →
      k.calls t' = .publish g := by
    intro t' g hg hholds
    rcases hnew t' g hg with hpc | ⟨-, hg⟩
    · rw [hpc] at hholds
      exact hholds.elim
    · exact hg
  refine { h with
    frames := ?_, holds := ?_, unique := ?_, window := ?_, consumer := ?_, consumed := ?_
    carried := ?_, returned := ?_, returnedOnce := ?_ }
  · intro t' g hg
    rcases hnew t' g hg with hpc | ⟨-, hg⟩
    · rw [PublishFrame.Ok, hpc]
      trivial
    · exact h.frames t' g hg
  · exact fun t' g hg hg' ↦ h.holds t' g (hholds t' g hg hg') hg'
  · intro t₁ t₂ g₁ g₂ hg₁ hg₂ hh₁ hh₂
    exact h.unique t₁ t₂ g₁ g₂ (hholds t₁ g₁ hg₁ hh₁) (hholds t₂ g₂ hg₂ hh₂) hh₁ hh₂
  · exact fun p position hread hpublished ↦ (h.window p position hread hpublished).imp_left
      (clearing_update fun g hg ↦ (hold g hg).1)
  · intro t' g hg
    rcases update_eq_cases hg with ⟨rfl, heq⟩ | ⟨-, hg⟩
    · obtain ⟨ht, -, -, hok⟩ := hconsume g heq.symm
      exact ⟨ht, hok⟩
    · exact h.consumer t' g hg
  · have hsame := unacknowledged_update call (fun g hg ↦ (hold g hg).2)
      (fun g hg ↦ (hconsume g hg).2.2.1) k.memory k.admissions k.consumptions returned'
    change k.consumptions.length = k.memory.nextSequence + _
    rw [hsame]
    exact h.consumed
  · exact fun t₁ t₂ s h₁ h₂ ↦ h.carried t₁ t₂ s (hcarries t₁ s h₁).2 (hcarries t₂ s h₂).2
  · intro x hx
    rcases hreturned with rfl | ⟨s, g, hg, hs, rfl⟩
    · obtain ⟨hadm, hnot⟩ := h.returned x hx
      exact ⟨hadm, fun t' ht' ↦ hnot t' (hcarries t' _ ht').2⟩
    · rcases List.mem_append.mp hx with hx | hx
      · obtain ⟨hadm, hnot⟩ := h.returned x hx
        exact ⟨hadm, fun t' ht' ↦ hnot t' (hcarries t' _ ht').2⟩
      · cases List.mem_singleton.mp hx
        refine ⟨(h.frames t g hg).carries hs, fun t' ht' ↦ ?_⟩
        obtain ⟨hne, ht'⟩ := hcarries t' _ ht'
        exact hne (h.carried t' t s ht' ⟨g, hg, hs⟩)
  · rcases hreturned with rfl | ⟨s, g, hg, hs, rfl⟩
    · exact h.returnedOnce
    · change (List.map _ (k.returned ++ _)).Nodup
      rw [List.map_append]
      refine List.Nodup.append h.returnedOnce (List.nodup_singleton _) ?_
      intro s' hs' hs''
      cases List.mem_singleton.mp hs''
      obtain ⟨x, hx, rfl⟩ := List.mem_map.mp hs'
      exact (h.returned x hx).2 t ⟨g, hg, hs⟩

theorem Inv.after (h : k.Inv conv config) (hm : ControlEffect k.memory m')
    (hold : ∀ g, k.calls t ≠ .consume g) (hpublish : ∀ g, call ≠ .publish g)
    (hconsume : ∀ g, call ≠ .consume g) : (k.after t m' call).Inv conv config :=
  (h.sameIngress hm.sameIngress).replace (fun g hg ↦ absurd hg (hold g))
    (fun g hg ↦ absurd hg (hpublish g)) (fun g hg ↦ absurd hg (hconsume g)) (.inl rfl)

end Kernel

/-! ## Every step keeps the invariant -/

namespace Kernel

variable {k' : Kernel}

theorem inv_init : (init config).Inv conv config := by
  have hidle : ∀ t, (init config).calls t = .idle := fun _ ↦ rfl
  have hpublish : ∀ t g, (init config).calls t ≠ .publish g := fun t g hg ↦
    nomatch (hidle t).symm.trans hg
  refine { lanes := fun _ ↦ ⟨le_rfl, Nat.zero_le _, fun _ ↦ rfl⟩,
           frames := fun t g hg ↦ absurd hg (hpublish t g),
           holds := fun t g hg ↦ absurd hg (hpublish t g),
           unique := fun t _ g _ hg ↦ absurd hg (hpublish t g),
           window := fun _ _ _ hlt ↦ absurd hlt (Nat.not_lt_zero _),
           consumer := fun t g hg ↦ (nomatch (hidle t).symm.trans hg), admissions := rfl,
           order := rfl, consumed := rfl, consumptions := ?_,
           carried := fun t _ _ ⟨g, hg, _⟩ ↦ absurd hg (hpublish t g), returned := ?_,
           returnedOnce := List.nodup_nil }
  · exact fun c hc ↦ absurd hc List.not_mem_nil
  · exact fun x hx ↦ absurd hx List.not_mem_nil

/-- What a publication carries at its end is in the history once it returns. -/
theorem returned_cases {f : PublishFrame} {result : Option PublishResult}
    (hpc : f.pc = .done result) :
    ((result.bind (·.admissionSequence)).map fun s ↦ (s, f.admission)).toList = [] ∧
        (∀ s, ¬f.Carries s) ∨
      ∃ s, f.Carries s ∧
        ((result.bind (·.admissionSequence)).map fun s ↦ (s, f.admission)).toList =
          [(s, f.admission)] := by
  simp only [PublishFrame.Carries, hpc]
  cases result.bind (·.admissionSequence) with
  | none => exact .inl ⟨rfl, (by rintro _ ⟨⟩)⟩
  | some s => exact .inr ⟨s, rfl, rfl⟩

theorem Inv.step (h : k.Inv conv config) {action : KernelAction}
    (hstep : k.step conv config action = some k') : k'.Inv conv config := by
  cases Move.of_step hstep with
  | enter hidle hcall =>
    refine h.replace (fun g hg ↦ nomatch hidle.symm.trans hg) (fun g hg ↦ ?_) (fun g hg ↦ ?_)
      (.inl rfl)
    · cases hcall <;> cases hg
      rfl
    · cases hcall <;> cases hg
      split <;> exact ⟨rfl, rfl, rfl, trivial⟩
  | closeAdmission => exact h.sameIngress ⟨rfl, rfl, rfl, rfl⟩
  | publish hf hcall => exact h.publish hf hcall
  | consume hf hcall =>
    obtain ⟨rfl, -⟩ := h.consumer _ _ hf
    exact h.consumeEffect hf (h.consumeStep hf hcall)
  | retire hf hcall =>
    exact h.after (.of_retireProducerStep hcall) (fun g hg ↦ nomatch hf.symm.trans hg)
      (fun _ ↦ nofun) (fun _ ↦ nofun)
  | quiescent hf hcall =>
    exact h.after (.of_quiescentStep hcall) (fun g hg ↦ nomatch hf.symm.trans hg)
      (fun _ ↦ nofun) (fun _ ↦ nofun)
  | register hf hcall =>
    exact h.after (.of_registerStep hcall) (fun g hg ↦ nomatch hf.symm.trans hg)
      (fun _ ↦ nofun) (fun _ ↦ nofun)
  | returnPublish hf hpc =>
    refine h.replace (fun g hg ↦ nomatch hf.symm.trans hg) (fun _ ↦ nofun) (fun _ ↦ nofun) ?_
    rcases returned_cases hpc with ⟨hnone, -⟩ | ⟨s, hs, hsome⟩
    · rw [hnone, List.append_nil]
      exact .inl rfl
    · rw [hsome]
      exact .inr ⟨s, _, hf, hs, rfl⟩
  | «return» _ hdone =>
    refine h.replace (fun g hg ↦ ?_) (fun _ ↦ nofun) (fun _ ↦ nofun) (.inl rfl)
    rw [hg] at hdone
    obtain ⟨status, hpc⟩ := hdone
    rw [hpc]
    exact ⟨rfl, rfl⟩

theorem Inv.of_reach {ok : Kernel → KernelAction → Prop} (h : (machine conv config).Reach ok k) :
    k.Inv conv config :=
  h.invariant inv_init fun _ _ _ hk _ hstep ↦ hk.step hstep

/-! ## Every flag has its holder -/

/-- The flag of a lane is set only while a publication holds the lane. -/
def FlagsHeld (k : Kernel) : Prop :=
  ∀ p, (k.memory.lanes p).publishing = true →
    ∃ t f, k.calls t = .publish f ∧ f.pc.Holds ∧ f.slot = p

theorem FlagsHeld.other (h : k.FlagsHeld)
    (hflags : ∀ p, (m'.lanes p).publishing = (k.memory.lanes p).publishing) {call : KernelCall}
    (hold : ∀ f, k.calls t = .publish f → ¬f.pc.Holds) {admissions' : List Admission}
    {consumptions' : List Consumption} {returned' : List (ℕ × Admission)} :
    FlagsHeld ⟨m', Function.update k.calls t call, admissions', consumptions', returned'⟩ := by
  intro p hp
  obtain ⟨t', f, hf, hholds, rfl⟩ := h p ((hflags p).symm.trans hp)
  refine ⟨t', f, (Function.update_of_ne ?_ ..).trans hf, hholds, rfl⟩
  rintro rfl
  exact hold f hf hholds

theorem FlagsHeld.publish (h : k.FlagsHeld) (hinv : k.Inv conv config) {f f' : PublishFrame}
    {choice : StepChoice} (hf : k.calls t = .publish f)
    (hstep : publishStep conv config k.memory f choice = some (m', f')) :
    (k.afterPublish t f m' f').FlagsHeld := by
  obtain ⟨_, e⟩ := hinv.stepEffect hf hstep
  have hkept : ∀ p, (p = f.slot → ¬f.pc.Holds) → (k.memory.lanes p).publishing = true →
      ∃ t' g, (k.afterPublish t f m' f').calls t' = .publish g ∧ g.pc.Holds ∧ g.slot = p := by
    intro p hnot hp
    obtain ⟨t', g, hg, hholds, rfl⟩ := h p hp
    refine ⟨t', g, (Function.update_of_ne ?_ ..).trans hg, hholds, rfl⟩
    rintro rfl
    cases hf.symm.trans hg
    exact hnot rfl hholds
  intro p hp
  by_cases hslot : p = f.slot
  · subst hslot
    by_cases hholds' : f'.pc.Holds
    · exact ⟨t, f', Function.update_self .., hholds', e.slot⟩
    · -- the call has let go of the flag, or never had it
      by_cases hholds : f.pc.Holds
      · cases hp.symm.trans (publishStep_release (hinv.frames t f hf) hholds hholds' hstep)
      · change (m'.lanes f.slot).publishing = true at hp
        rw [e.idle hholds hholds'] at hp
        exact hkept _ (fun _ ↦ hholds) hp
  · change (m'.lanes p).publishing = true at hp
    rw [e.lanes p hslot] at hp
    exact hkept p (fun heq ↦ absurd heq hslot) hp

theorem FlagsHeld.step (h : k.FlagsHeld) (hinv : k.Inv conv config) {action : KernelAction}
    (hstep : k.step conv config action = some k') : k'.FlagsHeld := by
  cases Move.of_step hstep with
  | enter hidle => exact h.other (fun _ ↦ rfl) fun f hf ↦ nomatch hidle.symm.trans hf
  | closeAdmission => exact h
  | publish hf hcall => exact h.publish hinv hf hcall
  | consume hf hcall =>
    obtain ⟨rfl, -⟩ := hinv.consumer _ _ hf
    exact h.other (hinv.consumeStep hf hcall).publishing fun f hf' ↦ nomatch hf.symm.trans hf'
  | retire hf hcall =>
    refine h.other (fun p ↦ ?_) fun f hf' ↦ nomatch hf.symm.trans hf'
    rw [(ControlEffect.of_retireProducerStep hcall).sameIngress.lanes]
  | quiescent hf hcall =>
    refine h.other (fun p ↦ ?_) fun f hf' ↦ nomatch hf.symm.trans hf'
    rw [(ControlEffect.of_quiescentStep hcall).sameIngress.lanes]
  | register hf hcall =>
    refine h.other (fun p ↦ ?_) fun f hf' ↦ nomatch hf.symm.trans hf'
    rw [(ControlEffect.of_registerStep hcall).sameIngress.lanes]
  | returnPublish hf hpc =>
    refine h.other (fun _ ↦ rfl) fun f hf' ↦ ?_
    cases hf.symm.trans hf'
    rw [hpc]
    exact id
  | «return» hcall => exact h.other (fun _ ↦ rfl) fun f hf ↦ absurd hf (hcall f)

theorem FlagsHeld.of_reach {ok : Kernel → KernelAction → Prop}
    (h : (machine conv config).Reach ok k) : k.FlagsHeld := by
  have hboth : k.Inv conv config ∧ k.FlagsHeld :=
    Machine.Reach.invariant (I := fun k ↦ k.Inv conv config ∧ k.FlagsHeld) h
      ⟨inv_init, fun _ hp ↦ nomatch hp⟩ fun _ _ _ hk _ hstep ↦
        ⟨hk.1.step hstep, hk.2.step hk.1 hstep⟩
  exact hboth.2

end Kernel

end Ulog
