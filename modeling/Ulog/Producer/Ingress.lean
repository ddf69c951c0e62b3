import Ulog.Producer.Kernel
import Ulog.Producer.Invariant

/-!
# The producer lanes alone

`ProducerLanes` as a component: any number of publications claim a lane, take a sequence, write
their cell and make it visible, or abandon the claim; one consumer claims the Record with the next
sequence and acknowledges or cancels the claim. The kernel never cancels, so this is more than the
part of the kernel that deals with lanes.

The consumer looks at one lane after another while others go on publishing. It relies on two
facts: in every lane the sequences grow from head to tail, and all lanes together have every
sequence once. So the next sequence, once visible, is at the head of its lane and stays there until
it is acknowledged. As in the kernel, positions and sequences are natural numbers, which stand for
runs in which they stay below `2 ^ 64`.

## The history

Two lists record the run for the statements: `admissions` says for every allocated sequence where
its Record goes, and `acknowledged` is the list of sequences acknowledged so far.
-/

namespace Ulog

variable {action : IngressAction} {a : LaneAdmission} {position q : ℕ}

/-! ## State -/

inductive ClaimStatus where
  | claimed
  | full
  | contended
  | invalid
  deriving DecidableEq, Repr

/-- A thread that publishes: in `TryClaimPublication`, with a claim in its hands, or in
`Publish`. -/
inductive PublicationPc where
  | idle
  | loadPositions (lane : ℕ)
  /-- the lane is full -/
  | clearFull (lane : ℕ)
  /-- `TryClaimPublication` has returned no claim -/
  | refused (status : ClaimStatus)
  /-- the thread has the `PublicationClaim` -/
  | claimed (lane position : ℕ)
  | writeEnvelope (lane position sequence : ℕ) (record : RecordHandle)
  | publishPosition (lane position sequence : ℕ) (record : RecordHandle)
  | clear (lane sequence : ℕ)
  /-- `Publish` has returned the sequence -/
  | published (sequence : ℕ)
  deriving DecidableEq, Repr

/-- The result of `TryClaimConsumption`. -/
inductive ConsumptionAnswer where
  | record (claim : ConsumptionClaim)
  | empty
  | pending
  deriving DecidableEq, Repr

/-- The consumer in `TryClaimConsumption`. -/
inductive ScanPc where
  | idle
  | scan (lane : ℕ) (later : Bool)
  /-- the lane has a published Record at this position -/
  | readEnvelope (lane readPosition : ℕ) (later : Bool)
  | loadSequence (later : Bool)
  | returned (answer : ConsumptionAnswer)
  deriving DecidableEq, Repr

/-- The consumer is in no call. -/
def ScanPc.resting : ScanPc → Bool
  | .idle | .returned _ => true
  | _ => false

/-- Where an allocated sequence goes. -/
structure LaneAdmission where
  lane : ℕ
  position : ℕ
  record : RecordHandle
  deriving DecidableEq, Repr

structure Ingress where
  lanes : ℕ → Lane := fun _ ↦ {}
  cells : ℕ → Envelope := fun _ ↦ {}
  nextAdmissionSequence : ℕ := 0
  nextSequence : ℕ := 0
  claimActive : Bool := false
  threads : ℕ → PublicationPc := fun _ ↦ .idle
  consumer : ScanPc := .idle
  /-- the `ConsumptionClaim` that the consumer has -/
  claim : Option ConsumptionClaim := none
  admissions : List LaneAdmission := []
  acknowledged : List ℕ := []

inductive IngressAction where
  | tryClaimPublication (thread lane : ℕ)
  | publish (thread : ℕ) (record : RecordHandle)
  | abandon (thread : ℕ)
  /-- the thread makes the next step of its call -/
  | advance (thread : ℕ)
  /-- the thread goes on from a call that has returned -/
  | return (thread : ℕ)
  | tryClaimConsumption
  /-- the consumer makes the next step of its call -/
  | scan
  | acknowledge
  | cancel
  deriving DecidableEq, Repr

/-- The thread that publishes with this action; the others are the consumer's. -/
def IngressAction.thread : IngressAction → Option ℕ
  | .tryClaimPublication t _ | .publish t _ | .abandon t | .advance t | .return t => some t
  | _ => none

/-! ## Steps -/

namespace Ingress

variable (config : ValidConfig)

def setThread (s : Ingress) (t : ℕ) (pc : PublicationPc) : Ingress :=
  { s with threads := Function.update s.threads t pc }

def setLane (s : Ingress) (p : ℕ) (lane : Lane) : Ingress :=
  { s with lanes := Function.update s.lanes p lane }

def setCell (s : Ingress) (cell : ℕ) (envelope : Envelope) : Ingress :=
  { s with cells := Function.update s.cells cell envelope }

def setPublishing (s : Ingress) (p : ℕ) (publishing : Bool) : Ingress :=
  s.setLane p ⟨(s.lanes p).readPosition, (s.lanes p).publishedPosition,
    (s.lanes p).writePosition, publishing⟩

/-- The entry of `TryClaimPublication`, up to the test-and-set. -/
def tryClaimPublication (s : Ingress) (t p : ℕ) : Ingress :=
  if config.producerSlots ≤ p then s.setThread t (.refused .invalid)
  else if (s.lanes p).publishing then s.setThread t (.refused .contended)
  else (s.setPublishing p true).setThread t (.loadPositions p)

/-- The checks of `Publish` and its `fetch_add`; a refused Record leaves the claim. -/
def publish (s : Ingress) (t p position : ℕ) (record : RecordHandle) : Ingress :=
  if record.isValid ∧ record.slotIndex = config.cellIndex p position ∧ record.producerIndex = p then
    { s.setThread t (.writeEnvelope p position s.nextAdmissionSequence record) with
      nextAdmissionSequence := s.nextAdmissionSequence + 1
      admissions := s.admissions ++ [⟨p, position, record⟩] }
  else s

/-- One step of a thread in a call. -/
def advance (s : Ingress) (t : ℕ) : Option Ingress :=
  match s.threads t with
  | .loadPositions p =>
    let lane := s.lanes p
    if config.laneCapacity p ≤ lane.writePosition - lane.readPosition then
      some (s.setThread t (.clearFull p))
    else some (s.setThread t (.claimed p lane.writePosition))
  | .clearFull p => some ((s.setPublishing p false).setThread t (.refused .full))
  | .writeEnvelope p position sequence record =>
    let lane := s.lanes p
    some (((s.setLane p ⟨lane.readPosition, lane.publishedPosition, position + 1,
      lane.publishing⟩).setCell (config.cellIndex p position) ⟨record, sequence⟩).setThread t
        (.publishPosition p position sequence record))
  | .publishPosition p position sequence _ =>
    let lane := s.lanes p
    some ((s.setLane p ⟨lane.readPosition, position + 1, lane.writePosition,
      lane.publishing⟩).setThread t (.clear p sequence))
  | .clear p sequence => some ((s.setPublishing p false).setThread t (.published sequence))
  | _ => none

/-- One step of `TryClaimConsumption`. -/
def scan (s : Ingress) : Option Ingress :=
  match s.consumer with
  | .scan p later =>
    if p < config.producerSlots then
      if (s.lanes p).publishedPosition = (s.lanes p).readPosition then
        some { s with consumer := .scan (p + 1) later }
      else some { s with consumer := .readEnvelope p (s.lanes p).readPosition later }
    else some { s with consumer := .loadSequence later }
  | .readEnvelope p readPosition _ =>
    let envelope := s.cells (config.cellIndex p readPosition)
    if envelope.admissionSequence ≠ s.nextSequence then
      some { s with consumer := .scan (p + 1) true }
    else
      some { s with
        claimActive := true
        claim := some ⟨p, readPosition, envelope⟩
        consumer := .returned (.record ⟨p, readPosition, envelope⟩) }
  | .loadSequence later =>
    some { s with
      consumer := .returned
        (if later ∨ s.nextAdmissionSequence ≠ s.nextSequence then .pending else .empty) }
  | _ => none

/-- `Acknowledge`. -/
def acknowledge (s : Ingress) (c : ConsumptionClaim) : Ingress :=
  let lane := s.lanes c.lane
  { s.setLane c.lane
      ⟨c.readPosition + 1, lane.publishedPosition, lane.writePosition, lane.publishing⟩ with
    nextSequence := s.nextSequence + 1
    claimActive := false
    claim := none
    acknowledged := s.acknowledged ++ [c.envelope.admissionSequence] }

def step (s : Ingress) : IngressAction → Option Ingress
  | .tryClaimPublication t p =>
    match s.threads t with
    | .idle => some (s.tryClaimPublication config t p)
    | _ => none
  | .publish t record =>
    match s.threads t with
    | .claimed p position => some (s.publish config t p position record)
    | _ => none
  | .abandon t =>
    match s.threads t with
    | .claimed p _ => some ((s.setPublishing p false).setThread t .idle)
    | _ => none
  | .advance t => s.advance config t
  | .return t =>
    match s.threads t with
    | .refused _ | .published _ => some (s.setThread t .idle)
    | _ => none
  | .tryClaimConsumption =>
    if s.consumer.resting then
      some { s with
        consumer := if s.claimActive then .returned .pending else .scan 0 false }
    else none
  | .scan => s.scan config
  | .acknowledge =>
    if s.consumer.resting then
      s.claim.map s.acknowledge
    else none
  | .cancel =>
    if s.consumer.resting then
      s.claim.map fun _ ↦ { s with claimActive := false, claim := none }
    else none

def machine : Machine Ingress IngressAction where
  init := {}
  step := step config

end Ingress

/-! ## The invariant -/

namespace PublicationPc

/-- The lane whose flag the thread has set. -/
def lane : PublicationPc → Option ℕ
  | .loadPositions p | .clearFull p | .claimed p _ | .writeEnvelope p _ _ _
  | .publishPosition p _ _ _ | .clear p _ => some p
  | _ => none

/-- The admission that the thread has not made visible yet. -/
def carried : PublicationPc → Option (ℕ × LaneAdmission)
  | .writeEnvelope p position sequence record | .publishPosition p position sequence record =>
    some (sequence, ⟨p, position, record⟩)
  | _ => none

theorem lane_of_carried {pc : PublicationPc} (h : pc.carried = some (q, a)) :
    pc.lane = some a.lane := by
  cases pc with
  | writeEnvelope | publishPosition =>
    cases h
    rfl
  | _ => cases h

/-- What holds of a thread at its program counter. -/
def Ok (config : ValidConfig) (s : Ingress) : PublicationPc → Prop
  | .idle | .refused _ | .published _ => True
  | .loadPositions p | .clearFull p | .clear p _ =>
    p < config.producerSlots ∧ (s.lanes p).writePosition = (s.lanes p).publishedPosition
  | .claimed p position =>
    p < config.producerSlots ∧ (s.lanes p).writePosition = position ∧
      (s.lanes p).publishedPosition = position ∧
      position < (s.lanes p).readPosition + config.laneCapacity p
  | .writeEnvelope p position sequence record =>
    p < config.producerSlots ∧ (s.lanes p).writePosition = position ∧
      (s.lanes p).publishedPosition = position ∧
      position < (s.lanes p).readPosition + config.laneCapacity p ∧
      s.admissions[sequence]? = some ⟨p, position, record⟩
  | .publishPosition p position sequence record =>
    p < config.producerSlots ∧ (s.lanes p).writePosition = position + 1 ∧
      (s.lanes p).publishedPosition = position ∧
      position < (s.lanes p).readPosition + config.laneCapacity p ∧
      s.admissions[sequence]? = some ⟨p, position, record⟩ ∧
      s.cells (config.cellIndex p position) = ⟨record, sequence⟩

end PublicationPc

/-- The claim is for the head of its lane, and the head has the next sequence. -/
structure ConsumptionClaim.Heads (s : Ingress) (c : ConsumptionClaim) : Prop where
  read : (s.lanes c.lane).readPosition = c.readPosition
  published : c.readPosition < (s.lanes c.lane).publishedPosition
  sequence : c.envelope.admissionSequence = s.nextSequence
  admission : s.admissions[s.nextSequence]? = some ⟨c.lane, c.readPosition, c.envelope.record⟩

/-- What holds of the consumer at its program counter. -/
def ScanPc.Ok (config : ValidConfig) (s : Ingress) : ScanPc → Prop
  | .readEnvelope p readPosition _ =>
    p < config.producerSlots ∧ (s.lanes p).readPosition = readPosition ∧
      readPosition < (s.lanes p).publishedPosition
  | _ => True

namespace Ingress

/-- The invariant of the lanes. -/
structure Inv (config : ValidConfig) (s : Ingress) : Prop where
  lanes : ∀ p, LaneOk (config.laneCapacity p) (s.lanes p)
  frames : ∀ t, (s.threads t).Ok config s
  flag : ∀ t p, (s.threads t).lane = some p → (s.lanes p).publishing = true
  unique : ∀ t t' p, (s.threads t).lane = some p → (s.threads t').lane = some p → t = t'
  length : s.admissions.length = s.nextAdmissionSequence
  window : ∀ p position, (s.lanes p).readPosition ≤ position →
    position < (s.lanes p).publishedPosition →
    ∃ q record, s.admissions[q]? = some ⟨p, position, record⟩ ∧
      s.cells (config.cellIndex p position) = ⟨record, q⟩
  located : ∀ q (a : LaneAdmission), s.admissions[q]? = some a → a.lane < config.producerSlots ∧
    (a.position < (s.lanes a.lane).publishedPosition ∨ ∃ t, (s.threads t).carried = some (q, a))
  order : ∀ (q q' : ℕ) (a a' : LaneAdmission), q < q' → s.admissions[q]? = some a →
    s.admissions[q']? = some a' → a.lane = a'.lane → a.position < a'.position
  read : ∀ q (a : LaneAdmission), s.admissions[q]? = some a →
    (a.position < (s.lanes a.lane).readPosition ↔ q < s.nextSequence)
  nextSequence_le : s.nextSequence ≤ s.admissions.length
  acknowledged : s.acknowledged = List.range s.nextSequence
  active : s.claimActive = s.claim.isSome
  claim : ∀ c, s.claim = some c → c.Heads s
  consumer : s.consumer.Ok config s

variable {config : ValidConfig} {s s' : Ingress} {t : ℕ}

theorem Inv.sequence_unique (h : s.Inv config) {q' : ℕ} {a' : LaneAdmission}
    (hq : s.admissions[q]? = some a) (hq' : s.admissions[q']? = some a') (hlane : a.lane = a'.lane)
    (hposition : a.position = a'.position) : q = q' := by
  rcases Nat.lt_trichotomy q q' with hlt | heq | hgt
  · exact absurd hposition (h.order q q' a a' hlt hq hq' hlane).ne
  · exact heq
  · exact absurd hposition.symm (h.order q' q a' a hgt hq' hq hlane.symm).ne

/-- A step elsewhere leaves a thread alone. -/
theorem ok_mono {pc : PublicationPc} (h : pc.Ok config s)
    (hlane : ∀ p, pc.lane = some p →
      PublishFrame.LaneKept (s.lanes p) (s'.lanes p))
    (hcells : ∀ p position, pc.lane = some p →
      s'.cells (config.cellIndex p position) = s.cells (config.cellIndex p position))
    (hadm : s.admissions <+: s'.admissions) : pc.Ok config s' := by
  cases pc with
  | idle | refused | published => trivial
  | loadPositions p | clearFull p | clear p =>
    obtain ⟨hwrite, hpublished, hread⟩ := hlane p rfl
    exact ⟨h.1, by rw [hwrite, hpublished, h.2]⟩
  | claimed p position =>
    obtain ⟨hwrite, hpublished, hread⟩ := hlane p rfl
    obtain ⟨hslot, hw, hp, hroom⟩ := h
    exact ⟨hslot, hwrite.trans hw, hpublished.trans hp, by omega⟩
  | writeEnvelope p position sequence record =>
    obtain ⟨hwrite, hpublished, hread⟩ := hlane p rfl
    obtain ⟨hslot, hw, hp, hroom, hadmitted⟩ := h
    exact ⟨hslot, hwrite.trans hw, hpublished.trans hp, by omega, getElem?_mono hadm hadmitted⟩
  | publishPosition p position sequence record =>
    obtain ⟨hwrite, hpublished, hread⟩ := hlane p rfl
    obtain ⟨hslot, hw, hp, hroom, hadmitted, hcell⟩ := h
    exact ⟨hslot, hwrite.trans hw, hpublished.trans hp, by omega, getElem?_mono hadm hadmitted,
      (hcells p position rfl).trans hcell⟩

/-! ## The steps of a publication -/

/-- What a step of a thread does that has the flag of lane `p`, or takes it. -/
structure Effect (config : ValidConfig) (s s' : Ingress) (t p : ℕ) (pc : PublicationPc) : Prop where
  threads : s'.threads = Function.update s.threads t pc
  alone : ∀ t', t' ≠ t → (s.threads t').lane ≠ some p
  lane : pc.lane = none ∨ pc.lane = some p ∧ (s'.lanes p).publishing = true
  ok : pc.Ok config s'
  others : ∀ q, q ≠ p → s'.lanes q = s.lanes q
  laneOk : LaneOk (config.laneCapacity p) (s'.lanes p)
  read : (s'.lanes p).readPosition = (s.lanes p).readPosition
  published : (s.lanes p).publishedPosition ≤ (s'.lanes p).publishedPosition
  cells : ∀ q position, q ≠ p ∨ (s.lanes p).readPosition ≤ position ∧
      position < (s.lanes p).publishedPosition →
    s'.cells (config.cellIndex q position) = s.cells (config.cellIndex q position)
  written : ∀ cell, s'.cells cell ≠ s.cells cell → ∃ position sequence record,
    s.threads t = .writeEnvelope p position sequence record ∧ cell = config.cellIndex p position
  window : ∀ position, (s.lanes p).publishedPosition ≤ position →
    position < (s'.lanes p).publishedPosition →
    ∃ q record, s'.admissions[q]? = some ⟨p, position, record⟩ ∧
      s'.cells (config.cellIndex p position) = ⟨record, q⟩
  grows : s.admissions <+: s'.admissions
  length : s'.admissions.length = s'.nextAdmissionSequence
  /-- a new admission is for the next position of the lane, by a thread that had none -/
  fresh : ∀ q (a : LaneAdmission), s'.admissions[q]? = some a → s.admissions[q]? = some a ∨
    q = s.admissions.length ∧ a.lane = p ∧ p < config.producerSlots ∧
      a.position = (s.lanes p).publishedPosition ∧ (s.threads t).carried = none ∧
      pc.carried = some (q, a)
  carried : ∀ q (a : LaneAdmission), (s.threads t).carried = some (q, a) →
    pc.carried = some (q, a) ∨ a.position < (s'.lanes a.lane).publishedPosition
  consumer : s'.consumer = s.consumer
  claim : s'.claim = s.claim
  claimActive : s'.claimActive = s.claimActive
  nextSequence : s'.nextSequence = s.nextSequence
  acknowledged : s'.acknowledged = s.acknowledged

variable {p : ℕ} {pc : PublicationPc}

namespace Effect

section

variable (e : Effect config s s' t p pc)

include e

theorem read_eq (q : ℕ) : (s'.lanes q).readPosition = (s.lanes q).readPosition := by
  by_cases hq : q = p
  · rw [hq, e.read]
  · rw [e.others q hq]

theorem published_le (q : ℕ) : (s.lanes q).publishedPosition ≤ (s'.lanes q).publishedPosition := by
  by_cases hq : q = p
  · rw [hq]
    exact e.published
  · rw [e.others q hq]

theorem threads_self : s'.threads t = pc := by
  rw [e.threads, Function.update_self]

theorem threads_of_ne {t' : ℕ} (h : t' ≠ t) : s'.threads t' = s.threads t' := by
  rw [e.threads, Function.update_of_ne h]

end

end Effect

section

variable (h : s.Inv config)

include h

/-- Everything before the next position of a lane is visible, if its holder carries nothing. -/
theorem Inv.position_lt (halone : ∀ t', t' ≠ t → (s.threads t').lane ≠ some p)
    (hcarried : (s.threads t).carried = none) (hq : s.admissions[q]? = some a)
    (hlane : a.lane = p) :
    a.position < (s.lanes p).publishedPosition := by
  rcases (h.located q a hq).2 with hvisible | ⟨t', ht'⟩
  · rwa [hlane] at hvisible
  · have hholds := PublicationPc.lane_of_carried ht'
    rw [hlane] at hholds
    by_cases ht : t' = t
    · rw [ht, hcarried] at ht'
      cases ht'
    · exact absurd hholds (halone t' ht)

theorem Inv.effect (e : Effect config s s' t p pc) : s'.Inv config := by
  have hself := e.threads_self
  refine
    { lanes := fun q ↦ ?_, frames := fun t' ↦ ?_, flag := fun t' q hq ↦ ?_,
      unique := fun t₁ t₂ q h₁ h₂ ↦ ?_, length := e.length, window := fun q position hle hlt ↦ ?_,
      located := fun q a hq ↦ ?_, order := fun q q' a a' hlt hq hq' hlane ↦ ?_,
      read := fun q a hq ↦ ?_, nextSequence_le := ?_, acknowledged := ?_, active := ?_,
      claim := fun c hc ↦ ?_, consumer := ?_ }
  · by_cases hq : q = p
    · rw [hq]
      exact e.laneOk
    · rw [e.others q hq]
      exact h.lanes q
  · by_cases ht : t' = t
    · rw [ht, hself]
      exact e.ok
    · rw [e.threads_of_ne ht]
      have hne : ∀ q, (s.threads t').lane = some q → q ≠ p := by
        rintro q hq rfl
        exact e.alone t' ht hq
      exact ok_mono (h.frames t') (fun q hq ↦ .of_eq (e.others q (hne q hq)))
        (fun q position hq ↦ e.cells q position (.inl (hne q hq))) e.grows
  · by_cases ht : t' = t
    · rw [ht, hself] at hq
      rcases e.lane with hnone | ⟨hsome, hflag⟩
      · cases hnone.symm.trans hq
      · cases hsome.symm.trans hq
        exact hflag
    · rw [e.threads_of_ne ht] at hq
      have hne : q ≠ p := by
        rintro rfl
        exact e.alone t' ht hq
      rw [e.others q hne]
      exact h.flag t' q hq
  · -- nobody else has the lane of the thread that moved
    have hother : ∀ {t'}, t' ≠ t → pc.lane = some q → s'.threads t' = s.threads t' →
        (s'.threads t').lane ≠ some q := by
      intro t' ht hpc hsame hq
      rcases e.lane with hnone | ⟨hsome, -⟩
      · cases hnone.symm.trans hpc
      · cases hsome.symm.trans hpc
        rw [hsame] at hq
        exact e.alone t' ht hq
    by_cases ht₁ : t₁ = t
    · by_cases ht₂ : t₂ = t
      · rw [ht₁, ht₂]
      · rw [ht₁, hself] at h₁
        exact absurd h₂ (hother ht₂ h₁ (e.threads_of_ne ht₂))
    · by_cases ht₂ : t₂ = t
      · rw [ht₂, hself] at h₂
        exact absurd h₁ (hother ht₁ h₂ (e.threads_of_ne ht₁))
      · rw [e.threads_of_ne ht₁] at h₁
        rw [e.threads_of_ne ht₂] at h₂
        exact h.unique t₁ t₂ q h₁ h₂
  · rw [e.read_eq] at hle
    by_cases hnew : q = p ∧ (s.lanes p).publishedPosition ≤ position
    · obtain ⟨rfl, hnew⟩ := hnew
      exact e.window position hnew hlt
    · have hold : position < (s.lanes q).publishedPosition := by
        by_cases hq : q = p
        · subst hq
          omega
        · rwa [e.others q hq] at hlt
      obtain ⟨r, record, hr, hcell⟩ := h.window q position hle hold
      refine ⟨r, record, getElem?_mono e.grows hr, ?_⟩
      rw [e.cells q position ?_, hcell]
      by_cases hq : q = p
      · subst hq
        exact .inr ⟨hle, hold⟩
      · exact .inl hq
  · rcases e.fresh q a hq with hold | ⟨-, hlane, hslot, -, -, hcarried⟩
    · obtain ⟨hslot, hwhere⟩ := h.located q a hold
      refine ⟨hslot, ?_⟩
      rcases hwhere with hvisible | ⟨t', ht'⟩
      · exact .inl (hvisible.trans_le (e.published_le _))
      · by_cases ht : t' = t
        · subst ht
          rcases e.carried q a ht' with hstill | hnow
          · exact .inr ⟨t', by rw [hself, hstill]⟩
          · exact .inl hnow
        · exact .inr ⟨t', by rw [e.threads_of_ne ht, ht']⟩
    · exact ⟨hlane ▸ hslot, .inr ⟨t, by rw [hself, hcarried]⟩⟩
  · rcases e.fresh q' a' hq' with hold' | ⟨hlength, hlane', -, hposition, hnone, -⟩
    · rcases e.fresh q a hq with hold | ⟨hlength, -⟩
      · exact h.order q q' a a' hlt hold hold' hlane
      · have := (List.getElem?_eq_some_iff.mp hold').1
        omega
    · rcases e.fresh q a hq with hold | ⟨hlength', -⟩
      · rw [hposition]
        exact h.position_lt e.alone hnone hold (hlane.trans hlane')
      · omega
  · rw [e.read_eq, e.nextSequence]
    rcases e.fresh q a hq with hold | ⟨hlength, hlane, -, hposition, -⟩
    · exact h.read q a hold
    · have hle := h.nextSequence_le
      have hread := (h.lanes p).read
      rw [hlane]
      omega
  · rw [e.nextSequence]
    exact h.nextSequence_le.trans e.grows.length_le
  · rw [e.acknowledged, e.nextSequence, h.acknowledged]
  · rw [e.claimActive, e.claim, h.active]
  · rw [e.claim] at hc
    have hheads := h.claim c hc
    refine ⟨?_, hheads.published.trans_le (e.published_le _), ?_, ?_⟩
    · rw [e.read_eq, hheads.read]
    · rw [e.nextSequence, hheads.sequence]
    · rw [e.nextSequence]
      exact getElem?_mono e.grows hheads.admission
  · have hok := h.consumer
    rw [e.consumer]
    cases hpc : s.consumer with
    | readEnvelope q readPosition later =>
      rw [hpc] at hok
      refine ⟨hok.1, ?_, hok.2.2.trans_le (e.published_le _)⟩
      rw [e.read_eq, hok.2.1]
    | _ => trivial

theorem Inv.alone (hlane : (s.threads t).lane = some p) {t' : ℕ} (ht : t' ≠ t) :
    (s.threads t').lane ≠ some p :=
  fun hlane' ↦ ht (h.unique t' t p hlane' hlane)

theorem Inv.alone_of_free (hfree : (s.lanes p).publishing = false) (t' : ℕ) :
    (s.threads t').lane ≠ some p := by
  intro hlane
  rw [h.flag t' p hlane] at hfree
  cases hfree

theorem Inv.lane_lt (hlane : (s.threads t).lane = some p) : p < config.producerSlots := by
  have hok := h.frames t
  revert hlane hok
  cases s.threads t with
  | idle | refused | published => exact fun hlane ↦ nomatch hlane
  | loadPositions | clearFull | claimed | writeEnvelope | publishPosition | clear =>
    intro hlane hok
    cases hlane
    exact hok.1

theorem Inv.effect_thread (halone : ∀ t', t' ≠ t → (s.threads t').lane ≠ some p)
    (hlane : pc.lane = none ∨ pc.lane = some p ∧ (s.threads t).lane = some p) (hok : pc.Ok config s)
    (hcarried : (s.threads t).carried = none) :
    Effect config s (s.setThread t pc) t p pc where
  threads := rfl
  alone := halone
  lane := hlane.imp_right fun hp ↦ ⟨hp.1, h.flag t p hp.2⟩
  ok := ok_mono hok (fun _ _ ↦ .of_eq rfl) (fun _ _ _ ↦ rfl) List.prefix_rfl
  others := fun _ _ ↦ rfl
  laneOk := h.lanes p
  read := rfl
  published := le_rfl
  cells := fun _ _ _ ↦ rfl
  written := fun _ hne ↦ absurd rfl hne
  window := fun _ hle hlt ↦ absurd hlt hle.not_gt
  grows := List.prefix_rfl
  length := h.length
  fresh := fun _ _ hq ↦ .inl hq
  carried := fun _ _ hq ↦ nomatch hcarried.symm.trans hq
  consumer := rfl
  claim := rfl
  claimActive := rfl
  nextSequence := rfl
  acknowledged := rfl

/-- The thread sets or clears the flag of a lane where nothing is half published. -/
theorem Inv.effect_flag (halone : ∀ t', t' ≠ t → (s.threads t').lane ≠ some p)
    (hwrite : (s.lanes p).writePosition = (s.lanes p).publishedPosition) {publishing : Bool}
    (hlane : pc.lane = none ∨ pc.lane = some p ∧ publishing = true) (hok : pc.Ok config s)
    (hcarried : (s.threads t).carried = none) :
    Effect config s ((s.setPublishing p publishing).setThread t pc) t p pc := by
  have hself : ((s.setPublishing p publishing).setThread t pc).lanes p =
      ⟨(s.lanes p).readPosition, (s.lanes p).publishedPosition, (s.lanes p).writePosition,
        publishing⟩ := Function.update_self ..
  have hother : ∀ q, q ≠ p →
      ((s.setPublishing p publishing).setThread t pc).lanes q = s.lanes q :=
    fun q hq ↦ Function.update_of_ne hq ..
  have hkept : ∀ q, PublishFrame.LaneKept (s.lanes q)
      (((s.setPublishing p publishing).setThread t pc).lanes q) := by
    intro q
    by_cases hq : q = p
    · rw [hq, hself]
      exact ⟨rfl, rfl, le_rfl⟩
    · exact .of_eq (hother q hq)
  refine
    { threads := rfl, alone := halone, lane := hlane.imp_right fun hp ↦ ⟨hp.1, ?_⟩,
      ok := ok_mono hok (fun q _ ↦ hkept q) (fun _ _ _ ↦ rfl) List.prefix_rfl, others := hother,
      laneOk := ?_, read := by rw [hself], published := by rw [hself], cells := fun _ _ _ ↦ rfl,
      written := fun _ hne ↦ absurd rfl hne,
      window := fun position hle hlt ↦ ?_, grows := List.prefix_rfl, length := h.length,
      fresh := fun _ _ hq ↦ .inl hq, carried := fun _ _ hq ↦ (nomatch hcarried.symm.trans hq),
      consumer := rfl, claim := rfl, claimActive := rfl, nextSequence := rfl, acknowledged := rfl }
  · rw [hself]
    exact hp.2
  · rw [hself]
    exact ⟨(h.lanes p).read, (h.lanes p).published, fun _ ↦ hwrite⟩
  · rw [hself] at hlt
    exact absurd hlt hle.not_gt

/-- `fetch_add` gives the claimed position the next sequence. -/
theorem Inv.effect_fetch (record : RecordHandle) (hpc : s.threads t = .claimed p position) :
    Effect config s
      { s.setThread t (.writeEnvelope p position s.nextAdmissionSequence record) with
        nextAdmissionSequence := s.nextAdmissionSequence + 1
        admissions := s.admissions ++ [⟨p, position, record⟩] }
      t p (.writeEnvelope p position s.nextAdmissionSequence record) := by
  have hlane : (s.threads t).lane = some p := by rw [hpc]; rfl
  have hcarried : (s.threads t).carried = none := by rw [hpc]; rfl
  have hok := h.frames t
  rw [hpc] at hok
  obtain ⟨hslot, hwrite, hpublished, hroom⟩ := hok
  have hnew : (s.admissions ++ [⟨p, position, record⟩])[s.nextAdmissionSequence]? =
      some ⟨p, position, record⟩ := by
    rw [← h.length, List.getElem?_concat_length]
  refine
    { threads := rfl, alone := fun t' ht ↦ h.alone hlane ht, lane := .inr ⟨rfl, h.flag t p hlane⟩,
      ok := ⟨hslot, hwrite, hpublished, hroom, hnew⟩, others := fun _ _ ↦ rfl,
      laneOk := h.lanes p, read := rfl, published := le_rfl, cells := fun _ _ _ ↦ rfl,
      written := fun _ hne ↦ absurd rfl hne,
      window := fun _ hle hlt ↦ absurd hlt hle.not_gt, grows := List.prefix_append ..,
      length := ?_, fresh := fun q a hq ↦ ?_,
      carried := fun _ _ hq ↦ (nomatch hcarried.symm.trans hq), consumer := rfl, claim := rfl,
      claimActive := rfl, nextSequence := rfl, acknowledged := rfl }
  · rw [List.length_append, h.length]
    rfl
  · rcases Nat.lt_or_ge q s.admissions.length with hlt | hge
    · exact .inl ((List.getElem?_append_left hlt).symm.trans hq)
    · have hlast : q = s.admissions.length := by
        have hlength := (List.getElem?_eq_some_iff.mp hq).1
        rw [List.length_append, List.length_singleton] at hlength
        omega
      rw [hlast, h.length] at hq
      cases hnew.symm.trans hq
      exact .inr ⟨hlast, rfl, hslot, hpublished.symm, hcarried, by rw [hlast, h.length]; rfl⟩

theorem Inv.effect_write {sequence : ℕ} {record : RecordHandle}
    (hpc : s.threads t = .writeEnvelope p position sequence record)
    (hstep : s.advance config t = some s') :
    Effect config s s' t p (.publishPosition p position sequence record) := by
  have hlane : (s.threads t).lane = some p := by rw [hpc]; rfl
  have hok := h.frames t
  rw [hpc] at hok
  obtain ⟨hslot, hwrite, hpublished, hroom, hadmitted⟩ := hok
  rw [advance, hpc] at hstep
  have hs' := Option.some.inj hstep
  have hself : s'.lanes p = ⟨(s.lanes p).readPosition, (s.lanes p).publishedPosition,
      position + 1, (s.lanes p).publishing⟩ := by
    rw [← hs']
    exact Function.update_self ..
  have hcell : s'.cells (config.cellIndex p position) = ⟨record, sequence⟩ := by
    rw [← hs']
    exact Function.update_self ..
  have hcells : ∀ c, c ≠ config.cellIndex p position → s'.cells c = s.cells c := by
    intro c hc
    rw [← hs']
    exact Function.update_of_ne hc ..
  have hflag := h.flag t p hlane
  refine
    { threads := by rw [← hs']; rfl, alone := fun t' ht ↦ h.alone hlane ht,
      lane := .inr ⟨rfl, by rw [hself]; exact hflag⟩, ok := ?_,
      others := fun q hq ↦ by rw [← hs']; exact Function.update_of_ne hq ..,
      laneOk := ?_, read := by rw [hself], published := by rw [hself],
      cells := fun q position' hq ↦ hcells _ ?_,
      written := fun cell hne ↦
        ⟨position, sequence, record, hpc, by_contra fun h ↦ hne (hcells _ h)⟩,
      window := fun position hle hlt ↦ ?_, grows := by rw [← hs']; exact List.prefix_rfl,
      length := by rw [← hs']; exact h.length, fresh := fun _ _ hq ↦ .inl (by rwa [← hs'] at hq),
      carried := fun _ _ hq ↦ .inl (by rw [hpc] at hq; exact hq), consumer := by rw [← hs']; rfl,
      claim := by rw [← hs']; rfl, claimActive := by rw [← hs']; rfl,
      nextSequence := by rw [← hs']; rfl, acknowledged := by rw [← hs']; rfl }
  · refine ⟨hslot, by rw [hself], by rw [hself]; exact hpublished, by rw [hself]; exact hroom, ?_,
      hcell⟩
    rw [← hs']
    exact hadmitted
  · rw [hself]
    refine ⟨(h.lanes p).read, (h.lanes p).published, fun hfree ↦ ?_⟩
    cases hflag.symm.trans hfree
  · rcases hq with hq | ⟨hle, hlt⟩
    · exact config.cellIndex_ne_of_lane_ne hq
    · by_cases hq : q = p
      · rw [hq]
        exact config.cellIndex_ne_of_lt (by omega) (by omega)
      · exact config.cellIndex_ne_of_lane_ne hq
  · rw [hself] at hlt
    exact absurd hlt hle.not_gt

theorem Inv.effect_publish {sequence : ℕ} {record : RecordHandle}
    (hpc : s.threads t = .publishPosition p position sequence record)
    (hstep : s.advance config t = some s') : Effect config s s' t p (.clear p sequence) := by
  have hlane : (s.threads t).lane = some p := by rw [hpc]; rfl
  have hok := h.frames t
  rw [hpc] at hok
  obtain ⟨hslot, hwrite, hpublished, hroom, hadmitted, hcell⟩ := hok
  rw [advance, hpc] at hstep
  cases hstep
  have hself : ((s.setLane p ⟨(s.lanes p).readPosition, position + 1, (s.lanes p).writePosition,
      (s.lanes p).publishing⟩).setThread t (.clear p sequence)).lanes p =
      ⟨(s.lanes p).readPosition, position + 1, (s.lanes p).writePosition,
        (s.lanes p).publishing⟩ := Function.update_self ..
  have hflag := h.flag t p hlane
  have hread := (h.lanes p).read
  refine
    { threads := rfl, alone := fun t' ht ↦ h.alone hlane ht,
      lane := .inr ⟨rfl, by rw [hself]; exact hflag⟩, ok := ⟨hslot, by rw [hself]; exact hwrite⟩,
      others := fun q hq ↦ Function.update_of_ne hq .., laneOk := ?_, read := by rw [hself],
      published := by rw [hself, hpublished]; exact Nat.le_succ _, cells := fun _ _ _ ↦ rfl,
      written := fun _ hne ↦ absurd rfl hne,
      window := fun position' hle hlt ↦ ?_, grows := List.prefix_rfl, length := h.length,
      fresh := fun _ _ hq ↦ .inl hq, carried := fun q a hq ↦ .inr ?_, consumer := rfl,
      claim := rfl, claimActive := rfl, nextSequence := rfl, acknowledged := rfl }
  · rw [hself]
    exact ⟨by dsimp only; omega, by dsimp only; omega, fun _ ↦ hwrite⟩
  · rw [hself] at hlt
    dsimp only at hlt
    obtain rfl : position' = position := by omega
    exact ⟨sequence, record, hadmitted, hcell⟩
  · rw [hpc] at hq
    cases hq
    rw [hself]
    exact Nat.lt_succ_self _

theorem Inv.effect_outside (hlane : pc.lane = none) (hok : pc.Ok config s)
    (hcarried : (s.threads t).carried = none) :
    Effect config s (s.setThread t pc) t config.producerSlots pc :=
  h.effect_thread (fun _ _ hlane' ↦ absurd (h.lane_lt hlane') (lt_irrefl _)) (.inl hlane) hok
    hcarried

theorem Inv.effect_clear (hlane : (s.threads t).lane = some p)
    (hwrite : (s.lanes p).writePosition = (s.lanes p).publishedPosition) (hpc : pc.lane = none)
    (hok : pc.Ok config s) (hcarried : (s.threads t).carried = none) :
    Effect config s ((s.setPublishing p false).setThread t pc) t p pc :=
  h.effect_flag (fun _ ht ↦ h.alone hlane ht) hwrite (.inl hpc) hok hcarried

theorem Inv.effect_claim (hpc : s.threads t = .idle) (p : ℕ) :
    ∃ q pc, Effect config s (s.tryClaimPublication config t p) t q pc := by
  have hcarried : (s.threads t).carried = none := by rw [hpc]; rfl
  rw [Ingress.tryClaimPublication]
  split
  · exact ⟨_, _, h.effect_outside rfl trivial hcarried⟩
  · next hslot =>
    split
    · exact ⟨_, _, h.effect_outside rfl trivial hcarried⟩
    · next hfree =>
      have hfree' : (s.lanes p).publishing = false := by simpa using hfree
      have hwrite := (h.lanes p).write hfree'
      exact ⟨_, _, h.effect_flag (fun t' _ ↦ h.alone_of_free hfree' t') hwrite (.inr ⟨rfl, rfl⟩)
        ⟨by omega, hwrite⟩ hcarried⟩

theorem Inv.effect_advance (hstep : s.advance config t = some s') :
    ∃ q pc, Effect config s s' t q pc := by
  have hok := h.frames t
  have hstep' := hstep
  rw [advance] at hstep
  cases hpc : s.threads t with
  | idle | refused | claimed | published =>
    rw [hpc] at hstep
    cases hstep
  | loadPositions q =>
    rw [hpc] at hstep hok
    have hlane : (s.threads t).lane = some q := by rw [hpc]; rfl
    have hcarried : (s.threads t).carried = none := by rw [hpc]; rfl
    have halone := fun t' (ht : t' ≠ t) ↦ h.alone hlane ht
    have hread := (h.lanes q).read
    dsimp only at hstep
    split at hstep
    · cases hstep
      exact ⟨_, _, h.effect_thread halone (.inr ⟨rfl, hlane⟩) hok hcarried⟩
    · cases hstep
      refine ⟨_, _, h.effect_thread halone (.inr ⟨rfl, hlane⟩) ?_ hcarried⟩
      exact ⟨hok.1, rfl, hok.2.symm, by omega⟩
  | clearFull q =>
    rw [hpc] at hstep hok
    cases hstep
    exact ⟨_, _, h.effect_clear (by rw [hpc]; rfl) hok.2 rfl trivial (by rw [hpc]; rfl)⟩
  | writeEnvelope => exact ⟨_, _, h.effect_write hpc hstep'⟩
  | publishPosition => exact ⟨_, _, h.effect_publish hpc hstep'⟩
  | clear q sequence =>
    rw [hpc] at hstep hok
    cases hstep
    exact ⟨_, _, h.effect_clear (by rw [hpc]; rfl) hok.2 rfl trivial (by rw [hpc]; rfl)⟩

/-- Every step of a publication is one of these, or a `Publish` that refuses the Record. -/
theorem Inv.step_effect (haction : action.thread = some t)
    (hstep : s.step config action = some s') :
    s' = s ∨ ∃ p pc, Effect config s s' t p pc := by
  cases action with
  | tryClaimPublication t' p =>
    cases haction
    rw [Ingress.step] at hstep
    split at hstep
    · next hpc =>
      cases hstep
      exact .inr (h.effect_claim hpc p)
    · cases hstep
  | publish t' record =>
    cases haction
    rw [Ingress.step] at hstep
    split at hstep
    · next p position hpc =>
      cases hstep
      rw [Ingress.publish]
      split
      · exact .inr ⟨_, _, h.effect_fetch record hpc⟩
      · exact .inl rfl
    · cases hstep
  | abandon t' =>
    cases haction
    rw [Ingress.step] at hstep
    split at hstep
    · next p position hpc =>
      cases hstep
      have hok := h.frames t
      rw [hpc] at hok
      exact .inr ⟨_, _, h.effect_clear (by rw [hpc]; rfl) (hok.2.1.trans hok.2.2.1.symm) rfl
        trivial (by rw [hpc]; rfl)⟩
    · cases hstep
  | advance t' =>
    cases haction
    exact .inr (h.effect_advance hstep)
  | «return» t' =>
    cases haction
    rw [Ingress.step] at hstep
    split at hstep
    · next hpc =>
      cases hstep
      exact .inr ⟨_, _, h.effect_outside rfl trivial (by rw [hpc]; rfl)⟩
    · next hpc =>
      cases hstep
      exact .inr ⟨_, _, h.effect_outside rfl trivial (by rw [hpc]; rfl)⟩
    · cases hstep
  | tryClaimConsumption | scan | acknowledge | cancel => cases haction

end

/-! ## The steps of the consumer -/

variable (config) in
/-- The steps of the consumer. -/
inductive ConsumerMove (s : Ingress) : IngressAction → Ingress → Prop
  | start (hresting : s.consumer.resting = true) :
      ConsumerMove s .tryClaimConsumption
        { s with consumer := if s.claimActive then .returned .pending else .scan 0 false }
  | pass {p : ℕ} {later : Bool} (hpc : s.consumer = .scan p later) (hp : p < config.producerSlots)
      (hempty : (s.lanes p).publishedPosition = (s.lanes p).readPosition) :
      ConsumerMove s .scan { s with consumer := .scan (p + 1) later }
  | look {p : ℕ} {later : Bool} (hpc : s.consumer = .scan p later) (hp : p < config.producerSlots)
      (hready : (s.lanes p).publishedPosition ≠ (s.lanes p).readPosition) :
      ConsumerMove s .scan { s with consumer := .readEnvelope p (s.lanes p).readPosition later }
  | finish {p : ℕ} {later : Bool} (hpc : s.consumer = .scan p later)
      (hp : ¬p < config.producerSlots) :
      ConsumerMove s .scan { s with consumer := .loadSequence later }
  | skip {p readPosition : ℕ} {later : Bool} (hpc : s.consumer = .readEnvelope p readPosition later)
      (hother : (s.cells (config.cellIndex p readPosition)).admissionSequence ≠ s.nextSequence) :
      ConsumerMove s .scan { s with consumer := .scan (p + 1) true }
  | take {p readPosition : ℕ} {later : Bool} (hpc : s.consumer = .readEnvelope p readPosition later)
      (hnext : (s.cells (config.cellIndex p readPosition)).admissionSequence = s.nextSequence) :
      ConsumerMove s .scan
        { s with
          claimActive := true
          claim := some ⟨p, readPosition, s.cells (config.cellIndex p readPosition)⟩
          consumer := .returned
            (.record ⟨p, readPosition, s.cells (config.cellIndex p readPosition)⟩) }
  | answer {later : Bool} (hpc : s.consumer = .loadSequence later) :
      ConsumerMove s .scan { s with
        consumer := .returned
          (if later ∨ s.nextAdmissionSequence ≠ s.nextSequence then .pending else .empty) }
  | acknowledge {c : ConsumptionClaim} (hc : s.claim = some c)
      (hresting : s.consumer.resting = true) : ConsumerMove s .acknowledge (s.acknowledge c)
  | cancel {c : ConsumptionClaim} (hc : s.claim = some c) (hresting : s.consumer.resting = true) :
      ConsumerMove s .cancel { s with claimActive := false, claim := none }

theorem ConsumerMove.of_scan (hstep : s.scan config = some s') :
    s.ConsumerMove config .scan s' := by
  rw [Ingress.scan] at hstep
  cases hpc : s.consumer with
  | idle | returned =>
    rw [hpc] at hstep
    cases hstep
  | scan p later =>
    rw [hpc] at hstep
    dsimp only at hstep
    split at hstep
    · next hp =>
      split at hstep
      · next hempty =>
        cases hstep
        exact .pass hpc hp hempty
      · next hready =>
        cases hstep
        exact .look hpc hp hready
    · next hp =>
      cases hstep
      exact .finish hpc hp
  | readEnvelope p readPosition later =>
    rw [hpc] at hstep
    dsimp only at hstep
    split at hstep
    · next hother =>
      cases hstep
      exact .skip hpc hother
    · next hnext =>
      cases hstep
      exact .take hpc (not_not.mp hnext)
  | loadSequence later =>
    rw [hpc] at hstep
    cases hstep
    exact .answer hpc

theorem ConsumerMove.of_step (haction : action.thread = none)
    (hstep : s.step config action = some s') : s.ConsumerMove config action s' := by
  cases action with
  | tryClaimPublication | publish | abandon | advance | «return» => cases haction
  | tryClaimConsumption =>
    rw [step] at hstep
    split at hstep
    · next hresting =>
      cases hstep
      exact .start hresting
    · cases hstep
  | scan => exact .of_scan hstep
  | acknowledge =>
    rw [step] at hstep
    split at hstep
    · next hresting =>
      obtain ⟨c, hc, rfl⟩ := Option.map_eq_some_iff.mp hstep
      exact .acknowledge hc hresting
    · cases hstep
  | cancel =>
    rw [step] at hstep
    split at hstep
    · next hresting =>
      obtain ⟨c, hc, rfl⟩ := Option.map_eq_some_iff.mp hstep
      exact .cancel hc hresting
    · cases hstep

/-- The head of a lane that shows the next sequence is the Record that has it. -/
theorem Inv.heads (h : s.Inv config) {readPosition : ℕ}
    (hread : (s.lanes p).readPosition = readPosition)
    (hpublished : readPosition < (s.lanes p).publishedPosition)
    (hnext : (s.cells (config.cellIndex p readPosition)).admissionSequence = s.nextSequence) :
    ConsumptionClaim.Heads s ⟨p, readPosition, s.cells (config.cellIndex p readPosition)⟩ := by
  obtain ⟨q, record, hq, hcell⟩ := h.window p readPosition hread.le hpublished
  refine ⟨hread, hpublished, hnext, ?_⟩
  rw [hcell] at hnext ⊢
  rw [← hnext]
  exact hq

/-- The consumer's own words may change as they like, if they describe the claim. -/
theorem Inv.setConsumer (h : s.Inv config) (pc : ScanPc) (claim : Option ConsumptionClaim)
    (hclaim : ∀ c, claim = some c → c.Heads s) (hok : pc.Ok config s) :
    Inv config { s with consumer := pc, claim := claim, claimActive := claim.isSome } :=
  { h with
    frames := fun t ↦
      ok_mono (h.frames t) (fun _ _ ↦ .of_eq rfl) (fun _ _ _ ↦ rfl) List.prefix_rfl
    active := rfl
    claim := fun c hc ↦ { hclaim c hc with }
    consumer := by
      cases pc with
      | readEnvelope => exact hok
      | _ => trivial }

theorem Inv.acknowledge (h : s.Inv config) {c : ConsumptionClaim} (hc : s.claim = some c)
    (hresting : s.consumer.resting = true) : (s.acknowledge c).Inv config := by
  have hheads := h.claim c hc
  have hself : (s.acknowledge c).lanes c.lane = ⟨c.readPosition + 1,
      (s.lanes c.lane).publishedPosition, (s.lanes c.lane).writePosition,
      (s.lanes c.lane).publishing⟩ := Function.update_self ..
  have hother : ∀ q, q ≠ c.lane → (s.acknowledge c).lanes q = s.lanes q :=
    fun q hq ↦ Function.update_of_ne hq ..
  have hread := hheads.read
  have hpublished := hheads.published
  have hkept : ∀ q, PublishFrame.LaneKept (s.lanes q) ((s.acknowledge c).lanes q) ∧
      ((s.acknowledge c).lanes q).publishing = (s.lanes q).publishing := by
    intro q
    by_cases hq : q = c.lane
    · rw [hq, hself]
      exact ⟨⟨rfl, rfl, by dsimp only; omega⟩, rfl⟩
    · rw [hother q hq]
      exact ⟨.of_eq rfl, rfl⟩
  -- the head itself is the one Record that changes sides
  have hside : ∀ q (a : LaneAdmission), s.admissions[q]? = some a →
      (a.position < ((s.acknowledge c).lanes a.lane).readPosition ↔ q < s.nextSequence + 1) := by
    intro q a hq
    have hiff := h.read q a hq
    by_cases hhead : a.lane = c.lane ∧ a.position = c.readPosition
    · have hq' := h.sequence_unique hq hheads.admission hhead.1 hhead.2
      rw [hhead.1, hself]
      dsimp only
      omega
    · have hne : q ≠ s.nextSequence := by
        rintro rfl
        cases hq.symm.trans hheads.admission
        exact hhead ⟨rfl, rfl⟩
      by_cases hlane : a.lane = c.lane
      · have hposition : a.position ≠ c.readPosition := fun heq ↦ hhead ⟨hlane, heq⟩
        rw [hlane] at hiff ⊢
        rw [hself]
        dsimp only
        omega
      · rw [hother _ hlane]
        omega
  refine { h with
    lanes := fun q ↦ ?_, frames := fun t ↦ ?_
    flag := fun t q hq ↦ (hkept q).2.trans (h.flag t q hq)
    window := fun q position hle hlt ↦ ?_, located := fun q a hq ↦ ?_, read := hside
    nextSequence_le := (List.getElem?_eq_some_iff.mp hheads.admission).1, acknowledged := ?_
    active := rfl, claim := fun _ hc ↦ (nomatch hc), consumer := ?_ }
  · by_cases hq : q = c.lane
    · rw [hq, hself]
      have hlanes := h.lanes c.lane
      refine ⟨hpublished, ?_, hlanes.write⟩
      have := hlanes.published
      dsimp only
      omega
    · rw [hother q hq]
      exact h.lanes q
  · exact ok_mono (h.frames t) (fun q _ ↦ (hkept q).1) (fun _ _ _ ↦ rfl) List.prefix_rfl
  · rw [(hkept q).1.published] at hlt
    exact h.window q position ((hkept q).1.read.trans hle) hlt
  · rw [(hkept a.lane).1.published]
    exact h.located q a hq
  · rw [Ingress.acknowledge, h.acknowledged, hheads.sequence, List.range_succ]
  · have hrest : (s.acknowledge c).consumer = s.consumer := rfl
    rw [hrest]
    revert hresting
    cases s.consumer with
    | readEnvelope => exact fun hresting ↦ nomatch hresting
    | _ => exact fun _ ↦ trivial

theorem inv_init : (machine config).init.Inv config where
  lanes := fun _ ↦ ⟨le_rfl, Nat.zero_le _, fun _ ↦ rfl⟩
  frames := fun _ ↦ trivial
  flag := fun _ _ h ↦ nomatch h
  unique := fun _ _ _ h ↦ nomatch h
  length := rfl
  window := fun _ _ _ h ↦ absurd h (Nat.not_lt_zero _)
  located := fun _ _ h ↦ nomatch h
  order := fun _ _ _ _ _ h ↦ nomatch h
  read := fun _ _ h ↦ nomatch h
  nextSequence_le := le_rfl
  acknowledged := rfl
  active := rfl
  claim := fun _ h ↦ nomatch h
  consumer := trivial

theorem Inv.consumerMove (h : s.Inv config) (hmove : s.ConsumerMove config action s') :
    s'.Inv config := by
  have hkeep : ∀ {pc : ScanPc}, pc.Ok config s → Inv config { s with consumer := pc } := by
    intro pc hok
    have hset := h.setConsumer pc s.claim h.claim hok
    rwa [← h.active] at hset
  have hok := h.consumer
  cases hmove with
  | start => exact hkeep (by split <;> trivial)
  | pass | finish | skip | answer => exact hkeep trivial
  | @look p later hpc hp hready =>
    have hread := (h.lanes p).read
    exact hkeep ⟨hp, rfl, by omega⟩
  | take hpc hnext =>
    rw [hpc] at hok
    refine h.setConsumer (.returned _) (some _) (fun c hc ↦ ?_) trivial
    cases hc
    exact h.heads hok.2.1 hok.2.2 hnext
  | acknowledge hc hresting => exact h.acknowledge hc hresting
  | cancel => exact h.setConsumer s.consumer none (fun _ hc ↦ nomatch hc) hok

theorem Inv.step (h : s.Inv config) (hstep : s.step config action = some s') : s'.Inv config := by
  cases haction : action.thread with
  | some t =>
    rcases h.step_effect haction hstep with rfl | ⟨p, pc, e⟩
    · exact h
    · exact h.effect e
  | none => exact h.consumerMove (.of_step haction hstep)

theorem Inv.of_reach {ok : Ingress → IngressAction → Prop} (h : (machine config).Reach ok s) :
    s.Inv config :=
  h.invariant inv_init fun _ _ _ hs _ hstep ↦ hs.step hstep

end Ingress

end Ulog
