import Mathlib.Algebra.BigOperators.Group.Finset.Basic
import Mathlib.Data.List.Basic
import Mathlib.Logic.Function.Basic

/-!
# Deliveries of a route

The encoded in-memory destination and the file sink keep one delivery per buffer slot. A submitted
delivery is in flight until it is delivered, failed or cancelled, and it occupies its slot until the
worker retires it. `TryRetire`, `SummarizeInFlight` and `DiscardInFlight` are the same three loops
over the slots in both of them.
-/

namespace Ulog

inductive DeliveryState where
  | retired
  | inFlight
  | delivered
  | failed
  | cancelled
  deriving DecidableEq, Repr

inductive DeliveryOutcome where
  | delivered
  | failed
  deriving DecidableEq, Repr

/-- The delivery part of a slot. -/
structure Delivery where
  state : DeliveryState := .retired
  admissionSequence : ℕ := 0
  encodedBytes : ℕ := 0
  deriving DecidableEq, Repr

structure DeliveryRetirement where
  outcome : DeliveryOutcome
  encodedBytes : ℕ
  deriving DecidableEq, Repr

structure InFlightSummary where
  records : ℕ := 0
  bytes : ℕ := 0
  deliveredRecords : ℕ := 0
  deliveredBytes : ℕ := 0
  failedRecords : ℕ := 0
  failedBytes : ℕ := 0
  deriving DecidableEq, Repr

/-- What `StoreRaw` returns. -/
structure StoreResult where
  encodedBytes : ℕ := 0
  submitted : Bool := false
  deriving DecidableEq, Repr

/-- The outcome of a completed delivery. -/
def DeliveryState.outcome : DeliveryState → Option DeliveryOutcome
  | .delivered => some .delivered
  | .failed => some .failed
  | _ => none

/-- The delivery state of an outcome. -/
def DeliveryOutcome.state : DeliveryOutcome → DeliveryState
  | .delivered => .delivered
  | .failed => .failed

theorem DeliveryState.outcome_eq_some {state : DeliveryState} {outcome : DeliveryOutcome} :
    state.outcome = some outcome ↔ state = outcome.state := by
  cases state <;> cases outcome <;> decide

/-- The first slot with a completed delivery of this sequence. -/
def findCompleted (deliveries : ℕ → Delivery) (count sequence : ℕ) : Option ℕ :=
  (List.range count).find? fun i ↦
    (deliveries i).state.outcome.isSome && (deliveries i).admissionSequence == sequence

/-- `TryRetire`. -/
def tryRetire (deliveries : ℕ → Delivery) (count sequence : ℕ) :
    (ℕ → Delivery) × Option DeliveryRetirement :=
  match findCompleted deliveries count sequence with
  | none => (deliveries, none)
  | some i =>
    (Function.update deliveries i { deliveries i with state := .retired },
      (deliveries i).state.outcome.map fun outcome ↦ ⟨outcome, (deliveries i).encodedBytes⟩)

/-- `TryRetire` retires a completed delivery of the sequence and returns its outcome. -/
theorem tryRetire_cases (deliveries : ℕ → Delivery) (count n : ℕ) :
    tryRetire deliveries count n = (deliveries, none) ∨
      ∃ i < count, ∃ o, (deliveries i).state.outcome = some o ∧
        (deliveries i).admissionSequence = n ∧
        tryRetire deliveries count n =
          (Function.update deliveries i { deliveries i with state := .retired },
            some ⟨o, (deliveries i).encodedBytes⟩) := by
  unfold tryRetire findCompleted
  split
  · exact .inl rfl
  · next i hfind =>
    have hi := List.mem_range.mp (List.mem_of_find?_eq_some hfind)
    have hslot := List.find?_some hfind
    rw [Bool.and_eq_true, Option.isSome_iff_exists, beq_iff_eq] at hslot
    obtain ⟨⟨o, ho⟩, hn⟩ := hslot
    exact .inr ⟨i, hi, o, ho, hn, by rw [ho]; rfl⟩

/-- One round of `SummarizeInFlight`. -/
def InFlightSummary.add (summary : InFlightSummary) (watermark : ℕ) (d : Delivery) :
    InFlightSummary :=
  if d.state = .retired ∨ watermark ≤ d.admissionSequence then summary
  else
    let summary :=
      { summary with records := summary.records + 1, bytes := summary.bytes + d.encodedBytes }
    match d.state with
    | .delivered =>
      { summary with
        deliveredRecords := summary.deliveredRecords + 1
        deliveredBytes := summary.deliveredBytes + d.encodedBytes }
    | .failed =>
      { summary with
        failedRecords := summary.failedRecords + 1
        failedBytes := summary.failedBytes + d.encodedBytes }
    | _ => summary

/-- `SummarizeInFlight`. -/
def summarizeInFlight (deliveries : ℕ → Delivery) (count watermark : ℕ) : InFlightSummary :=
  (List.range count).foldl (fun summary i ↦ summary.add watermark (deliveries i)) {}

/-- `DiscardInFlight`. -/
def discardInFlight (deliveries : ℕ → Delivery) (count : ℕ) : ℕ → Delivery :=
  fun i ↦ if i < count then { deliveries i with state := .retired } else deliveries i

/-- `NextGeneration`: a `std::uint64_t` that skips zero. -/
def nextGeneration (generation : ℕ) : ℕ :=
  if (generation + 1) % 2 ^ 64 = 0 then 1 else (generation + 1) % 2 ^ 64

/-! ## The slot with the lowest sequence -/

/-- The scan for the slot with property `p` whose key is lowest. -/
def selectLowest (p : ℕ → Bool) (key : ℕ → ℕ) (count : ℕ) : Option ℕ :=
  (List.range count).foldl
    (fun selected i ↦
      if p i && selected.all fun j ↦ key i < key j then some i else selected) none

theorem selectLowest_succ (p : ℕ → Bool) (key : ℕ → ℕ) (count : ℕ) :
    selectLowest p key (count + 1) =
      if p count && (selectLowest p key count).all fun j ↦ key count < key j then some count
      else selectLowest p key count := by
  rw [selectLowest, List.range_succ, List.foldl_append]
  rfl

theorem selectLowest_spec (p : ℕ → Bool) (key : ℕ → ℕ) (count : ℕ) :
    match selectLowest p key count with
    | none => ∀ i < count, p i = false
    | some i => i < count ∧ p i = true ∧ ∀ j < count, p j = true → key i ≤ key j := by
  induction count with
  | zero =>
    intro i hi
    omega
  | succ count ih =>
    rw [selectLowest_succ]
    cases hsel : selectLowest p key count with
    | none =>
      rw [hsel] at ih
      by_cases hp : p count = true
      · simp only [hp, Option.all_none, Bool.and_self, if_true]
        refine ⟨by omega, trivial, fun j hj hpj ↦ ?_⟩
        by_cases hjc : j = count
        · exact Nat.le_of_eq (by rw [hjc])
        · rw [ih j (by omega)] at hpj
          cases hpj
      · simp only [hp, Bool.false_and, Bool.false_eq_true, if_false]
        intro i hi
        by_cases hic : i = count
        · rw [hic]
          exact Bool.eq_false_iff.mpr hp
        · exact ih i (by omega)
    | some k =>
      rw [hsel] at ih
      obtain ⟨hk, hpk, hmin⟩ := ih
      by_cases hlower : p count = true ∧ key count < key k
      · simp only [hlower, Option.all_some, decide_true, Bool.and_self, if_true]
        refine ⟨by omega, trivial, fun j hj hpj ↦ ?_⟩
        by_cases hjc : j = count
        · exact Nat.le_of_eq (by rw [hjc])
        · exact Nat.le_trans (Nat.le_of_lt hlower.2) (hmin j (by omega) hpj)
      · rw [if_neg (by simpa using fun h ↦ Nat.le_of_not_lt fun hlt ↦ hlower ⟨h, hlt⟩)]
        refine ⟨by omega, hpk, fun j hj hpj ↦ ?_⟩
        by_cases hjc : j = count
        · subst hjc
          exact Nat.le_of_not_lt fun hlt ↦ hlower ⟨hpj, hlt⟩
        · exact hmin j (by omega) hpj

end Ulog
