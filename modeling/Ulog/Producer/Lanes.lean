import Mathlib.Algebra.BigOperators.Intervals
import Mathlib.Data.Nat.ModEq
import Ulog.Record.Layout

/-!
# Configuration and lane geometry of the producer kernel

Every producer slot has a private lane, a ring of ingress cells. The constructor of `ProducerLanes`
hands out the cells in order, one more to the first lanes when they do not divide evenly. Positions
of a lane only grow, and a position names the cell at its remainder.

Two facts carry everything that is proved about lanes: cells of different lanes differ, and
positions of one lane that are less than a capacity apart have different cells.

Positions, admission sequences and generations are 64-bit words in the source and natural numbers
here: the runs of the kernel are those in which none of them gets to `2 ^ 64`.
-/

namespace Ulog

structure KernelConfig where
  threshold : UInt8 := Level.info.toByte
  payloadCapacityBytes : ℕ := 0
  maximumRecordBytes : ℕ := Ulog.maximumRecordBytes
  producerSlots : ℕ := maximumProducerSlots
  ingressCells : ℕ := maximumIngressCells
  deriving DecidableEq, Repr

/-- The text that `ThrowInvalidConfiguration` throws. -/
def invalidConfiguration (field detail correction : String) : String :=
  "Invalid producer kernel configuration: " ++ field ++ " " ++ detail ++ " Set " ++ field ++ " " ++
    correction ++ "."

/-- `ValidateConfiguration`; `hasClock` tells whether the event clock has a callback. -/
def validateConfiguration (config : KernelConfig) (hasClock : Bool) : Except String Unit :=
  if Level.none.toByte < config.threshold then
    .error (invalidConfiguration "threshold" "is not a valid ulog::Level enumerator;"
      "to Trace through None")
  else if config.maximumRecordBytes < 128 ∨ maximumRecordBytes < config.maximumRecordBytes ∨
      config.maximumRecordBytes % accountingQuantumBytes ≠ 0 then
    .error (invalidConfiguration "maximum_record_bytes"
      "must be a 64-byte multiple from 128 through 16384;" "to a supported aligned Record bound")
  else if config.payloadCapacityBytes < config.maximumRecordBytes ∨
      config.payloadCapacityBytes % accountingQuantumBytes ≠ 0 then
    .error (invalidConfiguration "payload_capacity_bytes"
      "must be 64-byte aligned and at least maximum_record_bytes;"
      "to an aligned value large enough for one complete Record reservation")
  else if config.producerSlots = 0 ∨ maximumProducerSlots < config.producerSlots then
    .error (invalidConfiguration "producer_slots" "must be between 1 and 32;"
      "to the number of concurrently active application producers")
  else if config.ingressCells < config.producerSlots ∨
      maximumIngressCells < config.ingressCells then
    .error (invalidConfiguration "ingress_cells" "must be between producer_slots and 64;"
      "to at least one private lane cell per producer slot")
  else if !hasClock then
    .error (invalidConfiguration "event_clock" "has no now callback;"
      "to SystemEventClock() or a valid deterministic clock")
  else .ok ()

/-- A configuration that the kernel's constructor accepts. Sizes are words. -/
structure ValidConfig extends KernelConfig where
  valid : validateConfiguration toKernelConfig true = .ok ()
  payloadCapacityBytes_lt : payloadCapacityBytes < wordModulus

namespace ValidConfig

/-- The smallest ring: one producer with one cell. -/
def singleCell : ValidConfig where
  payloadCapacityBytes := 256
  maximumRecordBytes := 128
  producerSlots := 1
  ingressCells := 1
  valid := by decide
  payloadCapacityBytes_lt := by decide

/-- Two producers, with two cells and one. -/
def twoLanes : ValidConfig where
  payloadCapacityBytes := 512
  maximumRecordBytes := 128
  producerSlots := 2
  ingressCells := 3
  valid := by decide
  payloadCapacityBytes_lt := by decide

variable (config : ValidConfig) {p q k l : ℕ}

theorem producerSlots_bounds : 0 < config.producerSlots ∧
    config.producerSlots ≤ maximumProducerSlots ∧ config.producerSlots ≤ config.ingressCells ∧
    config.ingressCells ≤ maximumIngressCells := by
  have hvalid := config.valid
  unfold validateConfiguration at hvalid
  split at hvalid
  · cases hvalid
  split at hvalid
  · cases hvalid
  split at hvalid
  · cases hvalid
  split at hvalid
  · cases hvalid
  next hslots =>
  split at hvalid
  · cases hvalid
  next hcells => omega

/-- The capacity of a lane. -/
def laneCapacity (p : ℕ) : ℕ :=
  config.ingressCells / config.producerSlots +
    if p < config.ingressCells % config.producerSlots then 1 else 0

/-- The first cell of a lane. -/
def laneOffset : ℕ → ℕ
  | 0 => 0
  | p + 1 => laneOffset p + config.laneCapacity p

/-- The cell at a position of a lane. -/
def cellIndex (p position : ℕ) : ℕ := config.laneOffset p + position % config.laneCapacity p

theorem laneCapacity_pos (p : ℕ) : 0 < config.laneCapacity p := by
  obtain ⟨hpos, -, hle, -⟩ := config.producerSlots_bounds
  have := Nat.div_pos hle hpos
  rw [laneCapacity]
  omega

theorem laneOffset_eq (p : ℕ) : config.laneOffset p =
    p * (config.ingressCells / config.producerSlots) +
      min p (config.ingressCells % config.producerSlots) := by
  induction p with
  | zero => simp [laneOffset]
  | succ p ih =>
    rw [laneOffset, ih, laneCapacity, Nat.succ_mul]
    split <;> omega

theorem laneOffset_mono (h : p ≤ q) : config.laneOffset p ≤ config.laneOffset q := by
  rw [laneOffset_eq, laneOffset_eq]
  have := Nat.mul_le_mul_right (config.ingressCells / config.producerSlots) h
  omega

theorem laneOffset_producerSlots :
    config.laneOffset config.producerSlots = config.ingressCells := by
  obtain ⟨hpos, -⟩ := config.producerSlots_bounds
  rw [laneOffset_eq, Nat.min_eq_right (Nat.mod_lt _ hpos).le, Nat.div_add_mod]

theorem cellIndex_lt (position : ℕ) : config.cellIndex p position < config.laneOffset (p + 1) := by
  have := Nat.mod_lt position (config.laneCapacity_pos p)
  rw [cellIndex, laneOffset]
  omega

theorem cellIndex_lt_ingressCells (hp : p < config.producerSlots) (position : ℕ) :
    config.cellIndex p position < config.ingressCells := by
  rw [← laneOffset_producerSlots]
  exact (config.cellIndex_lt position).trans_le (config.laneOffset_mono hp)

theorem cellIndex_ne_of_lane_ne (h : p ≠ q) : config.cellIndex p k ≠ config.cellIndex q l := by
  have hlt : ∀ {p q k l : ℕ}, p < q → config.cellIndex p k < config.cellIndex q l := by
    intro p q k l hpq
    calc config.cellIndex p k < config.laneOffset (p + 1) := config.cellIndex_lt k
      _ ≤ config.laneOffset q := config.laneOffset_mono hpq
      _ ≤ config.cellIndex q l := Nat.le_add_right ..
  rcases Nat.lt_or_gt_of_ne h with hpq | hqp
  · exact (hlt hpq).ne
  · exact (hlt hqp).ne'

/-- Positions less than a capacity apart have different cells. -/
theorem cellIndex_ne_of_lt (hkl : k < l) (hlt : l < k + config.laneCapacity p) :
    config.cellIndex p k ≠ config.cellIndex p l := by
  intro heq
  have hmod : k ≡ l [MOD config.laneCapacity p] := Nat.add_left_cancel heq
  have hle := Nat.le_of_dvd (by omega) ((Nat.modEq_iff_dvd' hkl.le).mp hmod)
  omega

/-- Every cell of a lane is that of one of the next positions. -/
theorem exists_position (p first i : ℕ) :
    ∃ position, first ≤ position ∧ position < first + config.laneCapacity p ∧
      config.cellIndex p position = config.cellIndex p i := by
  have hpos := config.laneCapacity_pos p
  induction first with
  | zero =>
    refine ⟨i % config.laneCapacity p, Nat.zero_le _, ?_, ?_⟩
    · rw [Nat.zero_add]
      exact Nat.mod_lt i hpos
    · rw [cellIndex, cellIndex, Nat.mod_mod]
  | succ first ih =>
    obtain ⟨position, hle, hlt, hcell⟩ := ih
    by_cases heq : position = first
    · refine ⟨position + config.laneCapacity p, by omega, by omega, ?_⟩
      rw [← hcell, cellIndex, cellIndex, Nat.add_mod_right]
    · exact ⟨position, by omega, by omega, hcell⟩

theorem sum_laneCapacity :
    ∑ p ∈ Finset.range config.producerSlots, config.laneCapacity p = config.ingressCells := by
  have hsum : ∀ n, ∑ p ∈ Finset.range n, config.laneCapacity p = config.laneOffset n := by
    intro n
    induction n with
    | zero => rfl
    | succ n ih => rw [Finset.sum_range_succ, ih, laneOffset]
  rw [hsum, laneOffset_producerSlots]

end ValidConfig

/-! ## The constructor of `ProducerLanes`

A configuration bounds the two numbers that the constructor is given. The layout does not depend on
the bounds: the loop is followed here for every number of producers and cells.
-/

/-- What the constructor sets in a lane. -/
structure LaneLayout where
  offset : ℕ
  capacity : ℕ
  deriving DecidableEq, Repr

namespace LaneLayout

/-- The cells of the lane. -/
def range (lane : LaneLayout) : ByteMemory.Range := ⟨lane.offset, lane.capacity⟩

/-- The cell that a write or read position addresses. -/
def cell (lane : LaneLayout) (position : ℕ) : ℕ := lane.offset + position % lane.capacity

end LaneLayout

/-- One round of the loop: the lanes so far and `next_offset`. -/
def layLane (producerCount ingressCells : ℕ) (laid : List LaneLayout × ℕ) (producer : ℕ) :
    List LaneLayout × ℕ :=
  let capacity := ingressCells / producerCount +
    if producer < ingressCells % producerCount then 1 else 0
  (laid.1 ++ [⟨laid.2, capacity⟩], laid.2 + capacity)

/-- The lanes that the constructor lays out. -/
def layLanes (producerCount ingressCells : ℕ) : List LaneLayout :=
  ((List.range producerCount).foldl (layLane producerCount ingressCells) ([], 0)).1

/-- The lanes are the ones that the kernel's model uses. -/
theorem ValidConfig.layLanes_eq (config : ValidConfig) :
    layLanes config.producerSlots config.ingressCells =
      (List.range config.producerSlots).map fun p ↦
        ⟨config.laneOffset p, config.laneCapacity p⟩ := by
  have hloop : ∀ n,
      (List.range n).foldl (layLane config.producerSlots config.ingressCells) ([], 0) =
        ((List.range n).map fun p ↦ ⟨config.laneOffset p, config.laneCapacity p⟩,
          config.laneOffset n) := by
    intro n
    induction n with
    | zero => rfl
    | succ n ih =>
      rw [List.range_succ, List.foldl_append, ih, List.map_append]
      rfl
  rw [layLanes, hloop]

/-- The lanes laid out from cell `0` up to `next`, with the capacities that the division allows. -/
structure LaidOut (minimum next : ℕ) (lanes : List LaneLayout) : Prop where
  tiles : ByteMemory.Tiles 0 next (lanes.map LaneLayout.range)
  contiguous : ∀ p (h : p + 1 < lanes.length),
    lanes[p + 1].offset = lanes[p].offset + lanes[p].capacity
  last : ∀ lane ∈ lanes.getLast?, lane.offset + lane.capacity = next
  capacity : ∀ lane ∈ lanes, lane.capacity = minimum ∨ lane.capacity = minimum + 1

theorem LaidOut.append {minimum next capacity : ℕ} {lanes : List LaneLayout}
    (h : LaidOut minimum next lanes) (hcapacity : capacity = minimum ∨ capacity = minimum + 1) :
    LaidOut minimum (next + capacity) (lanes ++ [⟨next, capacity⟩]) := by
  refine ⟨?_, fun p hp ↦ ?_, ?_, fun lane hlane ↦ ?_⟩
  · rw [List.map_append]
    exact h.tiles.append (ByteMemory.Tiles.singleton next capacity)
  · rw [List.length_append, List.length_singleton] at hp
    rw [List.getElem_append_left (show p < lanes.length by omega)]
    by_cases hlast : p + 1 < lanes.length
    · rw [List.getElem_append_left hlast]
      exact h.contiguous p hlast
    · have hlength : lanes.length = p + 1 := by omega
      rw [List.getElem_append_right (by omega)]
      simp only [hlength, Nat.sub_self, List.getElem_cons_zero]
      refine (h.last _ ?_).symm
      rw [List.getLast?_eq_getElem?, show lanes.length - 1 = p by omega]
      exact List.getElem?_eq_getElem (by omega)
  · intro lane hlane
    rw [List.getLast?_concat, Option.mem_some_iff] at hlane
    rw [← hlane]
  · rcases List.mem_append.mp hlane with hold | hnew
    · exact h.capacity lane hold
    · rw [List.mem_singleton.mp hnew]
      exact hcapacity

theorem laidOut_layLane (producerCount ingressCells n : ℕ) :
    let laid := (List.range n).foldl (layLane producerCount ingressCells) ([], 0)
    LaidOut (ingressCells / producerCount) laid.2 laid.1 ∧ laid.1.length = n ∧
      laid.2 = n * (ingressCells / producerCount) + min n (ingressCells % producerCount) := by
  induction n with
  | zero => exact ⟨⟨.nil 0, nofun, nofun, nofun⟩, rfl, by simp⟩
  | succ n ih =>
    obtain ⟨hlaid, hlength, hnext⟩ := ih
    simp only [List.range_succ, List.foldl_append, List.foldl_cons, List.foldl_nil]
    refine ⟨hlaid.append ?_, ?_, ?_⟩
    · split <;> simp
    · rw [layLane, List.length_append, hlength, List.length_singleton]
    · rw [layLane, hnext, Nat.succ_mul]
      split <;> omega

/-- The cells of a window of at most `capacity` positions lie in the lane and are distinct. -/
theorem LaneLayout.cell_window {lane : LaneLayout} (hpos : 0 < lane.capacity) {read write : ℕ}
    (hwindow : write - read ≤ lane.capacity) :
    (∀ position ∈ Set.Ico read write, lane.range.Contains (lane.cell position)) ∧
      Set.InjOn lane.cell (Set.Ico read write) := by
  refine ⟨fun position _ ↦ ⟨Nat.le_add_right _ _, ?_⟩, fun k hk l hl heq ↦ ?_⟩
  · exact Nat.add_lt_add_left (Nat.mod_lt position hpos) lane.offset
  · have hmod : k ≡ l [MOD lane.capacity] := Nat.add_left_cancel heq
    obtain ⟨hk, hk'⟩ := hk
    obtain ⟨hl, hl'⟩ := hl
    exact Nat.ModEq.eq_of_abs_lt hmod (by rw [abs_lt]; omega)

/-- The lanes partition the cells, and a window of positions addresses distinct cells of its
lane. -/
structure LanePartition (ingressCells : ℕ) (lanes : List LaneLayout) : Prop where
  tiles : ByteMemory.Tiles 0 ingressCells (lanes.map LaneLayout.range)
  contiguous : ∀ p (h : p + 1 < lanes.length),
    lanes[p + 1].offset = lanes[p].offset + lanes[p].capacity
  nonempty : ∀ lane ∈ lanes, 0 < lane.capacity
  balanced : ∀ lane ∈ lanes, ∀ lane' ∈ lanes, lane.capacity ≤ lane'.capacity + 1
  window : ∀ lane ∈ lanes, ∀ read write, read ≤ write → write - read ≤ lane.capacity →
    (∀ position ∈ Set.Ico read write, lane.range.Contains (lane.cell position)) ∧
      Set.InjOn lane.cell (Set.Ico read write)

theorem layLanes_partition (producerCount ingressCells : ℕ) (hpos : 1 ≤ producerCount)
    (hle : producerCount ≤ ingressCells) :
    (layLanes producerCount ingressCells).length = producerCount ∧
      LanePartition ingressCells (layLanes producerCount ingressCells) := by
  obtain ⟨hlaid, hlength, hnext⟩ := laidOut_layLane producerCount ingressCells producerCount
  have hminimum : 0 < ingressCells / producerCount := Nat.div_pos hle hpos
  have hall : ((List.range producerCount).foldl (layLane producerCount ingressCells) ([], 0)).2 =
      ingressCells := by
    rw [hnext, Nat.min_eq_right (Nat.mod_lt ingressCells hpos).le, Nat.div_add_mod]
  have hnonempty : ∀ lane ∈ layLanes producerCount ingressCells, 0 < lane.capacity := by
    intro lane hlane
    have := hlaid.capacity lane hlane
    omega
  rw [hall] at hlaid
  refine ⟨hlength, hlaid.tiles, hlaid.contiguous, hnonempty, fun lane hlane lane' hlane' ↦ ?_,
    fun lane hlane read write _ hwindow ↦ LaneLayout.cell_window (hnonempty lane hlane) hwindow⟩
  have hcapacity := hlaid.capacity lane hlane
  have hcapacity' := hlaid.capacity lane' hlane'
  omega

/-- Eight cells for three lanes. -/
theorem layLanes_partition_uneven : layLanes 3 8 = [⟨0, 3⟩, ⟨3, 3⟩, ⟨6, 2⟩] ∧
    LanePartition 8 (layLanes 3 8) :=
  ⟨by decide, (layLanes_partition 3 8 (by decide) (by decide)).2⟩

end Ulog
