import Ulog.Foundation.Machine

/-!
# Queues

The abstract first-in first-out queue, as a machine: what waits, and what has been popped so far. A
program that keeps the whole list of what was pushed and a count of what was popped is at the state
`State.ofHistory`.
-/

namespace Queue

variable {α : Type*}

structure State (α : Type*) where
  waiting : List α
  popped : List α

inductive Action (α : Type*) where
  | push (a : α)
  | pop

/-- Push at the back, pop at the front. -/
def machine (α : Type*) : Machine (State α) (Action α) where
  init := ⟨[], []⟩
  step s
    | .push a => some ⟨s.waiting ++ [a], s.popped⟩
    | .pop =>
      match s.waiting with
      | [] => none
      | a :: rest => some ⟨rest, s.popped ++ [a]⟩

/-- The queue after these pushes and that many pops. -/
def State.ofHistory (pushed : List α) (pops : ℕ) : State α := ⟨pushed.drop pops, pushed.take pops⟩

theorem step_push {pushed : List α} {pops : ℕ} (h : pops ≤ pushed.length) (a : α) :
    (machine α).step (.ofHistory pushed pops) (.push a) =
      some (.ofHistory (pushed ++ [a]) pops) := by
  rw [machine, State.ofHistory, State.ofHistory, List.drop_append_of_le_length h,
    List.take_append_of_le_length h]

theorem step_pop {pushed : List α} {pops : ℕ} (h : pops < pushed.length) :
    (machine α).step (.ofHistory pushed pops) .pop = some (.ofHistory pushed (pops + 1)) := by
  simp only [machine, State.ofHistory, List.drop_eq_getElem_cons h,
    List.take_succ_eq_append_getElem h]

end Queue
