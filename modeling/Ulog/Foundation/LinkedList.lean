import Mathlib.Data.List.Nodup
import Mathlib.Logic.Function.Basic

/-!
# Intrusive linked lists

Nodes that carry their own links. `Linked next head l` says that following the links from `head`
visits the nodes of `l` in order and ends. Such a list has no cycle and no duplicate, because the
links determine it. `LinkedQueue` is a list with a tail pointer.
-/

namespace LinkedList

variable {ι : Type*} {next next' : ι → Option ι} {head tail : Option ι} {l l' : List ι} {i j : ι}

/-- The links lead from `head` through these nodes to the end. -/
def Linked (next : ι → Option ι) : Option ι → List ι → Prop
  | head, [] => head = none
  | head, i :: l => head = some i ∧ Linked next (next i) l

@[simp] theorem linked_nil : Linked next head [] ↔ head = none := Iff.rfl

@[simp] theorem linked_cons : Linked next head (i :: l) ↔ head = some i ∧ Linked next (next i) l :=
  Iff.rfl

namespace Linked

/-- Only the links of the nodes of the list count. -/
theorem congr (h : Linked next head l) (hnext : ∀ i ∈ l, next' i = next i) :
    Linked next' head l := by
  induction l generalizing head with
  | nil => exact h
  | cons i l ih =>
    obtain ⟨hhead, hrest⟩ := h
    refine ⟨hhead, ?_⟩
    rw [hnext i List.mem_cons_self]
    exact ih hrest fun j hj ↦ hnext j (List.mem_cons_of_mem i hj)

theorem unique (h : Linked next head l) (h' : Linked next head l') : l = l' := by
  induction l generalizing head l' with
  | nil =>
    cases l' with
    | nil => rfl
    | cons i l' => cases h.symm.trans h'.1
  | cons i l ih =>
    obtain ⟨rfl, hrest⟩ := h
    cases l' with
    | nil => cases h'
    | cons j l' =>
      obtain ⟨heq, hrest'⟩ := h'
      cases heq
      rw [ih hrest hrest']

/-- From a node of the list the links lead through the rest of it. -/
theorem tail_of_mem (h : Linked next head l) (hi : i ∈ l) :
    ∃ rest, Linked next (next i) rest ∧ rest.length < l.length := by
  induction l generalizing head with
  | nil => cases hi
  | cons j l ih =>
    obtain ⟨-, hrest⟩ := h
    rcases List.mem_cons.mp hi with rfl | hi
    · exact ⟨l, hrest, Nat.lt_succ_self _⟩
    · obtain ⟨rest, hlinked, hlt⟩ := ih hrest hi
      exact ⟨rest, hlinked, Nat.lt_succ_of_lt hlt⟩

theorem nodup (h : Linked next head l) : l.Nodup := by
  induction l generalizing head with
  | nil => exact List.nodup_nil
  | cons i l ih =>
    obtain ⟨-, hrest⟩ := h
    refine List.nodup_cons.mpr ⟨fun hi ↦ ?_, ih hrest⟩
    -- a second visit of the node would have to lead through a shorter rest
    obtain ⟨rest, hlinked, hlt⟩ := hrest.tail_of_mem hi
    rw [hlinked.unique hrest] at hlt
    exact Nat.lt_irrefl _ hlt

variable [DecidableEq ι]

theorem update_of_not_mem (h : Linked next head l) (hi : i ∉ l) (v : Option ι) :
    Linked (Function.update next i v) head l :=
  h.congr fun j hj ↦ Function.update_of_ne (by rintro rfl; exact hi hj) ..

theorem push (h : Linked next head l) (hi : i ∉ l) :
    Linked (Function.update next i head) (some i) (i :: l) := by
  refine ⟨rfl, ?_⟩
  rw [Function.update_self]
  exact h.update_of_not_mem hi head

theorem append (h : Linked next head (l ++ [i])) (hj : j ∉ l ++ [i]) (hend : next j = none) :
    Linked (Function.update next i (some j)) head (l ++ [i, j]) := by
  induction l generalizing head with
  | nil =>
    have hne : j ≠ i := fun heq ↦ hj (List.mem_singleton.mpr heq)
    refine ⟨h.1, ?_, ?_⟩
    · rw [Function.update_self]
    · rw [Function.update_of_ne hne]
      exact hend
  | cons k l ih =>
    have hnodup := h.nodup
    obtain ⟨hhead, hrest⟩ := h
    refine ⟨hhead, ?_⟩
    have hne : k ≠ i := fun heq ↦
      (List.nodup_cons.mp hnodup).1 (heq ▸ List.mem_append_right l List.mem_cons_self)
    rw [Function.update_of_ne hne]
    exact ih hrest fun hmem ↦ hj (List.mem_cons_of_mem k hmem)

end Linked

/-- A linked list with a pointer to its last node. -/
structure LinkedQueue (next : ι → Option ι) (head tail : Option ι) (l : List ι) : Prop where
  linked : Linked next head l
  last : tail = l.getLast?

namespace LinkedQueue

theorem empty : LinkedQueue next none none [] := ⟨rfl, rfl⟩

section

variable (h : LinkedQueue next head tail l)

include h

theorem congr (hnext : ∀ i ∈ l, next' i = next i) :
    LinkedQueue next' head tail l := ⟨h.linked.congr hnext, h.last⟩

theorem tail_eq_none (htail : tail = none) : l = [] :=
  List.getLast?_eq_none_iff.mp (h.last.symm.trans htail)

theorem push_empty (htail : tail = none) (hi : next i = none) :
    LinkedQueue next (some i) (some i) (l ++ [i]) := by
  rw [h.tail_eq_none htail]
  exact ⟨⟨rfl, hi⟩, rfl⟩

theorem pop (hhead : head = some i) :
    ∃ rest, l = i :: rest ∧ LinkedQueue next (next i)
      (if next i = none then none else tail) rest := by
  cases l with
  | nil => cases h.linked.symm.trans hhead
  | cons j rest =>
    obtain ⟨⟨hhead', hlinked⟩, hlast⟩ := h
    cases hhead'.symm.trans hhead
    refine ⟨rest, rfl, hlinked, ?_⟩
    cases rest with
    | nil => rw [if_pos (linked_nil.mp hlinked), List.getLast?_nil]
    | cons k rest =>
      rw [if_neg (by rw [hlinked.1]; nofun), hlast, List.getLast?_cons_cons]

end

variable [DecidableEq ι]

theorem push (h : LinkedQueue next head tail l) (htail : tail = some j) (hi : i ∉ l)
    (hend : next i = none) :
    LinkedQueue (Function.update next j (some i)) head (some i) (l ++ [i]) := by
  obtain ⟨rest, hrest⟩ := List.getLast?_eq_some_iff.mp (h.last.symm.trans htail)
  subst hrest
  refine ⟨?_, ?_⟩
  · rw [List.append_assoc]
    exact h.linked.append hi hend
  · rw [List.getLast?_concat]

end LinkedQueue

end LinkedList
