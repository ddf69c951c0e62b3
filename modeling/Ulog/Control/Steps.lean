import Ulog.Control.Ownership

/-!
# What a step does to a node

In a state that keeps the invariant every check of a call succeeds, so each of its steps does one
thing to its node: a `Turn`. The turns that leave the lists of the reserve alone keep the invariant.
The histories of the reserve speak of a node and its generation while the node has owners; `Keeps`
says of a step that nothing about such a node has changed.
-/

namespace Ulog

open LinkedList Sharing

variable {m m' : ControlMemory} {f : ControlFrame} {call : Option ControlFrame} {α : Type*}
  {p : ControlNode → α} {n n' : ControlNode} {pc : ControlPc}

/-! ## What stays as it was -/

/-- The node is of the same generation, and while it has owners `p` of it is as it was. -/
structure ControlNode.Keeps (p : ControlNode → α) (n n' : ControlNode) : Prop where
  generation : n'.generation = n.generation
  owners : n'.owners ≠ 0 → n.owners ≠ 0
  same : n'.owners ≠ 0 → p n' = p n

/-- The node is as it was up to the link of its task. -/
def ControlNode.Kept (n n' : ControlNode) : Prop := n' = { n with taskNext := n'.taskNext }

theorem ControlNode.Kept.refl (n : ControlNode) : n.Kept n := rfl

theorem ControlNode.Kept.keeps (h : n.Kept n')
    (hp : ∀ n next, p { n with taskNext := next } = p n) :
    n.Keeps p n' := by
  rw [h]
  exact ⟨rfl, id, fun _ ↦ hp n _⟩

namespace Control

/-- Only the links of the queue change. -/
structure Relinked (m m' : ControlMemory) : Prop where
  nodes : ∀ i, m'.nodes i = { m.nodes i with taskNext := (m'.nodes i).taskNext }
  freeHead : m'.freeHead = m.freeHead
  inUse : m'.inUse = m.inUse
  capacity : m'.capacity = m.capacity

theorem Relinked.trans {m' m'' : ControlMemory} (h : Relinked m m') (h' : Relinked m' m'') :
    Relinked m m'' := by
  refine ⟨fun i ↦ ?_, h'.freeHead.trans h.freeHead, h'.inUse.trans h.inUse,
    h'.capacity.trans h.capacity⟩
  rw [h'.nodes, h.nodes]

theorem relinked_setTaskNext (m : ControlMemory) (i : ℕ) (next : Option ℕ) :
    Relinked m (m.setTaskNext i next) := by
  refine ⟨fun j ↦ ?_, rfl, rfl, rfl⟩
  rw [ControlMemory.setTaskNext]
  by_cases hj : j = i
  · rw [hj, ControlMemory.nodes_setNode_self]
  · rw [ControlMemory.nodes_setNode_of_ne m hj]

theorem relinked_pushTask (m : ControlMemory) (i : ℕ) : Relinked m (m.pushTask i) := by
  have hfirst := relinked_setTaskNext m i none
  rw [ControlMemory.pushTask]
  dsimp only
  split
  · exact ⟨hfirst.nodes, rfl, rfl, rfl⟩
  · next tail _ =>
    have hsecond := hfirst.trans (relinked_setTaskNext (m.setTaskNext i none) tail (some i))
    exact ⟨hsecond.nodes, rfl, rfl, rfl⟩

end Control

theorem Control.Relinked.kept (h : Control.Relinked m m') (i : ℕ) :
    (m.nodes i).Kept (m'.nodes i) := h.nodes i

theorem ControlNode.Keeps.refl (n : ControlNode) : n.Keeps p n := ⟨rfl, id, fun _ ↦ rfl⟩

/-- A node at the beginning of its next generation. -/
def ControlNode.started (n : ControlNode) : ControlNode :=
  { generation := n.generation + 1, owners := 2, owner := true }

theorem Control.tryStart_nodes {r : ControlRef} (h : m.tryStart = (m', .ok r)) :
    m'.nodes r.node = (m.nodes r.node).started ∧ (∀ i ≠ r.node, m'.nodes i = m.nodes i) ∧
      r = ⟨r.node, (m.nodes r.node).generation + 1⟩ := by
  rw [ControlMemory.tryStart] at h
  split at h
  · cases h
  · cases h
    exact ⟨Function.update_self .., fun i hi ↦ Function.update_of_ne hi .., rfl⟩

/-- A step that leaves the lists alone changes one node. -/
theorem ControlFrame.step_memory (hstep : f.step m = some (m', call)) (henqueue : f.pc ≠ .enqueue)
    (hfree : f.pc ≠ .pushFree) : m' = m.setNode f.node (m'.nodes f.node) := by
  have hset : ∀ n, m.setNode f.node n =
      m.setNode f.node ((m.setNode f.node n).nodes f.node) := by
    intro n
    rw [m.nodes_setNode_self]
  have hself : m = m.setNode f.node (m.nodes f.node) :=
    congrArg (fun nodes ↦ { m with nodes := nodes }) (Function.update_eq_self ..).symm
  rw [step] at hstep
  generalize f.pc = pc at hstep henqueue hfree
  cases pc with
  | publish outcome report =>
    dsimp only at hstep
    repeat' split at hstep
    all_goals cases hstep
    · exact hset _
    · exact hset _
    · exact hself
  | enqueue => exact absurd rfl henqueue
  | pushFree => exact absurd rfl hfree
  | invoke result =>
    cases hstep
    exact hself
  | install | resetCallback | finish | clear =>
    cases hstep
    exact hset _
  | arm =>
    dsimp only at hstep
    split at hstep <;> cases hstep <;> exact hset _
  | start =>
    dsimp only at hstep
    split at hstep <;> cases hstep
    · exact hset _
    · exact hself
  | release =>
    dsimp only at hstep
    repeat' split at hstep
    all_goals cases hstep
    · exact hself
    · exact hset _
    · exact hset _

/-- A call changes one node; of the others it changes at most a link. -/
theorem ControlFrame.step_other (hstep : f.step m = some (m', call)) {i : ℕ} (hi : i ≠ f.node) :
    (m.nodes i).Kept (m'.nodes i) := by
  by_cases henqueue : f.pc = .enqueue
  · rw [step, henqueue] at hstep
    cases hstep
    exact (Control.relinked_pushTask m f.node).nodes i
  have hsame : m'.nodes i = m.nodes i := by
    by_cases hfree : f.pc = .pushFree
    · rw [step, hfree] at hstep
      cases hstep
      exact m.nodes_setNode_of_ne hi _
    · rw [step_memory hstep henqueue hfree]
      exact m.nodes_setNode_of_ne hi _
  rw [hsame]
  exact .refl _

/-! ## The turns of a call -/

/-- What a step of a call does to its node, in a state that keeps the invariant. -/
inductive ControlFrame.Turn (n : ControlNode) (f : ControlFrame) :
    ControlPc → ControlNode → Option ControlFrame → Prop
  | publishArmed {outcome : OperationOutcome} {report : OperationReport}
      (hcompleted : n.completed = false) (hstate : n.callbackState = .armed) :
      Turn n f (.publish outcome report) { n with
        result := ⟨outcome, report⟩, completed := true, ready := true
        callbackState := .queued, owners := n.owners + 1 } (f.goto .enqueue)
  | publish {outcome : OperationOutcome} {report : OperationReport}
      (hcompleted : n.completed = false)
      (hstate : n.callbackState = .empty ∨ n.callbackState = .installing) :
      Turn n f (.publish outcome report)
        { n with result := ⟨outcome, report⟩, completed := true, ready := true } (f.goto .release)
  | install {callback : OperationCallback} (hstate : n.callbackState = .installing) :
      Turn n f (.install callback) { n with callback := some callback } (f.goto .arm)
  | armCompleted (hstate : n.callbackState = .installing) (hcompleted : n.completed = true) :
      Turn n f .arm { n with callbackState := .queued, owners := n.owners + 1 } (f.goto .enqueue)
  | arm (hstate : n.callbackState = .installing) (hcompleted : n.completed = false) :
      Turn n f .arm { n with callbackState := .armed } (f.goto .release)
  | enqueue (hstate : n.callbackState = .queued) (next : Option ℕ) :
      Turn n f .enqueue { n with taskNext := next } (f.goto .release)
  | start (hstate : n.callbackState = .queued) :
      Turn n f .start { n with callbackState := .running } (f.goto (.invoke n.result))
  | invoke {result : OperationResult} (hstate : n.callbackState = .running)
      (hresult : n.result = result) : Turn n f (.invoke result) n (f.goto .resetCallback)
  | resetCallback (hstate : n.callbackState = .running) :
      Turn n f .resetCallback { n with callback := none } (f.goto .finish)
  | finish (hstate : n.callbackState = .running) :
      Turn n f .finish { n with callbackState := .done } (f.goto .release)
  | release (howners : n.owners - 1 ≠ 0) : Turn n f .release { n with owners := n.owners - 1 } none
  | releaseLast (howners : n.owners = 1) : Turn n f .release { n with owners := 0 } (f.goto .clear)
  | clear (howners : n.owners = 0) : Turn n f .clear n.clear (f.goto .pushFree)
  | pushFree (howners : n.owners = 0) (next : Option ℕ) :
      Turn n f .pushFree { n with nextFree := next } none

namespace Control

variable {s s' : Control} {free queue : List ℕ} {t i : ℕ}

section Turns

variable (h : s.Inv free queue) (hf : s.calls t = some f)

include h hf

theorem Inv.turn (hstep : f.step s.memory = some (m', call)) :
    f.Turn (s.memory.nodes f.node) f.pc (m'.nodes f.node) call := by
  obtain ⟨hlive, hfits⟩ := h.frame t f hf
  have hok := h.ok f.node
  have hcurrent : (s.memory.nodes f.node).generation = f.generation := hlive.current
  have hholds := h.owners_of_holds hf
  rw [ControlFrame.step] at hstep
  generalize f.pc = pc at hfits hstep hholds
  cases pc with
  | publish outcome report =>
    have hcompleted : (s.memory.nodes f.node).completed = false := hfits
    dsimp only at hstep
    rw [if_pos ⟨hcurrent, hcompleted⟩] at hstep
    split at hstep <;> cases hstep
    · next harmed =>
      rw [s.memory.nodes_setNode_self]
      exact .publishArmed hcompleted harmed
    · next harmed =>
      rw [s.memory.nodes_setNode_self]
      refine .publish hcompleted ?_
      cases hstate : (s.memory.nodes f.node).callbackState with
      | empty => exact .inl rfl
      | installing => exact .inr rfl
      | armed => exact absurd hstate harmed
      | queued => cases hcompleted.symm.trans (hok.delivers (h.delivering (.inl hstate)).1)
      | running => cases hcompleted.symm.trans (hok.delivers (h.delivering (.inr hstate)).1)
      | done => cases hcompleted.symm.trans (hok.done hstate)
  | install callback =>
    cases hstep
    rw [s.memory.nodes_setNode_self]
    exact .install hfits
  | arm =>
    dsimp only at hstep
    split at hstep <;> cases hstep
    · next hcompleted =>
      rw [s.memory.nodes_setNode_self]
      exact .armCompleted hfits.1 hcompleted
    · next hcompleted =>
      rw [s.memory.nodes_setNode_self]
      exact .arm hfits.1 (Bool.eq_false_iff.mpr hcompleted)
  | enqueue =>
    cases hstep
    rw [(relinked_pushTask s.memory f.node).nodes f.node]
    exact .enqueue hfits _
  | start =>
    dsimp only at hstep
    rw [if_pos (show (s.memory.nodes f.node).callbackState = .queued from hfits)] at hstep
    cases hstep
    have hframe : ({ f with
        generation := (s.memory.nodes f.node).generation
        pc := .invoke (s.memory.nodes f.node).result } : ControlFrame) =
        f.goto (.invoke (s.memory.nodes f.node).result) := by
      rw [hcurrent]
      rfl
    rw [s.memory.nodes_setNode_self, hframe]
    exact .start hfits
  | invoke result =>
    cases hstep
    exact .invoke hfits.1 hfits.2
  | resetCallback =>
    cases hstep
    rw [s.memory.nodes_setNode_self]
    exact .resetCallback hfits
  | finish =>
    cases hstep
    rw [s.memory.nodes_setNode_self]
    exact .finish hfits
  | release =>
    -- the node is of the generation of the call, has an owner and knows its domain
    have howners := hholds rfl
    dsimp only at hstep
    rw [if_neg (not_or.mpr ⟨not_not.mpr hcurrent, howners⟩)] at hstep
    split at hstep
    · next hne =>
      cases hstep
      rw [s.memory.nodes_setNode_self]
      exact .release hne
    · next hzero =>
      rw [if_pos (hok.owner howners)] at hstep
      cases hstep
      have hone : (s.memory.nodes f.node).owners = 1 := by omega
      rw [s.memory.nodes_setNode_self, hone]
      exact .releaseLast hone
  | clear =>
    cases hstep
    rw [s.memory.nodes_setNode_self]
    exact .clear hfits
  | pushFree =>
    cases hstep
    have hself : (s.memory.pushFree f.node).nodes f.node =
        { s.memory.nodes f.node with nextFree := s.memory.freeHead } :=
      s.memory.nodes_setNode_self ..
    rw [hself]
    exact .pushFree hfits _

/-- The turns that leave the free list and the queue alone keep the invariant. -/
theorem Inv.onTurn (hturn : f.Turn (s.memory.nodes f.node) f.pc n call)
    (henqueue : f.pc ≠ .enqueue) (hfree : f.pc ≠ .pushFree) :
    (s.afterCall t f (s.memory.setNode f.node n) call).Inv free queue := by
  have hok := h.ok f.node
  have hholds := h.owners_of_holds hf
  generalize hpc : f.pc = pc at hturn henqueue hfree hholds
  cases hturn with
  | publishArmed hcompleted hstate =>
    have hdelivers : (s.memory.nodes f.node).delivers = false := by
      simp [ControlNode.delivers, hstate]
    refine h.onGoto hf hpc rfl ⟨rfl, .inr rfl, rfl, .inl rfl, .inr (.inl (.inr ?_)),
      .inr (.inl hdelivers), .inr (.inl (hholds rfl))⟩ (by rw [hdelivers]; rfl)
      (fun role hrole ↦ ?_) (fun hzero ↦ absurd hzero (Nat.succ_ne_zero _))
      ⟨fun _ ↦ hok.owner (hholds rfl), (by rintro ⟨⟩), fun _ ↦ rfl, (by rintro ⟨⟩)⟩
    · rw [hstate]
      rintro ⟨⟩
    · cases hrole
      exact .inr (h.no_deliverer hdelivers)
  | publish hcompleted hstate =>
    have hdelivers : (s.memory.nodes f.node).delivers = false := by
      rcases hstate with hstate | hstate <;> simp [ControlNode.delivers, hstate]
    refine h.onGoto hf hpc trivial ⟨rfl, .inr rfl, rfl, .inl rfl, .inr (.inr ⟨rfl, rfl⟩),
      .inr (.inl hdelivers), .inr (.inr rfl)⟩ rfl (by rintro _ ⟨⟩)
      (fun hzero ↦ absurd hzero (hholds rfl)) ⟨hok.owner, fun harmed ↦ ?_, fun _ ↦ rfl, fun _ ↦ rfl⟩
    rcases hstate with hstate | hstate <;> cases hstate.symm.trans harmed
  | install hstate =>
    exact h.onGoto hf hpc ⟨hstate, Option.some_ne_none _⟩ ⟨rfl, .inr rfl, rfl, .inr (.inr rfl),
      .inl rfl, .inr (.inr ⟨rfl, rfl⟩), .inr (.inr rfl)⟩ rfl (fun _ ↦ .inl)
      (fun hzero ↦ absurd hzero (hholds rfl)) { hok with }
  | armCompleted hstate hcompleted =>
    have hdelivers : (s.memory.nodes f.node).delivers = false := by
      simp [ControlNode.delivers, hstate]
    refine h.onGoto hf hpc rfl ⟨rfl, .inr rfl, rfl, .inr (.inr rfl), .inl rfl,
      .inr (.inl hdelivers), .inr (.inl (hholds rfl))⟩ (by rw [hdelivers]; rfl)
      (fun role hrole ↦ ?_) (fun hzero ↦ absurd hzero (Nat.succ_ne_zero _))
      ⟨fun _ ↦ hok.owner (hholds rfl), (by rintro ⟨⟩), fun _ ↦ hcompleted, (by rintro ⟨⟩)⟩
    cases hrole
    exact .inr (h.no_deliverer hdelivers)
  | arm hstate hcompleted =>
    have hdelivers : (s.memory.nodes f.node).delivers = false := by
      simp [ControlNode.delivers, hstate]
    exact h.onGoto hf hpc trivial ⟨rfl, .inr rfl, rfl, .inr (.inr rfl), .inl rfl,
      .inr (.inl hdelivers), .inr (.inr rfl)⟩ (by rw [hdelivers]; rfl) (by rintro _ ⟨⟩)
      (fun hzero ↦ absurd hzero (hholds rfl))
      ⟨hok.owner, fun _ ↦ hcompleted, (by rintro ⟨⟩), (by rintro ⟨⟩)⟩
  | enqueue => exact absurd rfl henqueue
  | start hstate =>
    obtain ⟨hdelivers, howners⟩ := h.delivering (.inl hstate)
    exact h.onGoto hf hpc ⟨rfl, rfl⟩ ⟨rfl, .inr rfl, rfl, .inr (.inr rfl),
      .inr (.inl (.inr (by rw [hstate]; rintro ⟨⟩))), .inl rfl, .inr (.inr rfl)⟩
      (by rw [hdelivers]; rfl) (fun _ ↦ .inl) (fun hzero ↦ absurd hzero howners)
      ⟨hok.owner, (by rintro ⟨⟩), fun _ ↦ hok.delivers hdelivers, (by rintro ⟨⟩)⟩
  | invoke hstate hresult =>
    obtain ⟨hdelivers, howners⟩ := h.delivering (.inr hstate)
    exact h.onGoto hf hpc hstate ⟨rfl, .inr rfl, rfl, .inr (.inr rfl), .inr (.inr ⟨rfl, rfl⟩),
      .inl rfl, .inr (.inr rfl)⟩ rfl (fun _ ↦ .inl) (fun hzero ↦ absurd hzero howners) hok
  | resetCallback hstate =>
    obtain ⟨hdelivers, howners⟩ := h.delivering (.inr hstate)
    exact h.onGoto hf hpc hstate ⟨rfl, .inr rfl, rfl, .inr (.inr rfl),
      .inr (.inl (.inr (by rw [hstate]; rintro ⟨⟩))), .inl rfl, .inr (.inr rfl)⟩ rfl (fun _ ↦ .inl)
      (fun hzero ↦ absurd hzero howners) { hok with }
  | finish hstate =>
    obtain ⟨hdelivers, howners⟩ := h.delivering (.inr hstate)
    -- the reference of the delivery goes to the call
    exact h.onGoto hf hpc trivial ⟨rfl, .inr rfl, rfl, .inr (.inr rfl),
      .inr (.inl (.inr (by rw [hstate]; rintro ⟨⟩))), .inl rfl, .inr (.inr rfl)⟩
      (by rw [hdelivers]; rfl) (by rintro _ ⟨⟩) (fun hzero ↦ absurd hzero howners)
      ⟨hok.owner, (by rintro ⟨⟩), (by rintro ⟨⟩), fun _ ↦ hok.delivers hdelivers⟩
  | release hne =>
    refine h.onNode hf (fun f' hf' ↦ by cases hf') ⟨rfl, .inr rfl, rfl, .inr (.inr rfl),
      .inr (.inr ⟨rfl, rfl⟩), .inr (.inr ⟨rfl, rfl⟩), .inr (.inl (hholds rfl))⟩ ?_
      (fun f' role hf' ↦ by cases hf') (fun hzero ↦ absurd hzero hne)
      ⟨fun _ ↦ hok.owner (hholds rfl), hok.armed, hok.delivers, hok.done⟩
    rw [hpc]
    change (s.memory.nodes f.node).owners - 1 + 1 + (s.memory.nodes f.node).delivers.toNat =
      (s.memory.nodes f.node).owners + 0 + (s.memory.nodes f.node).delivers.toNat
    omega
  | releaseLast hone =>
    refine h.onGoto hf hpc rfl ⟨rfl, .inr rfl, rfl, .inr (.inr rfl), .inr (.inr ⟨rfl, rfl⟩),
      .inr (.inr ⟨rfl, rfl⟩), .inr (.inl (hholds rfl))⟩ (by rw [hone]; rfl) (fun role hrole ↦ ?_)
      (fun _ ↦ rfl) ⟨absurd rfl, hok.armed, hok.delivers, hok.done⟩
    cases hrole
    exact .inr fun w hw ↦ hholds rfl (h.recycler hw)
  | clear hzero =>
    have hdelivers := h.delivers_of_owners hzero
    exact h.onGoto hf hpc rfl ⟨rfl, .inl hzero, rfl, .inr (.inl ⟨hzero, rfl⟩),
      .inr (.inl (.inl hzero)), .inr (.inl hdelivers), .inl rfl⟩ (by rw [hdelivers, hzero]; rfl)
      (fun _ ↦ .inl) (fun _ ↦ rfl)
      ⟨absurd rfl, (by rintro ⟨⟩), (by rintro ⟨⟩), (by rintro ⟨⟩)⟩
  | pushFree => exact absurd rfl hfree

end Turns

end Control

theorem ControlFrame.Turn.goto (h : f.Turn n pc n' call) {f' : ControlFrame}
    (hcall : call = some f') : ∃ pc, f' = f.goto pc := by
  cases h <;> cases hcall <;> exact ⟨_, rfl⟩

theorem ControlFrame.Turn.generation (h : f.Turn n pc n' call) : n'.generation = n.generation := by
  cases h <;> rfl

/-- A call does not bring a node without owners back to life. -/
theorem ControlFrame.Turn.keeps (h : f.Turn n pc n' call)
    (howners : n.owners = 0 → pc.role = some .recycler)
    (hsame : n'.owners ≠ 0 → p n' = p n) : n.Keeps p n' := by
  refine ⟨h.generation, fun howners' hzero ↦ ?_, hsame⟩
  have hrecycler := howners hzero
  cases h with
  | clear => exact howners' rfl
  | pushFree hzero => exact howners' hzero
  | _ => cases hrecycler

/-! ## Which function is where -/

/-- The points of a function. -/
def ControlFunction.Has : ControlFunction → ControlPc → Prop
  | .tryComplete, .publish .. | .tryComplete, .enqueue => True
  | .registerCallback, .install _ | .registerCallback, .arm | .registerCallback, .enqueue => True
  | .runCallback, .start | .runCallback, .invoke _ | .runCallback, .resetCallback => True
  | .runCallback, .finish => True
  | _, .release | _, .clear | _, .pushFree => True
  | _, _ => False

theorem ControlFrame.Turn.has (h : f.Turn n pc n' call) (hf : f.function.Has pc)
    {f' : ControlFrame} (hcall : call = some f') : f'.function.Has f'.pc := by
  obtain ⟨function, node, generation, _⟩ := f
  cases h with
  | release | pushFree => cases hcall
  | _ =>
    cases hcall
    cases function <;> trivial

namespace Control

variable {s s' : Control} {free queue : List ℕ} {t i : ℕ}

/-- Every call is at a point of its function, and the dispatcher runs callbacks only. -/
def Placed (s : Control) : Prop :=
  ∀ t f, s.calls t = some f →
    f.function.Has f.pc ∧ (f.function = .runCallback ↔ t = dispatcherThread)

theorem Placed.update (h : s.Placed) (hcalls : s'.calls = Function.update s.calls t call)
    (hcall : ∀ f, call = some f →
      f.function.Has f.pc ∧ (f.function = .runCallback ↔ t = dispatcherThread)) : s'.Placed := by
  intro t' f hf
  rw [hcalls] at hf
  rcases update_eq_cases hf with ⟨rfl, heq⟩ | ⟨-, hf⟩
  · exact hcall f heq.symm
  · exact h t' f hf

theorem Placed.step (h : s.Placed) (hinv : s.Inv free queue) {action : ControlAction}
    (hstep : s.step action = some s') : s'.Placed := by
  cases Effect.of_step hstep with
  | nothing => exact h
  | started | movedOperation | movedCompletion | stale | alreadyRegistered => exact h
  | resetOperation ht | tryComplete ht | register ht =>
    refine h.update rfl fun f hf ↦ ?_
    cases hf
    exact ⟨trivial, nofun, fun heq ↦ absurd heq ht.1⟩
  | dispatch =>
    refine h.update rfl fun f hf ↦ ?_
    cases hf
    exact ⟨trivial, fun _ ↦ rfl, fun _ ↦ rfl⟩
  | advance hf hcall =>
    obtain ⟨hhas, hthread⟩ := h _ _ hf
    refine h.update rfl fun f' hf' ↦ ⟨(hinv.turn hf hcall).has hhas hf', ?_⟩
    obtain ⟨pc, rfl⟩ := (hinv.turn hf hcall).goto hf'
    exact hthread

/-- The points at which a callback is delivered are the dispatcher's. -/
theorem Placed.dispatcher (h : s.Placed) (hf : s.calls t = some f)
    (hpc : f.pc = .start ∨ ∃ result, f.pc = .invoke result) :
    t = dispatcherThread ∧ f.function = .runCallback := by
  obtain ⟨hhas, hthread⟩ := h t f hf
  have hfunction : f.function = .runCallback := by
    obtain ⟨function, node, generation, pc⟩ := f
    rcases hpc with hpc | ⟨result, hpc⟩ <;> cases hpc <;> cases function <;>
      first | rfl | cases hhas
  exact ⟨hthread.mp hfunction, hfunction⟩

end Control

end Ulog
