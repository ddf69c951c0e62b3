import Mathlib.Data.PNat.Defs
import Ulog.Control.Reserve
import Ulog.Foundation.LinkedList
import Ulog.Foundation.Sharing

/-!
# Owners of control nodes

The count of a node is the number of its holders: the handles, the calls that have not released
their reference yet, and the delivery of a callback from the moment it is queued. Beside this, some
things that are done to a node are the business of one party at a time: to publish its result, to
install its callback, to deliver it, to recycle the node. `Control.Inv` says so of a state, with the
free list and the callback queue as lists; a node without holders is free or with its recycler, so
nobody meets a node of a later generation.
-/

namespace Ulog

open LinkedList Sharing

variable {w : Holder} {j : ℕ}

/-! ## Holders and roles -/

/-- A place where a reference to a node can be. -/
inductive Holder where
  | operation (object : ℕ)
  | completion (object : ℕ)
  | call (thread : ℕ)
  /-- the callback of this node, queued or running -/
  | delivery (node : ℕ)
  deriving DecidableEq, Repr

/-- What only one party at a time does to a node. -/
inductive ControlRole where
  | publisher
  | installer
  | deliverer
  | recycler
  deriving DecidableEq, Repr

/-- The call still has a reference of its own to release. -/
def ControlPc.holds : ControlPc → Bool
  | .publish .. | .install _ | .arm | .enqueue | .release => true
  | .start | .invoke _ | .resetCallback | .finish | .clear | .pushFree => false

def ControlPc.role : ControlPc → Option ControlRole
  | .publish .. => some .publisher
  | .install _ | .arm => some .installer
  | .enqueue | .start | .invoke _ | .resetCallback | .finish => some .deliverer
  | .release => none
  | .clear | .pushFree => some .recycler

/-- The callback is queued or running. -/
def ControlNode.delivers (n : ControlNode) : Bool :=
  n.callbackState = .queued || n.callbackState = .running

/-- What a call in progress holds, and the role it plays. -/
def heldBy (call : Option ControlFrame) : Option ℕ :=
  call.bind fun f ↦ if f.pc.holds then some f.node else none

def roleOf (call : Option ControlFrame) : Option (ℕ × ControlRole) :=
  call.bind fun f ↦ f.pc.role.map fun role ↦ (f.node, role)

namespace Control

/-- The node that a holder has a counted reference to. -/
def held (s : Control) : Holder → Option ℕ
  | .operation object => (s.operations object).map ControlRef.node
  | .completion object => (s.completions object).map ControlRef.node
  | .call thread => heldBy (s.calls thread)
  | .delivery node => if (s.memory.nodes node).delivers then some node else none

/-- The roles that are taken; the nodes of the queue wait for their delivery. -/
def roles (s : Control) (queue : List ℕ) : Holder → Option (ℕ × ControlRole)
  | .operation _ => none
  | .completion object => (s.completions object).map fun r ↦ (r.node, .publisher)
  | .call thread => roleOf (s.calls thread)
  | .delivery node => if node ∈ queue then some (node, .deliverer) else none

end Control

/-- What a call knows of its node. -/
def ControlPc.Fits (n : ControlNode) : ControlPc → Prop
  | .publish .. => n.completed = false
  | .install _ => n.callbackState = .installing
  | .arm => n.callbackState = .installing ∧ n.callback ≠ none
  | .enqueue | .start => n.callbackState = .queued
  | .invoke result => n.callbackState = .running ∧ n.result = result
  | .resetCallback | .finish => n.callbackState = .running
  | .release => True
  | .clear | .pushFree => n.owners = 0

/-- The reference is to the current generation of a node in use. -/
structure ControlMemory.Live (m : ControlMemory) (free : List ℕ) (r : ControlRef) : Prop where
  lt : r.node < m.capacity
  not_free : r.node ∉ free
  current : (m.nodes r.node).generation = r.generation

/-- How the fields of a node go together. -/
structure ControlNode.Ok (n : ControlNode) : Prop where
  owner : n.owners ≠ 0 → n.owner = true
  armed : n.callbackState = .armed → n.completed = false
  delivers : n.delivers = true → n.completed = true
  done : n.callbackState = .done → n.completed = true

namespace Control

/-- The invariant of the reserve, with its free list and its queue. -/
structure Inv (s : Control) (free queue : List ℕ) : Prop where
  free_linked : Linked (fun i ↦ (s.memory.nodes i).nextFree) s.memory.freeHead free
  queue_linked : LinkedQueue (fun i ↦ (s.memory.nodes i).taskNext) s.memory.taskHead
    s.memory.taskTail queue
  inUse : s.memory.inUse + free.length = s.memory.capacity
  free_lt : ∀ i ∈ free, i < s.memory.capacity
  free_owners : ∀ i ∈ free, (s.memory.nodes i).owners = 0
  finite : IsFinite s.held
  count : ∀ i, (s.memory.nodes i).owners = (holders s.held i).ncard
  operation : ∀ o r, s.operations o = some r → s.memory.Live free r
  completion : ∀ c r, s.completions c = some r →
    s.memory.Live free r ∧ (s.memory.nodes r.node).completed = false
  frame : ∀ t f, s.calls t = some f → s.memory.Live free f.ref ∧ f.pc.Fits (s.memory.nodes f.node)
  exclusive : Exclusive (s.roles queue)
  queued : ∀ i ∈ queue, i < s.memory.capacity ∧ i ∉ free ∧
    (s.memory.nodes i).callbackState = .queued
  resting : ∀ i < s.memory.capacity, (s.memory.nodes i).owners = 0 →
    i ∈ free ∨ ∃ t, roleOf (s.calls t) = some (i, .recycler)
  ok : ∀ i, (s.memory.nodes i).Ok

variable {s s' : Control} {free queue : List ℕ} {t i : ℕ} {f : ControlFrame}
  {call : Option ControlFrame} {n : ControlNode} {m' : ControlMemory}

/-! ## Nodes without holders -/

theorem heldBy_eq (hholds : f.pc.holds = true) : heldBy (some f) = some f.node := by
  simp [heldBy, hholds]

theorem Inv.owners_ne_zero (h : s.Inv free queue) (hw : s.held w = some i) :
    (s.memory.nodes i).owners ≠ 0 := by
  rw [h.count]
  exact h.finite.ncard_ne_zero hw

/-- A call on a node that nobody holds recycles it. -/
theorem Inv.recycles (h : s.Inv free queue) (hf : s.calls t = some f)
    (howners : (s.memory.nodes f.node).owners = 0) : f.pc.role = some .recycler := by
  obtain ⟨-, hfits⟩ := h.frame t f hf
  have hcall : f.pc.holds = false := by
    rw [← Bool.not_eq_true]
    intro hholds
    refine h.owners_ne_zero (w := .call t) ?_ howners
    rw [held, hf, heldBy_eq hholds]
  have hnode : (s.memory.nodes f.node).delivers = false := by
    rw [← Bool.not_eq_true]
    intro hdelivers
    exact h.owners_ne_zero (w := .delivery f.node) (by rw [held, if_pos hdelivers]) howners
  rw [ControlNode.delivers, Bool.or_eq_false_iff, decide_eq_false_iff_not,
    decide_eq_false_iff_not] at hnode
  cases hpc : f.pc with
  | clear | pushFree => rfl
  | publish | install | arm | enqueue | release =>
    rw [hpc] at hcall
    cases hcall
  | start =>
    rw [hpc] at hfits
    exact absurd hfits hnode.1
  | invoke result =>
    rw [hpc] at hfits
    exact absurd hfits.1 hnode.2
  | resetCallback | finish =>
    rw [hpc] at hfits
    exact absurd hfits hnode.2

theorem Inv.operation_owners (h : s.Inv free queue) {o : ℕ} {r : ControlRef}
    (ho : s.operations o = some r) : (s.memory.nodes r.node).owners ≠ 0 :=
  h.owners_ne_zero (w := .operation o) (by rw [held, ho]; rfl)

theorem Inv.completion_owners (h : s.Inv free queue) {c : ℕ} {r : ControlRef}
    (hc : s.completions c = some r) : (s.memory.nodes r.node).owners ≠ 0 :=
  h.owners_ne_zero (w := .completion c) (by rw [held, hc]; rfl)

theorem Inv.queued_owners (h : s.Inv free queue) (hi : i ∈ queue) :
    (s.memory.nodes i).owners ≠ 0 := by
  refine h.owners_ne_zero (w := .delivery i) ?_
  rw [held, if_pos]
  simp [ControlNode.delivers, (h.queued i hi).2.2]

theorem node_of_roleOf (hcall : ∀ f, call = some f → f.node = i) {role : ControlRole}
    (h : roleOf call = some (j, role)) : j = i := by
  cases call with
  | none => cases h
  | some f =>
    rw [roleOf, Option.bind_some, Option.map_eq_some_iff] at h
    obtain ⟨_, -, heq⟩ := h
    exact (congrArg Prod.fst heq).symm.trans (hcall f rfl)

theorem roleOf_eq {role : ControlRole} (hrole : f.pc.role = some role) :
    roleOf (some f) = some (f.node, role) := by
  rw [roleOf, Option.bind_some, hrole]
  rfl

theorem Inv.role_ne (h : s.Inv free queue) (hf : s.calls t = some f) {t' : ℕ} {f' : ControlFrame}
    (hf' : s.calls t' = some f') (ht : t' ≠ t) (hnode : f'.node = f.node) {role : ControlRole}
    (hrole : f.pc.role = some role) : f'.pc.role ≠ some role := by
  intro hrole'
  have hself : s.roles queue (.call t) = some (f.node, role) := by
    rw [roles, hf, roleOf_eq hrole]
  have hother : s.roles queue (.call t') = some (f.node, role) := by
    rw [roles, hf', roleOf_eq hrole', hnode]
  cases h.exclusive hother hself
  exact ht rfl

/-- Who plays a role: a completion handle, a call, or a node of the queue. -/
theorem roles_eq_some {role : ControlRole} (hw : s.roles queue w = some (i, role)) :
    (role = .publisher ∧ ∃ c r, s.completions c = some r ∧ r.node = i) ∨
      (∃ t f, s.calls t = some f ∧ f.node = i ∧ f.pc.role = some role) ∨
      role = .deliverer ∧ i ∈ queue := by
  cases w with
  | operation o => cases hw
  | completion c =>
    rw [roles, Option.map_eq_some_iff] at hw
    obtain ⟨r, hr, heq⟩ := hw
    cases heq
    exact .inl ⟨rfl, c, r, hr, rfl⟩
  | call t =>
    rw [roles] at hw
    cases hf : s.calls t with
    | none =>
      rw [hf] at hw
      cases hw
    | some f =>
      rw [hf, roleOf, Option.bind_some, Option.map_eq_some_iff] at hw
      obtain ⟨role, hrole, heq⟩ := hw
      cases heq
      exact .inr (.inl ⟨t, f, hf, rfl, hrole⟩)
  | delivery j =>
    rw [roles] at hw
    split_ifs at hw with hj
    cases hw
    exact .inr (.inr ⟨rfl, hj⟩)

theorem Inv.deliverer (h : s.Inv free queue) (hw : s.roles queue w = some (i, .deliverer)) :
    (s.memory.nodes i).callbackState = .queued ∨ (s.memory.nodes i).callbackState = .running := by
  rcases roles_eq_some hw with ⟨heq, -⟩ | ⟨t, f, hf, rfl, hrole⟩ | ⟨-, hi⟩
  · cases heq
  · have hfits := (h.frame t f hf).2
    revert hrole hfits
    cases f.pc with
    | enqueue | start => exact fun _ hfits ↦ .inl hfits
    | invoke result => exact fun _ hfits ↦ .inr hfits.1
    | resetCallback | finish => exact fun _ hfits ↦ .inr hfits
    | _ => nofun
  · exact .inl (h.queued i hi).2.2

theorem Inv.installer (h : s.Inv free queue) (hw : s.roles queue w = some (i, .installer)) :
    (s.memory.nodes i).callbackState = .installing := by
  rcases roles_eq_some hw with ⟨heq, -⟩ | ⟨t, f, hf, rfl, hrole⟩ | ⟨heq, -⟩
  · cases heq
  · have hfits := (h.frame t f hf).2
    revert hrole hfits
    cases f.pc with
    | install callback => exact fun _ hfits ↦ hfits
    | arm => exact fun _ hfits ↦ hfits.1
    | _ => nofun
  · cases heq

theorem Inv.recycler (h : s.Inv free queue) (hw : s.roles queue w = some (i, .recycler)) :
    (s.memory.nodes i).owners = 0 := by
  rcases roles_eq_some hw with ⟨heq, -⟩ | ⟨t, f, hf, rfl, hrole⟩ | ⟨heq, -⟩
  · cases heq
  · have hfits := (h.frame t f hf).2
    revert hrole hfits
    cases f.pc with
    | clear | pushFree => exact fun _ hfits ↦ hfits
    | _ => nofun
  · cases heq

theorem Inv.role_not_free (h : s.Inv free queue) {role : ControlRole}
    (hw : s.roles queue w = some (i, role)) : i ∉ free := by
  rcases roles_eq_some hw with ⟨-, c, r, hc, rfl⟩ | ⟨t, f, hf, rfl, -⟩ | ⟨-, hi⟩
  · exact (h.completion c r hc).1.not_free
  · exact (h.frame t f hf).1.not_free
  · exact (h.queued i hi).2.1

/-! ## How the tables change -/

theorem held_calls (hoperations : s'.operations = s.operations)
    (hcompletions : s'.completions = s.completions)
    (hdelivers : ∀ j, (s'.memory.nodes j).delivers = (s.memory.nodes j).delivers)
    (hcalls : s'.calls = Function.update s.calls t call) :
    s'.held = Function.update s.held (.call t) (heldBy call) := by
  funext w
  cases w <;> simp only [held, hoperations, hcompletions, hdelivers, hcalls] <;>
    grind [held, Function.update_apply]

theorem roles_calls (hcompletions : s'.completions = s.completions)
    (hcalls : s'.calls = Function.update s.calls t call) (queue : List ℕ) :
    s'.roles queue = Function.update (s.roles queue) (.call t) (roleOf call) := by
  funext w
  cases w <;> simp only [roles, hcompletions, hcalls] <;> grind [roles, Function.update_apply]

theorem roles_completions {c : ℕ} {r : Option ControlRef} (hcalls : s'.calls = s.calls)
    (hcompletions : s'.completions = Function.update s.completions c r) (queue : List ℕ) :
    s'.roles queue = Function.update (s.roles queue) (.completion c)
      (r.map fun r ↦ (r.node, .publisher)) := by
  funext w
  cases w <;> simp only [roles, hcompletions, hcalls] <;> grind [roles, Function.update_apply]

theorem roles_concat (s : Control) (queue : List ℕ) (i : ℕ) : s.roles (queue ++ [i]) =
    Function.update (s.roles queue) (.delivery i) (some (i, .deliverer)) := by
  funext w
  cases w <;> grind [roles, Function.update_apply]

theorem roles_tail (s : Control) {rest : List ℕ} (hi : i ∉ rest) : s.roles rest =
    Function.update (s.roles (i :: rest)) (.delivery i) none := by
  funext w
  cases w <;> grind [roles, Function.update_apply]

/-! ## A step on one node -/

/-- A step of thread `t` that changes node `i` and leaves the handles, the free list and the queue
alone. -/
structure NodeStep (s s' : Control) (t i : ℕ) (call : Option ControlFrame) (n : ControlNode) :
    Prop where
  memory : s'.memory = s.memory.setNode i n
  calls : s'.calls = Function.update s.calls t call
  operations : s'.operations = s.operations
  completions : s'.completions = s.completions
  old : ∀ f, s.calls t = some f → f.node = i
  new : ∀ f, call = some f → f.node = i ∧ f.generation = (s.memory.nodes i).generation ∧
    f.pc.Fits n
  nextFree : n.nextFree = (s.memory.nodes i).nextFree
  generation : n.generation = (s.memory.nodes i).generation

namespace NodeStep

theorem held (e : NodeStep s s' t i call n) : s'.held =
    Function.update (Function.update s.held (.call t) (heldBy call)) (.delivery i)
      (if n.delivers then some i else none) := by
  funext w
  cases w <;> simp only [Control.held, e.operations, e.completions, e.calls, e.memory,
    ControlMemory.setNode] <;> grind [Control.held, Function.update_apply]

theorem node_self (e : NodeStep s s' t i call n) : s'.memory.nodes i = n := by
  rw [e.memory]
  exact Function.update_self ..

theorem node_of_ne (e : NodeStep s s' t i call n) (hj : j ≠ i) :
    s'.memory.nodes j = s.memory.nodes j := by
  rw [e.memory]
  exact Function.update_of_ne hj ..

theorem heldBy_of_ne (hcall : ∀ f, call = some f → f.node = i) (hj : j ≠ i) :
    heldBy call ≠ some j := by
  cases call with
  | none => nofun
  | some f =>
    rw [heldBy, Option.bind_some]
    split_ifs
    · intro heq
      exact hj ((Option.some_inj.mp heq).symm.trans (hcall f rfl))
    · nofun

theorem count (e : NodeStep s s' t i call n) (h : s.Inv free queue)
    (hcount : n.owners + (if heldBy (s.calls t) = some i then 1 else 0) +
        (if (s.memory.nodes i).delivers then 1 else 0) =
      (s.memory.nodes i).owners + (if heldBy call = some i then 1 else 0) +
        (if n.delivers then 1 else 0)) (j : ℕ) :
    (s'.memory.nodes j).owners = (holders s'.held j).ncard := by
  have hcall := ncard_holders_update h.finite (.call t) (heldBy call) j
  have hdelivery := ncard_holders_update (h.finite.update (.call t) (heldBy call)) (.delivery i)
    (if n.delivers then some i else none) j
  rw [Function.update_of_ne (by nofun)] at hdelivery
  rw [← e.held] at hdelivery
  have hbefore := h.count j
  by_cases hj : j = i
  · subst hj
    rw [e.node_self]
    have hiff : ∀ b : Bool, (if b then some j else none) = some j ↔ b = true := by
      intro b
      cases b <;> simp
    have hold : s.held (.delivery j) = some j ↔ (s.memory.nodes j).delivers = true := hiff _
    simp only [hold, hiff] at hdelivery
    have hself : s.held (.call t) = heldBy (s.calls t) := rfl
    simp only [hself] at hcall
    omega
  · rw [e.node_of_ne hj]
    have hne : ∀ b : Bool, (if b then some i else none) ≠ some j := by
      intro b
      cases b
      · nofun
      · exact fun heq ↦ hj (Option.some_inj.mp heq).symm
    have hdelivers : s.held (.delivery i) ≠ some j := hne _
    have hold : s.held (.call t) ≠ some j := heldBy_of_ne e.old hj
    rw [if_neg hold, if_neg (heldBy_of_ne (fun f hf ↦ (e.new f hf).1) hj)] at hcall
    rw [if_neg hdelivers, if_neg (hne _)] at hdelivery
    omega

theorem inv (e : NodeStep s s' t i call n) (h : s.Inv free queue) (hlive : i < s.memory.capacity)
    (hfree : i ∉ free) (htaskNext : i ∈ queue → n.taskNext = (s.memory.nodes i).taskNext)
    (hcount : n.owners + (if heldBy (s.calls t) = some i then 1 else 0) +
        (if (s.memory.nodes i).delivers then 1 else 0) =
      (s.memory.nodes i).owners + (if heldBy call = some i then 1 else 0) +
        (if n.delivers then 1 else 0))
    (hpublished : n.completed = true → (s.memory.nodes i).completed = true ∨
      roleOf (s.calls t) = some (i, .publisher))
    (hothers : ∀ t' f, t' ≠ t → s.calls t' = some f → f.node = i →
      f.pc.Fits (s.memory.nodes i) → f.pc.Fits n)
    (hrole : ∀ role, roleOf call = some (i, role) → roleOf (s.calls t) = some (i, role) ∨
      ∀ w, s.roles queue w ≠ some (i, role))
    (hqueued : i ∈ queue → n.callbackState = .queued)
    (hresting : n.owners = 0 → roleOf call = some (i, .recycler)) (hok : n.Ok) :
    s'.Inv free queue := by
  have hcapacity : s'.memory.capacity = s.memory.capacity := by
    rw [e.memory]
    rfl
  have hgeneration : ∀ j, (s'.memory.nodes j).generation = (s.memory.nodes j).generation := by
    intro j
    by_cases hj : j = i
    · rw [hj, e.node_self, e.generation]
    · rw [e.node_of_ne hj]
  have hlives : ∀ {r}, s.memory.Live free r → s'.memory.Live free r := by
    intro r hr
    refine ⟨?_, hr.not_free, ?_⟩
    · rw [hcapacity]
      exact hr.lt
    · rw [hgeneration]
      exact hr.current
  constructor
  case free_linked =>
    rw [e.memory]
    refine h.free_linked.congr fun j hj ↦ ?_
    have hne : j ≠ i := fun heq ↦ hfree (heq ▸ hj)
    exact congrArg ControlNode.nextFree (Function.update_of_ne hne ..)
  case queue_linked =>
    rw [e.memory]
    refine h.queue_linked.congr fun j hjq ↦ ?_
    by_cases hj : j = i
    · subst hj
      exact (congrArg ControlNode.taskNext (Function.update_self ..)).trans (htaskNext hjq)
    · exact congrArg ControlNode.taskNext (Function.update_of_ne hj ..)
  case inUse =>
    rw [e.memory]
    exact h.inUse
  case free_lt =>
    rw [hcapacity]
    exact h.free_lt
  case free_owners =>
    intro j hj
    have hne : j ≠ i := fun heq ↦ hfree (heq ▸ hj)
    rw [e.node_of_ne hne]
    exact h.free_owners j hj
  case finite =>
    rw [e.held]
    exact (h.finite.update _ _).update _ _
  case count => exact e.count h hcount
  case operation =>
    intro o r ho
    rw [e.operations] at ho
    exact hlives (h.operation o r ho)
  case completion =>
    intro c r hc
    rw [e.completions] at hc
    obtain ⟨hr, hcompleted⟩ := h.completion c r hc
    refine ⟨hlives hr, ?_⟩
    by_cases hj : r.node = i
    · rw [hj, e.node_self, ← Bool.not_eq_true]
      intro hnow
      rcases hpublished hnow with hbefore | hpublisher
      · rw [hj, hbefore] at hcompleted
        cases hcompleted
      · -- the handle and the call would both be the publisher
        have hboth : s.roles queue (.completion c) = some (i, .publisher) := by
          rw [Control.roles, hc, Option.map_some, hj]
        cases h.exclusive hboth (show s.roles queue (.call t) = _ from hpublisher)
    · rw [e.node_of_ne hj]
      exact hcompleted
  case frame =>
    intro t' f' hf'
    rw [e.calls] at hf'
    rcases update_eq_cases hf' with ⟨-, hcall⟩ | ⟨ht, hf'⟩
    · obtain ⟨rfl, hcurrent, hfits⟩ := e.new f' hcall.symm
      refine ⟨hlives ⟨hlive, hfree, hcurrent.symm⟩, ?_⟩
      rw [e.node_self]
      exact hfits
    · obtain ⟨hlive', hfits⟩ := h.frame t' f' hf'
      refine ⟨hlives hlive', ?_⟩
      by_cases hj : f'.node = i
      · rw [hj, e.node_self]
        rw [hj] at hfits
        exact hothers t' f' ht hf' hj hfits
      · rw [e.node_of_ne hj]
        exact hfits
  case exclusive =>
    rw [roles_calls e.completions e.calls]
    refine h.exclusive.update fun w' ⟨j, role⟩ hw' hcall hother ↦ ?_
    obtain rfl := node_of_roleOf (fun f hf ↦ (e.new f hf).1) hcall
    rcases hrole role hcall with hsame | hnone
    · exact hw' (h.exclusive hother (show s.roles queue (.call t) = _ from hsame))
    · exact hnone w' hother
  case queued =>
    intro j hj
    rw [hcapacity]
    obtain ⟨hlt, hnot, hstate⟩ := h.queued j hj
    refine ⟨hlt, hnot, ?_⟩
    by_cases hji : j = i
    · subst hji
      rw [e.node_self]
      exact hqueued hj
    · rw [e.node_of_ne hji]
      exact hstate
  case resting =>
    intro j hj howners
    rw [hcapacity] at hj
    by_cases hji : j = i
    · subst hji
      rw [e.node_self] at howners
      refine .inr ⟨t, ?_⟩
      rw [e.calls, Function.update_self]
      exact hresting howners
    · rw [e.node_of_ne hji] at howners
      refine (h.resting j hj howners).imp_right fun ⟨t', ht'⟩ ↦ ⟨t', ?_⟩
      have hne : t' ≠ t := by
        rintro rfl
        exact hji (node_of_roleOf e.old ht')
      rw [e.calls, Function.update_of_ne hne]
      exact ht'
  case ok =>
    intro j
    by_cases hji : j = i
    · subst hji
      rw [e.node_self]
      exact hok
    · rw [e.node_of_ne hji]
      exact h.ok j

end NodeStep

/-! ## The steps of a call -/

/-- What the holder of a role knows stays true while the fields it looks at stay as they are. -/
theorem fits_congr {n n' : ControlNode} {pc : ControlPc} (h : pc.Fits n)
    (hpublisher : pc.role = some .publisher → n'.completed = n.completed)
    (hinstaller : pc.role = some .installer →
      n'.callbackState = n.callbackState ∧ n'.callback = n.callback)
    (hdeliverer : pc.role = some .deliverer →
      n'.callbackState = n.callbackState ∧ n'.result = n.result)
    (hrecycler : pc.role = some .recycler → n'.owners = n.owners) : pc.Fits n' := by
  cases pc with
  | publish outcome report => exact (hpublisher rfl).trans h
  | install callback => exact (hinstaller rfl).1.trans h
  | arm =>
    obtain ⟨hstate, hcallback⟩ := hinstaller rfl
    refine ⟨hstate.trans h.1, ?_⟩
    rw [hcallback]
    exact h.2
  | enqueue | start | resetCallback | finish => exact (hdeliverer rfl).1.trans h
  | invoke result => exact ⟨(hdeliverer rfl).1.trans h.1, (hdeliverer rfl).2.trans h.2⟩
  | release => trivial
  | clear | pushFree => exact (hrecycler rfl).trans h

/-- What a call in this role may write to its node: nothing that the other roles look at, if
somebody may play them. -/
structure Writes (role : Option ControlRole) (n n' : ControlNode) : Prop where
  nextFree : n'.nextFree = n.nextFree
  taskNext : n.owners = 0 ∨ n'.taskNext = n.taskNext
  generation : n'.generation = n.generation
  publisher : role = some .publisher ∨ n.owners = 0 ∧ n'.completed = false ∨
    n'.completed = n.completed
  installer : role = some .installer ∨ (n.owners = 0 ∨ n.callbackState ≠ .installing) ∨
    n'.callbackState = n.callbackState ∧ n'.callback = n.callback
  deliverer : role = some .deliverer ∨ n.delivers = false ∨
    n'.callbackState = n.callbackState ∧ n'.result = n.result
  recycler : role = some .recycler ∨ n.owners ≠ 0 ∨ n'.owners = n.owners

theorem delivers_eq_false {n : ControlNode} : n.delivers = false ↔
    n.callbackState ≠ .queued ∧ n.callbackState ≠ .running := by
  rw [ControlNode.delivers, Bool.or_eq_false_iff, decide_eq_false_iff_not,
    decide_eq_false_iff_not]

section Steps

variable (h : s.Inv free queue) (hf : s.calls t = some f)

include h

theorem Inv.no_deliverer (hdelivers : (s.memory.nodes i).delivers = false) (w : Holder) :
    s.roles queue w ≠ some (i, .deliverer) := by
  obtain ⟨hqueued, hrunning⟩ := delivers_eq_false.mp hdelivers
  exact fun hw ↦ (h.deliverer hw).elim hqueued hrunning

/-- A node whose callback is queued or running has an owner, its delivery. -/
theorem Inv.delivering (hstate : (s.memory.nodes i).callbackState = .queued ∨
    (s.memory.nodes i).callbackState = .running) :
    (s.memory.nodes i).delivers = true ∧ (s.memory.nodes i).owners ≠ 0 := by
  have hdelivers : (s.memory.nodes i).delivers = true := by
    rcases hstate with hstate | hstate <;> simp [ControlNode.delivers, hstate]
  exact ⟨hdelivers, h.owners_ne_zero (w := .delivery i) (by rw [held, if_pos hdelivers])⟩

theorem Inv.delivers_of_owners (howners : (s.memory.nodes i).owners = 0) :
    (s.memory.nodes i).delivers = false := by
  rw [← Bool.not_eq_true]
  intro hdelivers
  exact h.owners_ne_zero (w := .delivery i) (by rw [held, if_pos hdelivers]) howners

include hf

theorem Inv.owners_of_holds (hholds : f.pc.holds = true) : (s.memory.nodes f.node).owners ≠ 0 :=
  h.owners_ne_zero (w := .call t) (by rw [held, hf, heldBy_eq hholds])

theorem Inv.onNode (hcall : ∀ f', call = some f' → f'.ref = f.ref ∧ f'.pc.Fits n)
    (hwrites : Writes f.pc.role (s.memory.nodes f.node) n)
    (hcount : n.owners + f.pc.holds.toNat + (s.memory.nodes f.node).delivers.toNat =
      (s.memory.nodes f.node).owners + (call.any fun f' ↦ f'.pc.holds).toNat + n.delivers.toNat)
    (hrole : ∀ f' role, call = some f' → f'.pc.role = some role → f.pc.role = some role ∨
      ∀ w, s.roles queue w ≠ some (f.node, role))
    (hresting : n.owners = 0 → ∃ f', call = some f' ∧ f'.pc.role = some .recycler) (hok : n.Ok) :
    (s.afterCall t f (s.memory.setNode f.node n) call).Inv free queue := by
  obtain ⟨hlive, hfits⟩ := h.frame t f hf
  have hnew : ∀ f', call = some f' → f'.node = f.node ∧
      f'.generation = (s.memory.nodes f.node).generation ∧ f'.pc.Fits n := by
    intro f' hf'
    obtain ⟨href, hfits'⟩ := hcall f' hf'
    refine ⟨congrArg ControlRef.node href, ?_, hfits'⟩
    exact (congrArg ControlRef.generation href).trans hlive.current.symm
  have hheld : ∀ {g : ControlFrame}, g.node = f.node →
      (heldBy (some g) = some f.node ↔ g.pc.holds = true) := by
    intro g hg
    rw [heldBy, Option.bind_some, hg]
    split_ifs with hholds <;> simp [hholds]
  have e : NodeStep s (s.afterCall t f (s.memory.setNode f.node n) call) t f.node call n :=
    ⟨rfl, rfl, rfl, rfl, fun f' hf' ↦ by cases hf.symm.trans hf'; rfl, hnew, hwrites.nextFree,
      hwrites.generation⟩
  refine e.inv h hlive.lt hlive.not_free
    (fun hi ↦ hwrites.taskNext.resolve_left (h.queued_owners hi)) ?_ (fun hnow ↦ ?_)
    (fun t' f' ht hf' hnode hfits' ↦ ?_)
    (fun role hcall' ↦ ?_) (fun hi ↦ ?_) (fun howners ↦ ?_) hok
  · rw [hf]
    simp only [hheld rfl]
    cases call with
    | none =>
      simp only [heldBy, Option.bind_none, reduceCtorEq, if_false]
      simp only [Option.any_none, Bool.toNat, Bool.cond_eq_ite, Bool.false_eq_true, if_false]
        at hcount
      omega
    | some f' =>
      simp only [hheld (hnew f' rfl).1]
      simp only [Option.any_some, Bool.toNat, Bool.cond_eq_ite] at hcount
      omega
  · rw [hf]
    rcases hwrites.publisher with hrole | ⟨-, hfalse⟩ | hsame
    · exact .inr (roleOf_eq hrole)
    · cases hfalse.symm.trans hnow
    · exact .inl (hsame.symm.trans hnow)
  · -- another call on the node has another role
    have hne : ∀ {role}, f.pc.role = some role → f'.pc.role ≠ some role := fun hrole ↦
      h.role_ne hf hf' ht hnode hrole
    have hrole' : ∀ {role}, f'.pc.role = some role →
        s.roles queue (.call t') = some (f.node, role) := by
      intro role hrole'
      rw [roles, hf', roleOf_eq hrole', hnode]
    have hcounted : ∀ {role}, f'.pc.role = some role → role ≠ .recycler →
        (s.memory.nodes f.node).owners ≠ 0 := by
      intro role hr hne howners
      rw [← hnode] at howners
      exact hne (Option.some_inj.mp (hr.symm.trans (h.recycles hf' howners)))
    refine fits_congr hfits' (fun hr ↦ ?_) (fun hr ↦ ?_) (fun hr ↦ ?_) fun hr ↦ ?_
    · exact (hwrites.publisher.resolve_left fun heq ↦ hne heq hr).resolve_left fun hzero ↦
        hcounted hr nofun hzero.1
    · exact (hwrites.installer.resolve_left fun heq ↦ hne heq hr).resolve_left fun hnot ↦
        hnot.elim (hcounted hr nofun) fun hnot ↦ hnot (h.installer (hrole' hr))
    · exact (hwrites.deliverer.resolve_left fun heq ↦ hne heq hr).resolve_left fun hnot ↦
        h.no_deliverer hnot _ (hrole' hr)
    · exact (hwrites.recycler.resolve_left fun heq ↦ hne heq hr).resolve_left fun hnot ↦
        hnot (h.recycler (hrole' hr))
  · cases call with
    | none => cases hcall'
    | some f' =>
      have hrole' : f'.pc.role = some role := by
        rw [roleOf, Option.bind_some, Option.map_eq_some_iff] at hcall'
        obtain ⟨role', hrole', heq⟩ := hcall'
        exact hrole'.trans (congrArg (fun x ↦ some x.2) heq)
      rw [hf]
      exact (hrole f' role rfl hrole').imp_left roleOf_eq
  · -- nobody else delivers a node of the queue
    have hqueue : s.roles queue (.delivery f.node) = some (f.node, .deliverer) := by
      rw [roles, if_pos hi]
    have hstate := (h.queued f.node hi).2.2
    rcases hwrites.deliverer with hrole | hnot | ⟨hsame, -⟩
    · cases h.exclusive hqueue (show s.roles queue (.call t) = _ by rw [roles, hf, roleOf_eq hrole])
    · exact absurd hqueue (h.no_deliverer hnot _)
    · exact hsame.trans hstate
  · obtain ⟨f', rfl, hrole'⟩ := hresting howners
    rw [roleOf_eq hrole', (hnew f' rfl).1]

/-- A step of a call that goes on at another point. -/
theorem Inv.onGoto {pc pc' : ControlPc} (hpc : f.pc = pc) (hfits : pc'.Fits n)
    (hwrites : Writes pc.role (s.memory.nodes f.node) n)
    (hcount : n.owners + pc.holds.toNat + (s.memory.nodes f.node).delivers.toNat =
      (s.memory.nodes f.node).owners + pc'.holds.toNat + n.delivers.toNat)
    (hrole : ∀ role, pc'.role = some role → pc.role = some role ∨
      ∀ w, s.roles queue w ≠ some (f.node, role))
    (hresting : n.owners = 0 → pc'.role = some .recycler) (hok : n.Ok) :
    (s.afterCall t f (s.memory.setNode f.node n) (f.goto pc')).Inv free queue := by
  subst hpc
  refine h.onNode hf (fun f' hf' ↦ ?_) hwrites hcount (fun f' role hf' hrole' ↦ ?_)
    (fun hzero ↦ ⟨_, rfl, hresting hzero⟩) hok
  · cases hf'
    exact ⟨rfl, hfits⟩
  · cases hf'
    exact hrole role hrole'

end Steps

end Control

end Ulog
