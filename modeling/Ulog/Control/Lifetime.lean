import Ulog.Control.Steps

/-!
# The lifetime of control nodes

The steps that move nodes between the free list, their users and the callback queue: `TryStart`
takes a node from the free list, `Recycle` returns it, a callback is enqueued and taken by the
dispatcher, and handles are moved and given up. Together with the steps on one node they keep the
invariant.
-/

namespace Ulog

open LinkedList Sharing

namespace Control

variable {s s' : Control} {free queue : List ℕ} {t i : ℕ} {f : ControlFrame}
  {call : Option ControlFrame} {n : ControlNode} {m' : ControlMemory} {m : ControlMemory}

/-! ## The queue -/

/-- The free list, the queue and the holders change, but every node has as many holders as before.
The hypotheses are the invariant of the new state, read off the nodes of the old one. -/
theorem Inv.rearrange (h : s.Inv free queue) {free' queue' : List ℕ}
    (hnodes : ∀ i, s'.memory.nodes i = { s.memory.nodes i with
      nextFree := (s'.memory.nodes i).nextFree, taskNext := (s'.memory.nodes i).taskNext })
    (hcapacity : s'.memory.capacity = s.memory.capacity)
    (hfree : Linked (fun i ↦ (s'.memory.nodes i).nextFree) s'.memory.freeHead free')
    (hqueue : LinkedQueue (fun i ↦ (s'.memory.nodes i).taskNext) s'.memory.taskHead
      s'.memory.taskTail queue')
    (hinUse : s'.memory.inUse + free'.length = s.memory.capacity)
    (hunused : ∀ i ∈ free', i < s.memory.capacity ∧ (s.memory.nodes i).owners = 0)
    (hfinite : IsFinite s'.held)
    (hcount : ∀ i, (holders s'.held i).ncard = (holders s.held i).ncard)
    (hoperation : ∀ o r, s'.operations o = some r → s.memory.Live free' r)
    (hcompletion : ∀ c r, s'.completions c = some r →
      s.memory.Live free' r ∧ (s.memory.nodes r.node).completed = false)
    (hframe : ∀ t f, s'.calls t = some f →
      s.memory.Live free' f.ref ∧ f.pc.Fits (s.memory.nodes f.node))
    (hexclusive : Exclusive (s'.roles queue'))
    (hqueued : ∀ i ∈ queue', i < s.memory.capacity ∧ i ∉ free' ∧
      (s.memory.nodes i).callbackState = .queued)
    (hresting : ∀ i < s.memory.capacity, (s.memory.nodes i).owners = 0 →
      i ∈ free' ∨ ∃ t, roleOf (s'.calls t) = some (i, .recycler)) : s'.Inv free' queue' := by
  have hlives : ∀ {r}, s.memory.Live free' r → s'.memory.Live free' r := by
    intro r hr
    refine ⟨hcapacity ▸ hr.lt, hr.not_free, ?_⟩
    rw [hnodes]
    exact hr.current
  refine ⟨hfree, hqueue, hinUse.trans hcapacity.symm, fun i hi ↦ hcapacity ▸ (hunused i hi).1,
    fun i hi ↦ ?_, hfinite, fun i ↦ ?_, fun o r ho ↦ hlives (hoperation o r ho),
    fun c r hc ↦ ⟨hlives (hcompletion c r hc).1, ?_⟩, fun t f hf ↦ ⟨hlives (hframe t f hf).1, ?_⟩,
    hexclusive, fun i hi ↦ ?_, fun i hi hzero ↦ ?_, fun i ↦ ?_⟩
  · rw [hnodes]
    exact (hunused i hi).2
  · rw [hnodes, hcount]
    exact h.count i
  · rw [hnodes]
    exact (hcompletion c r hc).2
  · rw [hnodes]
    exact fits_congr (hframe t f hf).2 (fun _ ↦ rfl) (fun _ ↦ ⟨rfl, rfl⟩) (fun _ ↦ ⟨rfl, rfl⟩)
      fun _ ↦ rfl
  · rw [hcapacity, hnodes]
    exact hqueued i hi
  · rw [hcapacity] at hi
    rw [hnodes] at hzero
    exact hresting i hi hzero
  · rw [hnodes]
    exact ⟨(h.ok i).owner, (h.ok i).armed, (h.ok i).delivers, (h.ok i).done⟩

/-- A thread that does not recycle `i` moves: whoever does goes on. -/
theorem recycler_update (hr : ∃ t, roleOf (s.calls t) = some (i, .recycler))
    (hold : roleOf (s.calls t) ≠ some (i, .recycler)) :
    ∃ t', roleOf (Function.update s.calls t call t') = some (i, .recycler) := by
  obtain ⟨t', ht'⟩ := hr
  refine ⟨t', ?_⟩
  rw [Function.update_of_ne (by rintro rfl; exact hold ht')]
  exact ht'

/-- A step that changes the queue, of a call that holds as much as before. -/
theorem Inv.relink (h : s.Inv free queue) (e : Relinked s.memory s'.memory) {queue' : List ℕ}
    (hcalls : s'.calls = Function.update s.calls t call)
    (hoperations : s'.operations = s.operations) (hcompletions : s'.completions = s.completions)
    (hheld : heldBy call = heldBy (s.calls t))
    (hold : ∀ i, roleOf (s.calls t) ≠ some (i, .recycler))
    (hframe : ∀ f, call = some f → s.memory.Live free f.ref ∧ f.pc.Fits (s.memory.nodes f.node))
    (hlinked : LinkedQueue (fun i ↦ (s'.memory.nodes i).taskNext) s'.memory.taskHead
      s'.memory.taskTail queue')
    (hqueued : ∀ i ∈ queue', i < s.memory.capacity ∧ i ∉ free ∧
      (s.memory.nodes i).callbackState = .queued)
    (hexclusive : Exclusive (s'.roles queue')) : s'.Inv free queue' := by
  have hheld' : s'.held = s.held := by
    rw [held_calls hoperations hcompletions (fun j ↦ by rw [e.nodes]; rfl) hcalls, hheld]
    exact Function.update_eq_self ..
  refine h.rearrange (fun i ↦ by rw [e.nodes]) e.capacity ?_ hlinked (e.inUse ▸ h.inUse)
    (fun i hi ↦ ⟨h.free_lt i hi, h.free_owners i hi⟩) (hheld' ▸ h.finite) (fun i ↦ by rw [hheld'])
    (hoperations ▸ h.operation) (hcompletions ▸ h.completion) (fun t' f' hf' ↦ ?_) hexclusive
    hqueued fun i hi hzero ↦ (h.resting i hi hzero).imp_right fun hr ↦ ?_
  · rw [e.freeHead]
    refine h.free_linked.congr fun j _ ↦ ?_
    rw [e.nodes]
  · rw [hcalls] at hf'
    rcases update_eq_cases hf' with ⟨-, hcall⟩ | ⟨-, hf'⟩
    · exact hframe f' hcall.symm
    · exact h.frame t' f' hf'
  · rw [hcalls]
    exact recycler_update hr (hold i)

theorem taskNext_setTaskNext (m : ControlMemory) (i : ℕ) (next : Option ℕ) :
    (fun j ↦ ((m.setTaskNext i next).nodes j).taskNext) =
      Function.update (fun j ↦ (m.nodes j).taskNext) i next := by
  funext j
  rw [ControlMemory.setTaskNext]
  by_cases hj : j = i
  · rw [hj, ControlMemory.nodes_setNode_self, Function.update_self]
  · rw [ControlMemory.nodes_setNode_of_ne m hj, Function.update_of_ne hj]

theorem linkedQueue_pushTask
    (h : LinkedQueue (fun j ↦ (m.nodes j).taskNext) m.taskHead m.taskTail queue) (hi : i ∉ queue) :
    LinkedQueue (fun j ↦ ((m.pushTask i).nodes j).taskNext) (m.pushTask i).taskHead
      (m.pushTask i).taskTail (queue ++ [i]) := by
  have hfirst : LinkedQueue (fun j ↦ ((m.setTaskNext i none).nodes j).taskNext) m.taskHead
      m.taskTail queue := by
    rw [taskNext_setTaskNext]
    exact h.congr fun j hj ↦ Function.update_of_ne (by rintro rfl; exact hi hj) ..
  have hend : ((m.setTaskNext i none).nodes i).taskNext = none := by
    rw [congrFun (taskNext_setTaskNext m i none) i, Function.update_self]
  rw [ControlMemory.pushTask]
  dsimp only
  split
  · next htail => exact hfirst.push_empty htail hend
  · next tail htail =>
    have hsecond := hfirst.push htail hi hend
    rw [← taskNext_setTaskNext] at hsecond
    exact hsecond

theorem linkedQueue_popTask {m' : ControlMemory}
    (h : LinkedQueue (fun j ↦ (m.nodes j).taskNext) m.taskHead m.taskTail queue)
    (hpop : m.popTask = some (m', i)) : Relinked m m' ∧ ∃ rest, queue = i :: rest ∧
      LinkedQueue (fun j ↦ (m'.nodes j).taskNext) m'.taskHead m'.taskTail rest := by
  rw [ControlMemory.popTask] at hpop
  split at hpop
  · cases hpop
  · next index hhead =>
    cases hpop
    have hlinks := relinked_setTaskNext m i none
    refine ⟨⟨hlinks.nodes, rfl, rfl, rfl⟩, ?_⟩
    have hnodup := h.linked.nodup
    obtain ⟨rest, rfl, hrest⟩ := h.pop hhead
    refine ⟨rest, rfl, ?_⟩
    have hi : i ∉ rest := (List.nodup_cons.mp hnodup).1
    refine hrest.congr fun j hj ↦ ?_
    refine (congrFun (taskNext_setTaskNext m i none) j).trans ?_
    exact Function.update_of_ne (by rintro rfl; exact hi hj) ..

section Steps

variable (h : s.Inv free queue)

include h

theorem Inv.enqueue (hf : s.calls t = some f) (hpc : f.pc = .enqueue)
    (hstep : f.step s.memory = some (m', call)) :
    (s.afterCall t f m' call).Inv free (queue ++ [f.node]) := by
  obtain ⟨hlive, hfits⟩ := h.frame t f hf
  rw [hpc] at hfits
  have hrole : s.roles queue (.call t) = some (f.node, .deliverer) := by
    rw [roles, hf, roleOf_eq (by rw [hpc]; rfl)]
  have hnot : f.node ∉ queue := by
    intro hi
    have hqueue : s.roles queue (.delivery f.node) = some (f.node, .deliverer) := by
      rw [roles, if_pos hi]
    cases h.exclusive hrole hqueue
  rw [ControlFrame.step, hpc] at hstep
  cases hstep
  refine h.relink (relinked_pushTask ..) rfl rfl rfl ?_ ?_ ?_
    (linkedQueue_pushTask h.queue_linked hnot) ?_ ?_
  · rw [hf, heldBy_eq rfl, heldBy_eq (by rw [hpc]; rfl)]
    rfl
  · rw [hf, roleOf, Option.bind_some, hpc]
    exact fun i hi ↦ (by cases hi)
  · intro f' hf'
    cases hf'
    exact ⟨hlive, trivial⟩
  · intro i hi
    rcases List.mem_append.mp hi with hi | hi
    · exact h.queued i hi
    · rw [List.mem_singleton.mp hi]
      exact ⟨hlive.lt, hlive.not_free, hfits⟩
  · have hroles : (s.afterCall t f (s.memory.pushTask f.node) (some (f.goto .release))).roles
        queue = Function.update (s.roles queue) (.call t) (roleOf (some (f.goto .release))) :=
      roles_calls (by rfl) (by rfl) queue
    rw [roles_concat, hroles]
    refine (h.exclusive.update (fun _ _ _ hnone ↦ by cases hnone)).update fun w k hw hk hother ↦ ?_
    cases hk
    by_cases hwt : w = .call t
    · rw [hwt, Function.update_self] at hother
      cases hother
    · rw [Function.update_of_ne hwt] at hother
      exact hwt (h.exclusive hother hrole)

/-- Nobody but its recycler refers to a node without owners. -/
theorem Inv.unreferenced (howners : (s.memory.nodes i).owners = 0) :
    (∀ o r, s.operations o = some r → r.node ≠ i) ∧
      (∀ c r, s.completions c = some r → r.node ≠ i) ∧ i ∉ queue := by
  refine ⟨fun o r ho heq ↦ ?_, fun c r hc heq ↦ ?_, fun hi ↦ h.queued_owners hi howners⟩
  · subst heq
    exact h.operation_owners ho howners
  · subst heq
    exact h.completion_owners hc howners

/-- The free list and the nodes in use make up the reserve. -/
theorem Inv.length_lt (hi : i < s.memory.capacity) (hfree : i ∉ free) :
    free.length < s.memory.capacity := by
  have hnodup : (i :: free).Nodup := List.nodup_cons.mpr ⟨hfree, h.free_linked.nodup⟩
  have hsub : i :: free ⊆ List.range s.memory.capacity := by
    intro j hj
    rcases List.mem_cons.mp hj with rfl | hj
    · exact List.mem_range.mpr hi
    · exact List.mem_range.mpr (h.free_lt j hj)
  have hle := (hnodup.subperm hsub).length_le
  rw [List.length_range, List.length_cons] at hle
  exact hle

theorem Inv.pushFree (hf : s.calls t = some f) (hpc : f.pc = .pushFree)
    (hstep : f.step s.memory = some (m', call)) :
    (s.afterCall t f m' call).Inv (f.node :: free) queue := by
  obtain ⟨hlive, hfits⟩ := h.frame t f hf
  rw [hpc] at hfits
  have howners : (s.memory.nodes f.node).owners = 0 := hfits
  obtain ⟨hoperation, hcompletion, hqueue⟩ := h.unreferenced howners
  rw [ControlFrame.step, hpc] at hstep
  cases hstep
  have hself : (s.memory.pushFree f.node).nodes f.node =
      { s.memory.nodes f.node with nextFree := s.memory.freeHead } :=
    s.memory.nodes_setNode_self ..
  have hother : ∀ {j}, j ≠ f.node → (s.memory.pushFree f.node).nodes j = s.memory.nodes j :=
    fun hj ↦ s.memory.nodes_setNode_of_ne hj _
  have hnode : ∀ j, (s.memory.pushFree f.node).nodes j =
      { s.memory.nodes j with nextFree := ((s.memory.pushFree f.node).nodes j).nextFree } := by
    intro j
    by_cases hj : j = f.node
    · rw [hj, hself]
    · rw [hother hj]
  have hheld : (s.afterCall t f (s.memory.pushFree f.node) none).held = s.held := by
    have hcalls : (s.afterCall t f (s.memory.pushFree f.node) none).held =
        Function.update s.held (.call t) (heldBy none) := by
      refine held_calls rfl rfl (fun j ↦ ?_) rfl
      change ((s.memory.pushFree f.node).nodes j).delivers = _
      rw [hnode j]
      rfl
    rw [hcalls, Function.update_eq_self_iff]
    change heldBy none = heldBy (s.calls t)
    rw [hf, heldBy, heldBy, Option.bind_some, hpc]
    rfl
  have hlives : ∀ {r}, s.memory.Live free r → r.node ≠ f.node →
      s.memory.Live (f.node :: free) r := fun hr hne ↦
    ⟨hr.lt, List.not_mem_cons_of_ne_of_not_mem hne hr.not_free, hr.current⟩
  refine h.rearrange (fun j ↦ ?_) rfl ?_ ?_ ?_ (fun j hj ↦ ?_) (hheld ▸ h.finite)
    (fun j ↦ by rw [hheld]) (fun o r ho ↦ hlives (h.operation o r ho) (hoperation o r ho))
    (fun c r hc ↦ ⟨hlives (h.completion c r hc).1 (hcompletion c r hc), (h.completion c r hc).2⟩)
    (fun t' f' hf' ↦ ?_) ?_ (fun j hj ↦ ?_) (fun j hj hzero ↦ ?_)
  · change (s.memory.pushFree f.node).nodes j = { s.memory.nodes j with
      nextFree := ((s.memory.pushFree f.node).nodes j).nextFree,
      taskNext := ((s.memory.pushFree f.node).nodes j).taskNext }
    rw [hnode j]
  · have hpush := h.free_linked.push (i := f.node) hlive.not_free
    refine hpush.congr fun j _ ↦ ?_
    change ((s.memory.pushFree f.node).nodes j).nextFree = _
    by_cases hj : j = f.node
    · rw [hj, hself, Function.update_self]
    · rw [hother hj, Function.update_of_ne hj]
  · refine h.queue_linked.congr fun j _ ↦ ?_
    change ((s.memory.pushFree f.node).nodes j).taskNext = _
    rw [hnode j]
  · have hlt := h.length_lt hlive.lt hlive.not_free
    have hsum := h.inUse
    change s.memory.inUse - 1 + (free.length + 1) = s.memory.capacity
    omega
  · rcases List.mem_cons.mp hj with rfl | hj
    · exact ⟨hlive.lt, howners⟩
    · exact ⟨h.free_lt j hj, h.free_owners j hj⟩
  · rcases update_eq_cases hf' with ⟨-, hcall⟩ | ⟨ht, hf'⟩
    · cases hcall
    · obtain ⟨hr, hfits'⟩ := h.frame t' f' hf'
      refine ⟨hlives hr fun heq ↦ ?_, hfits'⟩
      have heq : f'.node = f.node := heq
      exact h.role_ne hf hf' ht heq (by rw [hpc]; rfl) (h.recycles hf' (heq ▸ howners))
  · rw [roles_calls (s := s) (by rfl) (by rfl)]
    exact h.exclusive.update fun _ _ _ hnone ↦ by cases hnone
  · obtain ⟨hlt, hnot, hstate⟩ := h.queued j hj
    exact ⟨hlt, List.not_mem_cons_of_ne_of_not_mem (by rintro rfl; exact hqueue hj) hnot, hstate⟩
  · by_cases hjf : j = f.node
    · exact .inl (hjf ▸ List.mem_cons_self)
    · refine (h.resting j hj hzero).imp (List.mem_cons_of_mem _) fun hr ↦ recycler_update hr ?_
      change roleOf (s.calls t) ≠ _
      rw [hf]
      exact fun hr ↦ hjf (node_of_roleOf (fun f' hf' ↦ by cases hf'; rfl) hr)

/-- A step that moves a reference from one place to another, with its role, and leaves the memory
alone. -/
theorem Inv.transfer (w w' : Holder) (hmemory : s'.memory = s.memory) (hw' : s.held w' = none)
    (hheld : s'.held = move s.held w w') (hroles : s'.roles queue = move (s.roles queue) w w')
    (hoperation : ∀ o r, s'.operations o = some r → s.memory.Live free r)
    (hcompletion : ∀ c r, s'.completions c = some r →
      s.memory.Live free r ∧ (s.memory.nodes r.node).completed = false)
    (hframe : ∀ t f, s'.calls t = some f →
      s.memory.Live free f.ref ∧ f.pc.Fits (s.memory.nodes f.node))
    (hrecycler : ∀ i, (∃ t, roleOf (s.calls t) = some (i, .recycler)) →
      ∃ t, roleOf (s'.calls t) = some (i, .recycler)) : s'.Inv free queue :=
  h.rearrange (fun i ↦ by rw [hmemory]) (by rw [hmemory]) (hmemory ▸ h.free_linked)
    (hmemory ▸ h.queue_linked) (hmemory ▸ h.inUse)
    (fun i hi ↦ ⟨h.free_lt i hi, h.free_owners i hi⟩) (hheld ▸ h.finite.move w w')
    (fun i ↦ by rw [hheld, ncard_holders_move h.finite hw']) hoperation hcompletion hframe
    (hroles ▸ h.exclusive.move w w') h.queued
    fun i hi hzero ↦ (h.resting i hi hzero).imp_right (hrecycler i)

theorem Inv.moveOperation {source target : ℕ} (htarget : s.operations target = none)
    (hs' : s' = { s with operations := move s.operations source target }) :
    s'.Inv free queue := by
  subst hs'
  refine h.transfer (.operation source) (.operation target) rfl ?_ ?_ ?_ (fun o r ho ↦ ?_)
    h.completion h.frame fun _ hr ↦ hr
  · rw [held, htarget]
    rfl
  · funext w
    cases w <;> grind [held, move_apply]
  · funext w
    cases w <;> grind [roles, move_apply]
  · rcases eq_some_of_move ho with ho | ho
    · exact h.operation source r ho
    · exact h.operation o r ho

theorem Inv.moveCompletion {source target : ℕ} (htarget : s.completions target = none)
    (hs' : s' = { s with completions := move s.completions source target }) :
    s'.Inv free queue := by
  subst hs'
  refine h.transfer (.completion source) (.completion target) rfl ?_ ?_ ?_ h.operation
    (fun c r hc ↦ ?_) h.frame fun _ hr ↦ hr
  · rw [held, htarget]
    rfl
  · funext w
    cases w <;> grind [held, move_apply]
  · funext w
    cases w <;> grind [roles, move_apply]
  · rcases eq_some_of_move hc with hc | hc
    · exact h.completion source r hc
    · exact h.completion c r hc

/-- A handle gives its reference, and its role, to a call that begins. -/
theorem Inv.giveToCall (w : Holder) (ht : s.calls t = none) (hmemory : s'.memory = s.memory)
    (hcalls : s'.calls = Function.update s.calls t (some f))
    (hheld : s'.held = move s.held w (.call t))
    (hroles : s'.roles queue = move (s.roles queue) w (.call t))
    (hoperation : ∀ o r, s'.operations o = some r → s.operations o = some r)
    (hcompletion : ∀ c r, s'.completions c = some r → s.completions c = some r)
    (hframe : s.memory.Live free f.ref ∧ f.pc.Fits (s.memory.nodes f.node)) :
    s'.Inv free queue := by
  refine h.transfer w (.call t) hmemory ?_ hheld hroles
    (fun o r ho ↦ h.operation o r (hoperation o r ho))
    (fun c r hc ↦ h.completion c r (hcompletion c r hc)) (fun t' f' hf' ↦ ?_) (fun i hr ↦ ?_)
  · rw [held, ht]
    rfl
  · rw [hcalls] at hf'
    rcases update_eq_cases hf' with ⟨-, heq⟩ | ⟨-, hf'⟩
    · cases heq
      exact hframe
    · exact h.frame t' f' hf'
  · rw [hcalls]
    refine recycler_update hr ?_
    rw [ht]
    rintro ⟨⟩

theorem Inv.resetOperation {o : ℕ} {r : ControlRef} (ht : s.calls t = none)
    (ho : s.operations o = some r)
    (hf : f = ⟨.releaseHandle, r.node, r.generation, .release⟩)
    (hs' : s' = { s.setCall t (some f) with
      operations := Function.update s.operations o none }) : s'.Inv free queue := by
  subst hs'
  refine h.giveToCall (.operation o) ht rfl rfl ?_ ?_ (fun o' r' ho' ↦ ?_) (fun _ _ hc ↦ hc) ?_
  · have hheld : heldBy (some f) = some r.node := hf ▸ rfl
    funext w
    cases w <;> simp only [held, setCall, move_apply, Function.update_apply] <;> grind
  · have hrole : roleOf (some f) = none := hf ▸ rfl
    funext w
    cases w <;> simp only [roles, setCall, move_apply, Function.update_apply] <;> grind
  · exact eq_some_of_update_none ho'
  · subst hf
    exact ⟨h.operation o r ho, trivial⟩

/-- The reference of the handle and the right to publish go to the call. -/
theorem Inv.tryComplete {c : ℕ} {r : ControlRef} {outcome : OperationOutcome}
    {report : OperationReport} (ht : s.calls t = none) (hc : s.completions c = some r)
    (hf : f = ⟨.tryComplete, r.node, r.generation, .publish outcome report⟩)
    (hs' : s' = { s.setCall t (some f) with
      completions := Function.update s.completions c none }) : s'.Inv free queue := by
  subst hs'
  refine h.giveToCall (.completion c) ht rfl rfl ?_ ?_ (fun _ _ ho ↦ ho) (fun c' r' hc' ↦ ?_) ?_
  · have hheld : heldBy (some f) = some r.node := hf ▸ rfl
    funext w
    cases w <;> simp only [held, setCall, move_apply, Function.update_apply] <;> grind
  · have hrole : roleOf (some f) = some (r.node, .publisher) := hf ▸ rfl
    funext w
    cases w <;> simp only [roles, setCall, move_apply, Function.update_apply] <;> grind
  · exact eq_some_of_update_none hc'
  · subst hf
    exact h.completion c r hc

theorem Inv.register {o : ℕ} {r : ControlRef} {callback : OperationCallback}
    (ht : s.calls t = none) (ho : s.operations o = some r)
    (hempty : (s.memory.nodes r.node).callbackState = .empty)
    (hs' : s' = { s.setCall t (some ⟨.registerCallback, r.node, r.generation, .install callback⟩)
      with memory := s.memory.setNode r.node { s.memory.nodes r.node with
        callbackState := .installing, owners := (s.memory.nodes r.node).owners + 1 } }) :
    s'.Inv free queue := by
  have hlive := h.operation o r ho
  have howners := h.operation_owners ho
  have hok := h.ok r.node
  have hdelivers : (s.memory.nodes r.node).delivers = false := by
    rw [delivers_eq_false, hempty]
    exact ⟨nofun, nofun⟩
  have hinstaller : ∀ w, s.roles queue w ≠ some (r.node, .installer) := by
    intro w hw
    rw [h.installer hw] at hempty
    cases hempty
  have e : NodeStep s s' t r.node
      (some ⟨.registerCallback, r.node, r.generation, .install callback⟩)
      { s.memory.nodes r.node with
        callbackState := .installing, owners := (s.memory.nodes r.node).owners + 1 } := by
    refine ⟨by rw [hs'], by rw [hs']; rfl, by rw [hs']; rfl, by rw [hs']; rfl, fun f hf ↦ ?_,
      fun f hf ↦ ?_, rfl, rfl⟩
    · cases ht.symm.trans hf
    · cases hf
      exact ⟨rfl, hlive.current.symm, rfl⟩
  refine e.inv h hlive.lt hlive.not_free (fun _ ↦ rfl) ?_ (fun hnow ↦ .inl hnow)
    (fun t' f' ht' hf' hnode hfits ↦ ?_) (fun role hrole ↦ ?_) (fun hi ↦ ?_)
    (fun hzero ↦ absurd hzero (Nat.succ_ne_zero _)) ⟨fun _ ↦ hok.owner howners, nofun, nofun, nofun⟩
  · rw [ht, hdelivers, heldBy_eq rfl]
    simp [heldBy, ControlNode.delivers]
  · have hrole : ∀ {role}, f'.pc.role = some role →
        s.roles queue (.call t') = some (r.node, role) := by
      intro role hrole
      rw [roles, hf', roleOf_eq hrole, hnode]
    refine fits_congr hfits (fun _ ↦ rfl) (fun hr ↦ ?_) (fun hr ↦ ?_) fun hr ↦ ?_
    · exact absurd (hrole hr) (hinstaller _)
    · exact absurd (hrole hr) (h.no_deliverer hdelivers _)
    · exact absurd (h.recycler (hrole hr)) howners
  · cases hrole
    exact .inr hinstaller
  · rw [(h.queued r.node hi).2.2] at hempty
    cases hempty

theorem Inv.dispatch (ht : s.calls t = none) (hpop : s.memory.popTask = some (m', i))
    (hs' : s' = { s.setCall t (some ⟨.runCallback, i, (m'.nodes i).generation, .start⟩) with
      memory := m' }) : ∃ rest, queue = i :: rest ∧ s'.Inv free rest := by
  obtain ⟨hrelinked, rest, rfl, hlinked⟩ := linkedQueue_popTask h.queue_linked hpop
  refine ⟨rest, rfl, ?_⟩
  have hi : i ∉ rest := (List.nodup_cons.mp h.queue_linked.linked.nodup).1
  obtain ⟨hlt, hfree, hstate⟩ := h.queued i List.mem_cons_self
  have hcalls : s'.calls = Function.update s.calls t
      (some ⟨.runCallback, i, (m'.nodes i).generation, .start⟩) := by
    rw [hs']
    rfl
  have hmemory : s'.memory = m' := by rw [hs']
  refine h.relink (by rw [hmemory]; exact hrelinked) hcalls (by rw [hs']; rfl) (by rw [hs']; rfl)
    ?_ ?_ ?_ (by rw [hmemory]; exact hlinked)
    (fun j hj ↦ h.queued j (List.mem_cons_of_mem i hj)) ?_
  · rw [ht]
    rfl
  · rw [ht]
    exact fun _ hr ↦ nomatch hr
  · intro f hf
    cases hf
    refine ⟨⟨hlt, hfree, ?_⟩, hstate⟩
    change (s.memory.nodes i).generation = (m'.nodes i).generation
    rw [hrelinked.nodes i]
  · have hdelivery : s.roles (i :: rest) (.delivery i) = some (i, .deliverer) := by
      rw [roles, if_pos List.mem_cons_self]
    have hroles : s'.roles rest = Function.update (s.roles rest) (.call t)
        (roleOf (some ⟨.runCallback, i, (m'.nodes i).generation, .start⟩)) :=
      roles_calls (by rw [hs']; rfl) hcalls rest
    rw [hroles, roles_tail s hi]
    refine (h.exclusive.update fun _ _ _ hnone ↦ by cases hnone).update fun w k hw hk hother ↦ ?_
    cases hk
    by_cases hwi : w = .delivery i
    · rw [hwi, Function.update_self] at hother
      cases hother
    · rw [Function.update_of_ne hwi] at hother
      exact hwi (h.exclusive hother hdelivery)

theorem Inv.tryStart {o c : ℕ} {r : ControlRef} (ho : s.operations o = none)
    (hc : s.completions c = none) (hstart : s.memory.tryStart = (m', .ok r))
    (hs' : s' = { s with
      memory := m'
      operations := Function.update s.operations o (some r)
      completions := Function.update s.completions c (some r) }) :
    ∃ rest, free = r.node :: rest ∧ s'.Inv rest queue := by
  rw [ControlMemory.tryStart] at hstart
  split at hstart
  · cases hstart
  next i hhead =>
  cases hstart
  obtain ⟨rest, rfl⟩ : ∃ rest, free = i :: rest := by
    cases hfree : free with
    | nil =>
      rw [hfree] at h
      cases h.free_linked.symm.trans hhead
    | cons j rest =>
      rw [hfree] at h
      cases h.free_linked.1.symm.trans hhead
      exact ⟨rest, rfl⟩
  refine ⟨rest, rfl, ?_⟩
  have hi : i ∉ rest := (List.nodup_cons.mp h.free_linked.nodup).1
  have howners := h.free_owners i List.mem_cons_self
  have hdelivers := h.delivers_of_owners howners
  obtain ⟨hoperation, hcompletion, hqueue⟩ := h.unreferenced howners
  have hcapacity : s'.memory.capacity = s.memory.capacity := by rw [hs']; rfl
  have hself : s'.memory.nodes i =
      { generation := (s.memory.nodes i).generation + 1, owners := 2, owner := true } := by
    rw [hs']
    exact Function.update_self ..
  have hother : ∀ {j}, j ≠ i → s'.memory.nodes j = s.memory.nodes j := by
    intro j hj
    rw [hs']
    exact Function.update_of_ne hj ..
  have hlives : ∀ {r}, s.memory.Live (i :: rest) r → s'.memory.Live rest r := by
    intro r hr
    refine ⟨?_, fun hmem ↦ hr.not_free (List.mem_cons_of_mem i hmem), ?_⟩
    · rw [hcapacity]
      exact hr.lt
    · rw [hother fun heq ↦ hr.not_free (heq ▸ List.mem_cons_self)]
      exact hr.current
  have hnew : s'.memory.Live rest ⟨i, (s.memory.nodes i).generation + 1⟩ := by
    refine ⟨?_, hi, ?_⟩
    · rw [hcapacity]
      exact h.free_lt i List.mem_cons_self
    · rw [hself]
  have hheld : s'.held = Function.update (Function.update s.held (.operation o) (some i))
      (.completion c) (some i) := by
    funext w
    cases w with
    | delivery j =>
      rw [Function.update_of_ne (by rintro ⟨⟩), Function.update_of_ne (by rintro ⟨⟩), held, held]
      by_cases hj : j = i
      · rw [hj, hself, hdelivers]
        rfl
      · rw [hother hj]
    | _ =>
      simp only [held, hs', Function.update_apply]
      grind
  constructor
  case free_linked =>
    have hhead' : s'.memory.freeHead = (s.memory.nodes i).nextFree := by rw [hs']
    rw [hhead']
    refine h.free_linked.2.congr fun j hj ↦ ?_
    rw [hother (by rintro rfl; exact hi hj)]
  case queue_linked =>
    have hqueue' : s'.memory.taskHead = s.memory.taskHead ∧
        s'.memory.taskTail = s.memory.taskTail := by
      rw [hs']
      exact ⟨rfl, rfl⟩
    rw [hqueue'.1, hqueue'.2]
    refine h.queue_linked.congr fun j hj ↦ ?_
    rw [hother (by rintro rfl; exact hqueue hj)]
  case inUse =>
    have hinUse : s'.memory.inUse = s.memory.inUse + 1 := by rw [hs']
    have hsum := h.inUse
    rw [List.length_cons] at hsum
    rw [hcapacity, hinUse]
    omega
  case free_lt =>
    rw [hcapacity]
    exact fun j hj ↦ h.free_lt j (List.mem_cons_of_mem i hj)
  case free_owners =>
    intro j hj
    rw [hother (by rintro rfl; exact hi hj)]
    exact h.free_owners j (List.mem_cons_of_mem i hj)
  case finite =>
    rw [hheld]
    exact (h.finite.update _ _).update _ _
  case count =>
    intro j
    have hfirst := ncard_holders_update h.finite (.operation o) (some i) j
    have hsecond := ncard_holders_update (h.finite.update (.operation o) (some i)) (.completion c)
      (some i) j
    rw [Function.update_of_ne (by rintro ⟨⟩), ← hheld] at hsecond
    have hold : s.held (.operation o) = none ∧ s.held (.completion c) = none := by
      rw [held, held, ho, hc]
      exact ⟨rfl, rfl⟩
    simp only [hold.1, hold.2, reduceCtorEq, if_false, Option.some.injEq] at hfirst hsecond
    have hcount := h.count j
    by_cases hj : j = i
    · subst hj
      rw [hself]
      rw [if_pos rfl] at hfirst hsecond
      change 2 = _
      omega
    · rw [hother hj]
      rw [if_neg (Ne.symm hj)] at hfirst hsecond
      omega
  case operation =>
    intro o' r' ho'
    rw [hs'] at ho'
    rcases update_eq_cases ho' with ⟨-, heq⟩ | ⟨-, ho'⟩
    · cases heq
      exact hnew
    · exact hlives (h.operation o' r' ho')
  case completion =>
    intro c' r' hc'
    rw [hs'] at hc'
    rcases update_eq_cases hc' with ⟨-, heq⟩ | ⟨-, hc'⟩
    · cases heq
      refine ⟨hnew, ?_⟩
      rw [hself]
    · obtain ⟨hr, hcompleted⟩ := h.completion c' r' hc'
      refine ⟨hlives hr, ?_⟩
      rw [hother (hcompletion c' r' hc')]
      exact hcompleted
  case frame =>
    intro t f hf
    rw [hs'] at hf
    obtain ⟨hr, hfits⟩ := h.frame t f hf
    have hne : f.node ≠ i := fun heq ↦ hr.not_free (heq ▸ List.mem_cons_self)
    refine ⟨hlives hr, ?_⟩
    rw [hother hne]
    exact hfits
  case exclusive =>
    have hroles : s'.roles queue = Function.update (s.roles queue) (.completion c)
        (some (i, .publisher)) := by
      rw [roles_completions (s := s) (c := c)
        (r := some ⟨i, (s.memory.nodes i).generation + 1⟩) (by rw [hs']) (by rw [hs'])]
      rfl
    rw [hroles]
    refine h.exclusive.update fun w k _ hk hother' ↦ ?_
    cases hk
    exact h.role_not_free hother' List.mem_cons_self
  case queued =>
    intro j hj
    obtain ⟨hlt, hnot, hstate⟩ := h.queued j hj
    rw [hcapacity, hother (by rintro rfl; exact hqueue hj)]
    exact ⟨hlt, fun hmem ↦ hnot (List.mem_cons_of_mem i hmem), hstate⟩
  case resting =>
    intro j hj hzero
    rw [hcapacity] at hj
    by_cases hji : j = i
    · rw [hji, hself] at hzero
      cases hzero
    · rw [hother hji] at hzero
      rcases h.resting j hj hzero with hmem | ⟨t, ht⟩
      · exact .inl ((List.mem_cons.mp hmem).resolve_left hji)
      · refine .inr ⟨t, ?_⟩
        rw [hs']
        exact ht
  case ok =>
    intro j
    by_cases hji : j = i
    · rw [hji, hself]
      exact ⟨fun _ ↦ rfl, (by rintro ⟨⟩), (by intros; contradiction), (by rintro ⟨⟩)⟩
    · rw [hother hji]
      exact h.ok j

/-- A step of a call, with what it does to the free list and to the queue. -/
theorem Inv.advance (hf : s.calls t = some f) (hstep : f.step s.memory = some (m', call)) :
    (s.afterCall t f m' call).Inv (if f.pc = .pushFree then f.node :: free else free)
      (if f.pc = .enqueue then queue ++ [f.node] else queue) := by
  by_cases henqueue : f.pc = .enqueue
  · rw [if_pos henqueue, if_neg (by rw [henqueue]; nofun)]
    exact h.enqueue hf henqueue hstep
  by_cases hfree : f.pc = .pushFree
  · rw [if_neg henqueue, if_pos hfree]
    exact h.pushFree hf hfree hstep
  rw [if_neg henqueue, if_neg hfree, ControlFrame.step_memory hstep henqueue hfree]
  exact h.onTurn hf (h.turn hf hstep) henqueue hfree

end Steps

/-! ## The initial state -/

theorem linked_range (first count : ℕ) : Linked
    (fun i ↦ if i + 1 < first + (count + 1) then some (i + 1) else none) (some first)
    (List.range' first (count + 1)) := by
  induction count generalizing first with
  | zero =>
    refine ⟨rfl, ?_⟩
    dsimp only
    rw [if_neg (by omega)]
    rfl
  | succ count ih =>
    refine ⟨rfl, ?_⟩
    dsimp only
    rw [if_pos (by omega)]
    have hrest := ih (first + 1)
    rw [show first + 1 + (count + 1) = first + (count + 1 + 1) by omega] at hrest
    exact hrest

theorem inv_init (capacity : ℕ+) : (init capacity).Inv (List.range capacity) [] := by
  have hheld : ∀ w, (init capacity).held w = none := by
    intro w
    cases w <;> rfl
  obtain ⟨count, hcount⟩ : ∃ count, (capacity : ℕ) = count + 1 :=
    Nat.exists_eq_succ_of_ne_zero capacity.ne_zero
  constructor
  case free_linked =>
    have hlinked := linked_range 0 count
    rw [Nat.zero_add, ← hcount, ← List.range_eq_range'] at hlinked
    exact hlinked
  case queue_linked => exact .empty
  case inUse =>
    exact (Nat.zero_add _).trans List.length_range
  case free_lt => exact fun i hi ↦ List.mem_range.mp hi
  case free_owners => exact fun _ _ ↦ rfl
  case finite => exact .of_none hheld
  case count =>
    refine fun i ↦ ?_
    rw [ncard_eq_zero fun w ↦ by rw [hheld]; nofun]
    rfl
  case operation =>
    refine fun _ _ ho ↦ ?_
    cases ho
  case completion =>
    refine fun _ _ hc ↦ ?_
    cases hc
  case frame =>
    refine fun _ _ hf ↦ ?_
    cases hf
  case exclusive =>
    refine .of_none fun w ↦ ?_
    cases w <;> rfl
  case queued =>
    refine fun _ hi ↦ ?_
    cases hi
  case resting => exact fun i hi _ ↦ .inl (List.mem_range.mpr hi)
  case ok => exact fun _ ↦ ⟨nofun, nofun, nofun, nofun⟩

end Control

end Ulog
