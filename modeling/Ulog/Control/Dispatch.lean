import Ulog.Control.Delivery

/-!
# The dispatcher

The tasks that were enqueued are those whose callables have been invoked, in this order, then the
one that the dispatcher has in hand, then those of the queue. So the queue neither loses nor
duplicates nor reorders a task, and the dispatcher, which never waits for anybody, gets to each of
them.
-/

namespace Ulog

open LinkedList Sharing

variable {f : ControlFrame} {call : Option ControlFrame} {n n' : ControlNode} {pc : ControlPc}
  {m' : ControlMemory} {s s' : Control} {free queue : List ℕ} {t i : ℕ} {capacity : ℕ+}
  {action : ControlAction}

/-! ## The order of the invocations -/

/-- The call is about to invoke a callable. -/
def ControlPc.awaits : ControlPc → Bool
  | .start | .invoke _ => true
  | _ => false

/-- The task that a call has taken from the queue and not invoked yet. -/
def awaiting : Option ControlFrame → List ControlRef
  | none => []
  | some f => if f.pc.awaits then [f.ref] else []

theorem ControlFrame.Turn.awaiting (h : f.Turn n pc n' call) (hpc : ∀ result, pc ≠ .invoke result) :
    awaiting call = if pc.awaits then [f.ref] else [] := by
  cases h with
  | invoke => exact absurd rfl (hpc _)
  | _ => rfl

theorem ControlFrame.Turn.invoke_eq {result : OperationResult} (h : f.Turn n pc n' call)
    (hpc : pc = .invoke result) :
    n' = n ∧ call = some (f.goto .resetCallback) ∧ n.callbackState = .running ∧
      n.result = result := by
  subst hpc
  cases h with
  | invoke hstate hresult => exact ⟨rfl, rfl, hstate, hresult⟩

namespace Control

/-- The log of invocations agrees with the queue. -/
structure Dispatched (s : Control) (queue : List ℕ) : Prop where
  order : s.enqueued = s.invoked.map Invocation.ref ++ awaiting (s.calls dispatcherThread) ++
    queue.map s.memory.current
  results : ∀ v ∈ s.invoked, (v.ref, v.result) ∈ s.published ∧
    ∃ callback, v.callback = some callback ∧ (v.ref, callback) ∈ s.installed

theorem Dispatched.frame (h : s.Dispatched queue) (henqueued : s'.enqueued = s.enqueued)
    (hinvoked : s'.invoked = s.invoked) (hpublished : s'.published = s.published)
    (hinstalled : s'.installed = s.installed)
    (hcall : awaiting (s'.calls dispatcherThread) = awaiting (s.calls dispatcherThread))
    (hcurrent : ∀ i ∈ queue, s'.memory.current i = s.memory.current i) : s'.Dispatched queue := by
  refine ⟨?_, ?_⟩
  · rw [henqueued, hinvoked, hcall, List.map_congr_left hcurrent]
    exact h.order
  · rw [hinvoked, hpublished, hinstalled]
    exact h.results

theorem calls_dispatcher (ht : s.Ready t) (hcalls : s'.calls = Function.update s.calls t call) :
    s'.calls dispatcherThread = s.calls dispatcherThread := by
  rw [hcalls, Function.update_of_ne ht.1.symm]

theorem invoked_advance (hpc : ∀ result, f.pc ≠ .invoke result) :
    (s.afterCall t f m' call).invoked = s.invoked := by
  rw [afterCall, setCall, record]
  dsimp only
  split
  · next heq => exact absurd heq (hpc _)
  · rfl

theorem enqueued_advance (hpc : f.pc ≠ .enqueue) :
    (s.afterCall t f m' call).enqueued = s.enqueued := if_neg hpc

theorem Inv.current_advance (hinv : s.Inv free queue) (hf : s.calls t = some f)
    (hstep : f.step s.memory = some (m', call)) (i : ℕ) : m'.current i = s.memory.current i := by
  refine ControlMemory.current_eq ?_
  by_cases hi : i = f.node
  · rw [hi]
    exact ((hinv.turn hf hstep).unclaimed (hinv.recycles hf)).generation
  · rw [ControlFrame.step_other hstep hi]

theorem published_advance_subset : s.published ⊆ (s.afterCall t f m' call).published := by
  change s.published ⊆ ite _ _ _
  split_ifs
  · exact List.subset_append_left _ _
  · exact List.Subset.refl _

theorem installed_advance_subset : s.installed ⊆ (s.afterCall t f m' call).installed := by
  rw [afterCall, setCall, record]
  dsimp only
  split
  · exact List.subset_append_left _ _
  · exact List.Subset.refl _

theorem Dispatched.advance (h : s.Dispatched queue) (hinv : s.Inv free queue) (hplaced : s.Placed)
    (hpub : s.Published) (hinst : s.Installed) (hf : s.calls t = some f)
    (hstep : f.step s.memory = some (m', call)) :
    (s.afterCall t f m' call).Dispatched
      (if f.pc = .enqueue then queue ++ [f.node] else queue) := by
  have hturn := hinv.turn hf hstep
  have hcalls : (s.afterCall t f m' call).calls = Function.update s.calls t call := rfl
  have hcurrent : (s.afterCall t f m' call).memory.current = s.memory.current :=
    funext (hinv.current_advance hf hstep)
  have hold : ∀ v ∈ s.invoked, (v.ref, v.result) ∈ (s.afterCall t f m' call).published ∧
      ∃ callback, v.callback = some callback ∧
        (v.ref, callback) ∈ (s.afterCall t f m' call).installed := by
    intro v hv
    obtain ⟨hresult, callback, hcallback, hinstalled⟩ := h.results v hv
    exact ⟨published_advance_subset hresult, callback, hcallback,
      installed_advance_subset hinstalled⟩
  have horder := h.order
  by_cases hinvoke : ∃ result, f.pc = .invoke result
  · obtain ⟨result, hpc⟩ := hinvoke
    obtain ⟨hnode, rfl, hstate, hresult⟩ := hturn.invoke_eq hpc
    obtain ⟨rfl, -⟩ := hplaced.dispatcher hf (.inr ⟨result, hpc⟩)
    have hinvoked : (s.afterCall dispatcherThread f m' (some (f.goto .resetCallback))).invoked =
        s.invoked ++ [⟨f.ref, (m'.nodes f.node).callback, result⟩] := by
      rw [afterCall, setCall, record, hpc]
    have howners : (s.memory.nodes f.node).owners ≠ 0 := by
      intro hzero
      have hrole := hinv.recycles hf hzero
      rw [hpc] at hrole
      cases hrole
    have hne : f.pc ≠ .enqueue := by
      rw [hpc]
      rintro ⟨⟩
    rw [if_neg hne]
    refine ⟨?_, ?_⟩
    · have hself : awaiting (s.calls dispatcherThread) = [f.ref] := by
        rw [hf, awaiting, hpc]
        rfl
      rw [hself] at horder
      rw [enqueued_advance hne, hinvoked, hcalls, Function.update_self, hcurrent, horder,
        List.map_append]
      simp [awaiting, ControlFrame.goto, ControlPc.awaits]
    · intro v hv
      rw [hinvoked] at hv
      rcases List.mem_append.mp hv with hv | hv
      · exact hold v hv
      · obtain rfl := List.mem_singleton.mp hv
        have hcompleted : (s.memory.nodes f.node).completed = true :=
          (hinv.ok f.node).delivers (by simp [ControlNode.delivers, hstate])
        obtain ⟨callback, hcallback⟩ :=
          Option.ne_none_iff_exists'.mp (hinst.invoking _ f result hf hpc)
        rw [hnode]
        refine ⟨published_advance_subset ?_, callback, hcallback, installed_advance_subset ?_⟩
        · have hmem := hpub.result f.node howners hcompleted
          rwa [hinv.current_node hf, hresult] at hmem
        · have hmem := hinst.callable f.node callback howners hcallback
          rwa [hinv.current_node hf] at hmem
  · have hpc : ∀ result, f.pc ≠ .invoke result := fun result heq ↦ hinvoke ⟨result, heq⟩
    have hinvoked : (s.afterCall t f m' call).invoked = s.invoked := invoked_advance hpc
    have hawaiting : awaiting ((s.afterCall t f m' call).calls dispatcherThread) =
        awaiting (s.calls dispatcherThread) := by
      rw [hcalls]
      by_cases ht : dispatcherThread = t
      · rw [ht, Function.update_self, hf]
        exact hturn.awaiting hpc
      · rw [Function.update_of_ne ht]
    refine ⟨?_, ?_⟩
    · rw [hinvoked, hawaiting, hcurrent]
      split_ifs with henqueue
      · have henqueued : (s.afterCall t f m' call).enqueued = s.enqueued ++ [f.ref] :=
          if_pos henqueue
        rw [henqueued, horder, List.map_append, List.map_singleton, hinv.current_node hf]
        simp only [List.append_assoc]
      · rw [enqueued_advance henqueue]
        exact horder
    · rw [hinvoked]
      exact hold

/-! ## Recycling -/

/-- Every earlier generation of a node was recycled once, in order, and the present one if the node
is free. -/
structure Recycled (s : Control) (free : List ℕ) : Prop where
  log : ∀ i, s.recycled.filter (fun r ↦ r.node = i) = (List.range' 1
    (if i ∈ free then (s.memory.nodes i).generation else (s.memory.nodes i).generation - 1)).map
      (ControlRef.mk i)
  used : ∀ i < s.memory.capacity, i ∉ free → (s.memory.nodes i).generation ≠ 0

theorem Recycled.frame (h : s.Recycled free) (hrecycled : s'.recycled = s.recycled)
    (hcapacity : s'.memory.capacity = s.memory.capacity)
    (hnodes : ∀ i, (s'.memory.nodes i).generation = (s.memory.nodes i).generation) :
    s'.Recycled free := by
  refine ⟨fun i ↦ ?_, fun i ↦ ?_⟩
  · rw [hrecycled, hnodes]
    exact h.log i
  · rw [hcapacity, hnodes]
    exact h.used i

theorem Recycled.start {k : ℕ} (h : s.Recycled (k :: free)) (hk : k ∉ free)
    (hrecycled : s'.recycled = s.recycled) (hcapacity : s'.memory.capacity = s.memory.capacity)
    (hself : s'.memory.nodes k = (s.memory.nodes k).started)
    (hother : ∀ i ≠ k, s'.memory.nodes i = s.memory.nodes i) : s'.Recycled free := by
  refine ⟨fun i ↦ ?_, fun i hi hfree ↦ ?_⟩
  · rw [hrecycled, h.log i]
    by_cases hik : i = k
    · rw [hik, hself, if_pos List.mem_cons_self, if_neg hk]
      rfl
    · rw [hother i hik]
      simp only [List.mem_cons, hik, false_or]
  · by_cases hik : i = k
    · rw [hik, hself]
      exact Nat.succ_ne_zero _
    · rw [hother i hik]
      rw [hcapacity] at hi
      exact h.used i hi fun hmem ↦ hfree ((List.mem_cons.mp hmem).resolve_left hik)

theorem Recycled.recycle (h : s.Recycled free) {k : ℕ} (hk : k < s.memory.capacity)
    (hfree : k ∉ free) (hrecycled : s'.recycled = s.recycled ++ [s.memory.current k])
    (hcapacity : s'.memory.capacity = s.memory.capacity)
    (hnodes : ∀ i, (s'.memory.nodes i).generation = (s.memory.nodes i).generation) :
    s'.Recycled (k :: free) := by
  have hused := h.used k hk hfree
  refine ⟨fun i ↦ ?_, fun i hi hmem ↦ ?_⟩
  · rw [hrecycled, List.filter_append, h.log i, hnodes]
    by_cases hik : i = k
    · obtain ⟨g, hg⟩ := Nat.exists_eq_succ_of_ne_zero hused
      rw [hik, if_neg hfree, if_pos List.mem_cons_self, ControlMemory.current, hg]
      simp [List.range'_concat, Nat.add_comm]
    · have hki : ¬k = i := fun heq ↦ hik heq.symm
      simp [ControlMemory.current, hik, hki]
  · rw [hnodes]
    rw [hcapacity] at hi
    exact h.used i hi fun hfree ↦ hmem (List.mem_cons_of_mem k hfree)

theorem Recycled.advance (h : s.Recycled free) (hinv : s.Inv free queue) (hf : s.calls t = some f)
    (hstep : f.step s.memory = some (m', call)) (hcapacity : m'.capacity = s.memory.capacity) :
    (s.afterCall t f m' call).Recycled (if f.pc = .pushFree then f.node :: free else free) := by
  have hnodes : ∀ i, (m'.nodes i).generation = (s.memory.nodes i).generation :=
    fun i ↦ congrArg ControlRef.generation (hinv.current_advance hf hstep i)
  split_ifs with hpc
  · obtain ⟨hlt, hfree, -⟩ := (hinv.frame t f hf).1
    refine h.recycle hlt hfree ?_ hcapacity hnodes
    rw [hinv.current_node hf]
    exact if_pos hpc
  · exact h.frame (if_neg hpc) hcapacity hnodes

/-! ## Whole runs -/

/-- What holds of every reached state. -/
structure History (capacity : ℕ+) (s : Control) (free queue : List ℕ) : Prop where
  inv : s.Inv free queue
  placed : s.Placed
  published : s.Published
  registered : s.Registered
  installed : s.Installed
  delivered : s.Delivered
  dispatched : s.Dispatched queue
  recycled : s.Recycled free
  capacity : s.memory.capacity = capacity

theorem capacity_step (hstep : f.step s.memory = some (m', call)) :
    m'.capacity = s.memory.capacity := by
  cases hpc : f.pc with
  | enqueue =>
    rw [ControlFrame.step, hpc] at hstep
    cases hstep
    exact (relinked_pushTask s.memory f.node).capacity
  | _ =>
    rw [ControlFrame.step, hpc] at hstep
    dsimp only at hstep
    repeat' split at hstep
    all_goals cases hstep <;> rfl

theorem History.step (h : s.History capacity free queue) (hstep : s.step action = some s') :
    ∃ free' queue', s'.History capacity free' queue' := by
  have hinv := h.inv
  have hplaced := h.placed.step hinv hstep
  have hpublished := h.published.step hinv hstep
  have hregistered := h.registered.step hinv hstep
  have hinstalled := h.installed.step hinv hstep
  have hdelivered := h.delivered.step hinv h.published h.registered hstep
  have hall : ∀ {free' queue'}, s'.Inv free' queue' → s'.Dispatched queue' → s'.Recycled free' →
      s'.memory.capacity = s.memory.capacity → ∃ free' queue', s'.History capacity free' queue' :=
    fun hinv' hdispatched hrecycled hcapacity ↦ ⟨_, _, hinv', hplaced, hpublished, hregistered,
      hinstalled, hdelivered, hdispatched, hrecycled, hcapacity.trans h.capacity⟩
  cases Effect.of_step hstep with
  | nothing => exact ⟨free, queue, h⟩
  | stale ho hgeneration => exact absurd (hinv.operation _ _ ho).current hgeneration
  | alreadyRegistered =>
    exact hall { hinv with } (h.dispatched.frame rfl rfl rfl rfl rfl fun _ _ ↦ rfl)
      (h.recycled.frame rfl rfl fun _ ↦ rfl) rfl
  | movedOperation htarget =>
    exact hall (hinv.moveOperation htarget rfl)
      (h.dispatched.frame rfl rfl rfl rfl rfl fun _ _ ↦ rfl)
      (h.recycled.frame rfl rfl fun _ ↦ rfl) rfl
  | movedCompletion htarget =>
    exact hall (hinv.moveCompletion htarget rfl)
      (h.dispatched.frame rfl rfl rfl rfl rfl fun _ _ ↦ rfl)
      (h.recycled.frame rfl rfl fun _ ↦ rfl) rfl
  | resetOperation ht ho =>
    exact hall (hinv.resetOperation ht.2 ho rfl rfl)
      (h.dispatched.frame rfl rfl rfl rfl (congrArg awaiting (calls_dispatcher ht rfl))
        fun _ _ ↦ rfl) (h.recycled.frame rfl rfl fun _ ↦ rfl) rfl
  | tryComplete ht hc =>
    exact hall (hinv.tryComplete ht.2 hc rfl rfl)
      (h.dispatched.frame rfl rfl rfl rfl (congrArg awaiting (calls_dispatcher ht rfl))
        fun _ _ ↦ rfl) (h.recycled.frame rfl rfl fun _ ↦ rfl) rfl
  | register ht ho hempty =>
    have hgeneration := fun i ↦
      (hinv.register_keeps ho (p := ControlNode.callback) (fun _ _ _ ↦ rfl) i).generation
    exact hall (hinv.register ht.2 ho hempty rfl)
      (h.dispatched.frame rfl rfl rfl rfl (congrArg awaiting (calls_dispatcher ht rfl))
        fun i _ ↦ ControlMemory.current_eq (hgeneration i))
      (h.recycled.frame rfl rfl hgeneration) rfl
  | @started o c m' r ho hc hstart =>
    obtain ⟨hself, hother, -⟩ := tryStart_nodes hstart
    obtain ⟨rest, rfl, hrest⟩ := hinv.tryStart ho hc hstart rfl
    have hcapacity : m'.capacity = s.memory.capacity := by
      rw [ControlMemory.tryStart] at hstart
      split at hstart <;> cases hstart
      rfl
    refine hall hrest ?_ ?_ hcapacity
    · refine h.dispatched.frame rfl rfl rfl rfl rfl fun i hi ↦ ?_
      refine ControlMemory.current_eq ?_
      rw [hother i]
      rintro rfl
      exact (hinv.queued _ hi).2.1 List.mem_cons_self
    · exact h.recycled.start (List.nodup_cons.mp hinv.free_linked.nodup).1 rfl hcapacity
        hself hother
  | @dispatch m' i ht hpop =>
    obtain ⟨hrelinked, -⟩ := linkedQueue_popTask hinv.queue_linked hpop
    obtain ⟨rest, rfl, hrest⟩ := hinv.dispatch ht hpop rfl
    have hgeneration : ∀ i, (m'.nodes i).generation = (s.memory.nodes i).generation := by
      intro i
      rw [hrelinked.nodes i]
    refine hall hrest ⟨?_, h.dispatched.results⟩ ?_ hrelinked.capacity
    · have horder := h.dispatched.order
      rw [ht] at horder
      have hcurrent : m'.current = s.memory.current :=
        funext fun i ↦ ControlMemory.current_eq (hgeneration i)
      change s.enqueued = s.invoked.map Invocation.ref ++
        awaiting (Function.update s.calls dispatcherThread
          (some ⟨.runCallback, i, (m'.nodes i).generation, .start⟩) dispatcherThread) ++
        rest.map m'.current
      rw [Function.update_self, horder, hcurrent, hgeneration]
      simp [awaiting, ControlPc.awaits, ControlFrame.ref, ControlMemory.current]
    · exact h.recycled.frame rfl hrelinked.capacity hgeneration
  | advance hf hcall =>
    exact hall (hinv.advance hf hcall)
      (h.dispatched.advance hinv h.placed h.published h.installed hf hcall)
      (h.recycled.advance hinv hf hcall (capacity_step hcall)) (capacity_step hcall)

theorem history_init (capacity : ℕ+) :
    (init capacity).History capacity (List.range capacity) [] := by
  refine ⟨inv_init capacity, nofun, ⟨nofun, nofun, fun _ ho ↦ absurd rfl ho, .nil⟩, ?_, ?_, ?_, ?_,
    ?_, rfl⟩
  · exact ⟨nofun, nofun, .of_none fun _ ↦ rfl, fun _ ho ↦ absurd rfl ho, fun _ ho ↦ absurd rfl ho,
      fun _ ↦ Nat.zero_le _, nofun⟩
  · exact ⟨nofun, nofun, nofun, .nil, nofun, fun _ ho ↦ absurd rfl ho, nofun⟩
  · exact ⟨nofun, nofun, nofun, .nil, nofun⟩
  · exact ⟨rfl, nofun⟩
  · refine ⟨fun i ↦ ?_, fun i hi hmem ↦ absurd (List.mem_range.mpr hi) hmem⟩
    split_ifs <;> rfl

theorem History.of_reachable (h : (machine capacity).Reachable s) :
    ∃ free queue, s.History capacity free queue :=
  Machine.Reachable.invariant (I := fun s ↦ ∃ free queue, Control.History capacity s free queue) h
    ⟨_, _, history_init capacity⟩ fun _ _ _ ⟨_, _, hs⟩ hstep ↦ hs.step hstep

end Control

/-! ## The dispatcher gets to every task -/

/-- How many steps a call of `RunCallback` has left, at most. -/
def ControlPc.rank : ControlPc → ℕ
  | .start => 7
  | .invoke _ => 6
  | .resetCallback => 5
  | .finish => 4
  | .release => 3
  | .clear => 2
  | .pushFree => 1
  | _ => 0

def rankOf (call : Option ControlFrame) : ℕ := (call.map fun f ↦ f.pc.rank).getD 0

theorem ControlFrame.Turn.rank (h : f.Turn n pc n' call) (hf : f.function.Has pc)
    (hfunction : f.function = .runCallback) : rankOf call < pc.rank ∧ pc ≠ .enqueue := by
  rw [hfunction] at hf
  cases h with
  | publishArmed | publish | install | armCompleted | arm | enqueue => cases hf
  | _ => exact ⟨by simp [rankOf, ControlFrame.goto, ControlPc.rank], nofun⟩

/-- The steps of the dispatcher. -/
def ControlAction.IsDispatcher : ControlAction → Prop
  | .dispatch => True
  | .advance thread => thread = dispatcherThread
  | _ => False

namespace Control

/-- A call never waits. -/
theorem Inv.exists_step (h : s.Inv free queue) (hf : s.calls t = some f) :
    ∃ m' call, f.step s.memory = some (m', call) := by
  rw [← Option.isSome_iff_exists.trans Prod.exists, ControlFrame.step]
  cases hpc : f.pc with
  | release =>
    have howners := h.owners_of_holds hf (by rw [hpc]; rfl)
    dsimp only
    repeat' split
    all_goals first | rfl | exact absurd ((h.ok f.node).owner howners) ‹_›
  | _ =>
    dsimp only
    repeat' split
    all_goals rfl

theorem Inv.queue_unique {free' queue' : List ℕ} (h : s.Inv free queue) (h' : s.Inv free' queue') :
    queue = queue' := h.queue_linked.linked.unique h'.queue_linked.linked

theorem run_cons (hstep : s.step action = some s') (actions : List ControlAction) :
    (machine capacity).run (fun _ _ ↦ True) s (action :: actions) =
      (machine capacity).run (fun _ _ ↦ True) s' actions := by
  rw [Machine.run, if_pos trivial, show (machine capacity).step s action = some s' from hstep,
    Option.bind_some]

theorem published_subset (hstep : s.step action = some s') : s.published ⊆ s'.published := by
  cases Effect.of_step hstep with
  | advance => exact published_advance_subset
  | _ => exact List.Subset.refl _

/-- The dispatcher, left to itself, empties its queue. -/
theorem History.drain (h : s.History capacity free queue) :
    ∃ actions s', (∀ a ∈ actions, a.IsDispatcher) ∧
      (machine capacity).run (fun _ _ ↦ True) s actions = some s' ∧
      s'.invoked.map Invocation.ref = s.enqueued ∧ s.published ⊆ s'.published := by
  -- every step takes a task from the queue or brings the one in hand further
  induction hcount : 8 * queue.length + rankOf (s.calls dispatcherThread) using
    Nat.strong_induction_on generalizing s free queue with
  | h count ih =>
  have hgo : ∀ {action s'}, s.step action = some s' → action.IsDispatcher →
      s'.enqueued = s.enqueued → (∀ {free' queue'}, s'.History capacity free' queue' →
        8 * queue'.length + rankOf (s'.calls dispatcherThread) < count) →
      ∃ actions s', (∀ a ∈ actions, a.IsDispatcher) ∧
        (machine capacity).run (fun _ _ ↦ True) s actions = some s' ∧
        s'.invoked.map Invocation.ref = s.enqueued ∧ s.published ⊆ s'.published := by
    intro action s' hstep haction henqueued hlt
    obtain ⟨free', queue', h'⟩ := h.step hstep
    obtain ⟨actions, s'', hactions, hrun, hinvoked, hsubset⟩ := ih _ (hlt h') h' rfl
    refine ⟨action :: actions, s'', ?_, ?_, ?_, List.Subset.trans (published_subset hstep) hsubset⟩
    · exact List.forall_mem_cons.mpr ⟨haction, hactions⟩
    · rw [run_cons hstep]
      exact hrun
    · rw [hinvoked, henqueued]
  cases hf : s.calls dispatcherThread with
  | none =>
    cases queue with
    | nil =>
      refine ⟨[], s, nofun, rfl, ?_, List.Subset.refl _⟩
      have horder := h.dispatched.order
      rw [hf] at horder
      simpa [awaiting] using horder.symm
    | cons i rest =>
      have hpop : ∃ m', s.memory.popTask = some (m', i) := by
        rw [ControlMemory.popTask, h.inv.queue_linked.linked.1]
        exact ⟨_, rfl⟩
      obtain ⟨m', hpop⟩ := hpop
      have hstep : s.step .dispatch = some { s.setCall dispatcherThread
          (some ⟨.runCallback, i, (m'.nodes i).generation, .start⟩) with memory := m' } := by
        rw [Control.step, if_pos hf, hpop]
        rfl
      refine hgo hstep trivial rfl fun {free' queue'} h' ↦ ?_
      obtain ⟨rest', hrest, hinv'⟩ := h.inv.dispatch hf hpop rfl
      cases hrest
      rw [h'.inv.queue_unique hinv', ← hcount, hf]
      change 8 * rest.length + rankOf (Function.update s.calls dispatcherThread
        (some ⟨.runCallback, i, (m'.nodes i).generation, .start⟩) dispatcherThread) < _
      rw [Function.update_self, List.length_cons]
      simp only [rankOf, Option.map_some, Option.map_none, Option.getD_some, Option.getD_none,
        ControlPc.rank]
      omega
  | some f =>
    obtain ⟨m', call, hcall⟩ := h.inv.exists_step hf
    obtain ⟨hhas, hthread⟩ := h.placed _ f hf
    obtain ⟨hrank, hpc⟩ := (h.inv.turn hf hcall).rank hhas (hthread.mpr rfl)
    have hstep : s.step (.advance dispatcherThread) =
        some (s.afterCall dispatcherThread f m' call) := by
      rw [Control.step, Control.advance, hf]
      dsimp only
      rw [hcall]
      rfl
    refine hgo hstep rfl (enqueued_advance hpc) fun {free' queue'} h' ↦ ?_
    have hinv' := h.inv.advance hf hcall
    rw [if_neg hpc] at hinv'
    rw [h'.inv.queue_unique hinv', ← hcount, hf]
    change 8 * queue.length + rankOf (Function.update s.calls dispatcherThread call
      dispatcherThread) < 8 * queue.length + f.pc.rank
    rw [Function.update_self]
    omega

theorem step_advance (hf : s.calls t = some f) (hstep : f.step s.memory = some (m', call)) :
    s.step (.advance t) = some (s.afterCall t f m' call) := by
  rw [Control.step, Control.advance, hf]
  dsimp only
  rw [hstep]
  rfl

/-! ## Ownership of the nodes -/

/-- A handle, a call or a task that has not run refers to this Operation. -/
def Refers (s : Control) (r : ControlRef) : Prop :=
  (∃ o, s.operations o = some r) ∨ (∃ c, s.completions c = some r) ∨
    (∃ t f, s.calls t = some f ∧ f.ref = r) ∨ r ∈ s.enqueued.drop s.invoked.length

/-- What the reserve keeps of its nodes, with the nodes of its free list. -/
structure NodesOwned (capacity : ℕ+) (s : Control) (free : List ℕ) : Prop where
  linked : Linked (fun i ↦ (s.memory.nodes i).nextFree) s.memory.freeHead free
  nodup : free.Nodup
  bounded : ∀ i ∈ free, i < capacity
  inUse : s.memory.inUse + free.length = capacity
  exhausted : (∃ failure, s.memory.tryStart.2 = .error failure) ↔ s.memory.inUse = capacity
  /-- the count is the number of owners -/
  owners : ∀ i, (holders s.held i).Finite ∧
    (s.memory.nodes i).owners = (holders s.held i).ncard
  /-- a node without owners is free or with the one call that recycles it -/
  unowned : ∀ i < (capacity : ℕ), (s.memory.nodes i).owners = 0 ↔
    i ∈ free ∨ ∃ t f, s.calls t = some f ∧ f.node = i ∧ (f.pc = .clear ∨ f.pc = .pushFree)
  recycler : ∀ t t' f f', s.calls t = some f → s.calls t' = some f' → f.node = f'.node →
    f.pc = .clear ∨ f.pc = .pushFree → f'.pc = .clear ∨ f'.pc = .pushFree → t = t'
  /-- recycling starts with the release of the last owner -/
  released : ∀ t f m' call, s.calls t = some f → f.step s.memory = some (m', call) →
    ((s.memory.nodes f.node).owners ≠ 0 ∧ (m'.nodes f.node).owners = 0 ↔
      call = some (f.goto .clear))
  /-- every generation before the present one was recycled once -/
  recycled : ∀ i, s.recycled.filter (fun r ↦ r.node = i) = (List.range' 1
    (if i ∈ free then (s.memory.nodes i).generation else (s.memory.nodes i).generation - 1)).map
      (ControlRef.mk i)
  /-- nobody meets a later generation -/
  current : ∀ r, s.Refers r → r.node < capacity ∧ r.node ∉ free ∧
    (s.memory.nodes r.node).generation = r.generation

end Control

theorem ControlPc.role_recycler {pc : ControlPc} :
    pc.role = some .recycler ↔ pc = .clear ∨ pc = .pushFree := by
  cases pc <;> simp [role]

theorem ControlFrame.Turn.released (h : f.Turn n pc n' call) :
    n.owners ≠ 0 ∧ n'.owners = 0 ↔ call = some (f.goto .clear) := by
  cases h with
  | releaseLast hone => simp [hone]
  | release hne => simpa using fun _ ↦ hne
  | clear hzero | pushFree hzero => simp [hzero, ControlFrame.goto]
  | _ => simp [ControlFrame.goto]

namespace Control

theorem History.nodesOwned (h : s.History capacity free queue) : s.NodesOwned capacity free := by
  have hcapacity := h.capacity
  have hinv := h.inv
  have hlive : ∀ {r}, s.memory.Live free r → r.node < capacity ∧ r.node ∉ free ∧
      (s.memory.nodes r.node).generation = r.generation :=
    fun hr ↦ ⟨hcapacity ▸ hr.lt, hr.not_free, hr.current⟩
  refine ⟨hinv.free_linked, hinv.free_linked.nodup, ?_, ?_, ?_, ?_, ?_, ?_, ?_, h.recycled.log, ?_⟩
  · rw [← hcapacity]
    exact hinv.free_lt
  · rw [← hcapacity]
    exact hinv.inUse
  · have hsum := hinv.inUse
    rw [hcapacity] at hsum
    cases hfree : free with
    | nil =>
      rw [hfree] at hsum hinv
      refine iff_of_true ?_ (by simpa using hsum)
      rw [ControlMemory.tryStart, linked_nil.mp hinv.free_linked]
      exact ⟨_, rfl⟩
    | cons i rest =>
      rw [hfree, List.length_cons] at hsum
      rw [hfree] at hinv
      refine iff_of_false ?_ (by omega)
      rw [ControlMemory.tryStart, hinv.free_linked.1]
      rintro ⟨_, ⟨⟩⟩
  · exact fun i ↦ ⟨hinv.finite.holders i, hinv.count i⟩
  · intro i hi
    rw [← hcapacity] at hi
    constructor
    · intro hzero
      rcases hinv.resting i hi hzero with hfree | ⟨t, ht⟩
      · exact .inl hfree
      · have hrole : s.roles queue (.call t) = some (i, .recycler) := ht
        rcases roles_eq_some hrole with ⟨heq, -⟩ | ⟨t', f, hf, hnode, hrole⟩ | ⟨heq, -⟩
        · cases heq
        · exact .inr ⟨t', f, hf, hnode, ControlPc.role_recycler.mp hrole⟩
        · cases heq
    · rintro (hfree | ⟨t, f, hf, rfl, hpc⟩)
      · exact hinv.free_owners i hfree
      · refine hinv.recycler (w := .call t) ?_
        rw [roles, hf, roleOf_eq (ControlPc.role_recycler.mpr hpc)]
  · intro t t' f f' hf hf' hnode hpc hpc'
    by_contra hne
    exact hinv.role_ne hf hf' (Ne.symm hne) hnode.symm (ControlPc.role_recycler.mpr hpc)
      (ControlPc.role_recycler.mpr hpc')
  · exact fun t f m' call hf hstep ↦ (hinv.turn hf hstep).released
  · rintro r (⟨o, ho⟩ | ⟨c, hc⟩ | ⟨t, f, hf, rfl⟩ | hr)
    · exact hlive (hinv.operation o r ho)
    · exact hlive (hinv.completion c r hc).1
    · exact hlive (hinv.frame t f hf).1
    · have hdrop : s.enqueued.drop s.invoked.length =
          awaiting (s.calls dispatcherThread) ++ queue.map s.memory.current := by
        have horder := h.dispatched.order
        rw [List.append_assoc] at horder
        rw [horder]
        exact List.drop_left' (List.length_map _)
      rw [hdrop] at hr
      rcases List.mem_append.mp hr with hr | hr
      · cases hf : s.calls dispatcherThread with
        | none =>
          rw [hf] at hr
          cases hr
        | some f =>
          rw [hf, awaiting] at hr
          split_ifs at hr
          · obtain rfl := List.mem_singleton.mp hr
            exact hlive (hinv.frame _ f hf).1
          · cases hr
      · obtain ⟨i, hi, rfl⟩ := List.mem_map.mp hr
        obtain ⟨hlt, hfree, -⟩ := hinv.queued i hi
        exact ⟨hcapacity ▸ hlt, hfree, rfl⟩

/-- Control nodes are owned, bounded and never recycled early, in every run. -/
theorem nodes_owned (capacity : ℕ+) (s : Control) (h : (machine capacity).Reachable s) :
    ∃ free, s.NodesOwned capacity free := by
  obtain ⟨free, queue, h⟩ := History.of_reachable h
  exact ⟨free, h.nodesOwned⟩

/-- One Operation from its start to the recycling of its node: a callback is registered, the
completion hands it to the dispatcher, and the handle is dropped last. -/
def oneOperation : List ControlAction :=
  [.tryStart 0 0, .onComplete 1 0 (some 7), .advance 1, .advance 1, .advance 1,
    .tryComplete 2 0 .succeeded {}, .advance 2, .advance 2, .advance 2, .dispatch, .advance 0,
    .advance 0, .advance 0, .advance 0, .advance 0, .resetOperation 1 0, .advance 1, .advance 1,
    .advance 1]

theorem nodes_owned_recycled : ∃ s, (machine 1).Reachable s ∧ s.recycled = [⟨0, 1⟩] ∧
    ∃ free, s.NodesOwned 1 free := by
  obtain ⟨s, hs, htest⟩ := Machine.Reach.exists_of_run (machine 1) (fun _ _ ↦ True)
    (fun s ↦ decide (s.recycled = [⟨0, 1⟩])) oneOperation (by decide +kernel)
  exact ⟨s, hs, of_decide_eq_true htest, nodes_owned 1 s hs⟩

/-! ## Callbacks run once -/

/-- What the reserve keeps of the callbacks. -/
structure CallsBackOnce (capacity : ℕ+) (s : Control) : Prop where
  registered : ∀ r, s.answers.count (r, .registered) ≤ 1
  refused : ∀ r answer, (r, answer) ∈ s.answers →
    answer = .registered ∨ answer = .alreadyRegistered ∧ s.Claimed r
  /-- an Operation has one result and one callable -/
  published : (s.published.map Prod.fst).Nodup
  installed : (s.installed.map Prod.fst).Nodup
  /-- the task is enqueued once, and no later than by the second of completion and registration -/
  enqueued : s.enqueued.Nodup
  due : ∀ r result, (r, .registered) ∈ s.answers → (r, result) ∈ s.published →
    r ∈ s.enqueued ∨ ∃ t f, s.calls t = some f ∧ f.pc = .enqueue ∧ f.ref = r
  /-- tasks run in the order of the queue -/
  invoked : s.invoked.map Invocation.ref <+: s.enqueued
  results : ∀ v ∈ s.invoked, (v.ref, v.result) ∈ s.published ∧
    ∃ callback, v.callback = some callback ∧ (v.ref, callback) ∈ s.installed
  /-- a callable runs on the dispatcher's thread, and its result was published before -/
  thread : ∀ action s', s.step action = some s' → s'.invoked ≠ s.invoked →
    action = .advance dispatcherThread ∧
      ∃ f v, s.calls dispatcherThread = some f ∧ f.function = .runCallback ∧
        s'.invoked = s.invoked ++ [v] ∧ (v.ref, v.result) ∈ s.published
  /-- the dispatcher gets to all tasks that are enqueued -/
  drained : ∃ actions s', (∀ a ∈ actions, a.IsDispatcher) ∧
    (machine capacity).run (fun _ _ ↦ True) s actions = some s' ∧
    s'.invoked.map Invocation.ref = s.enqueued
  /-- the registered callback of a completed Operation runs, with its result -/
  completed : ∀ r result, (r, .registered) ∈ s.answers → (r, result) ∈ s.published →
    ∃ actions s' callback, (∀ a ∈ actions, a.IsDispatcher ∨
        ∃ t f, a = .advance t ∧ s.calls t = some f ∧ f.pc = .enqueue) ∧
      (machine capacity).run (fun _ _ ↦ True) s actions = some s' ∧
      (r, callback) ∈ s'.installed ∧
      s'.invoked.filter (fun v ↦ v.ref = r) = [⟨r, some callback, result⟩]

/-- Among Operations with one invocation each, the invocation of one is alone. -/
theorem filter_invoked_eq {invoked : List Invocation} (hnodup : (invoked.map Invocation.ref).Nodup)
    {v : Invocation} (hv : v ∈ invoked) : invoked.filter (fun w ↦ w.ref = v.ref) = [v] := by
  induction invoked with
  | nil => cases hv
  | cons w rest ih =>
    rw [List.map_cons, List.nodup_cons] at hnodup
    rw [List.filter_cons]
    rcases List.mem_cons.mp hv with rfl | hv
    · have hrest : rest.filter (fun w ↦ w.ref = v.ref) = [] := by
        refine List.filter_eq_nil_iff.mpr fun w hw heq ↦ hnodup.1 ?_
        rw [← of_decide_eq_true heq]
        exact List.mem_map_of_mem hw
      rw [if_pos (decide_eq_true rfl), hrest]
    · have hne : ¬w.ref = v.ref := fun heq ↦ hnodup.1 (heq ▸ List.mem_map_of_mem hv)
      rw [if_neg (by simpa using hne)]
      exact ih hnodup.2 hv

theorem History.invoked_prefix (h : s.History capacity free queue) :
    s.invoked.map Invocation.ref <+: s.enqueued :=
  ⟨awaiting (s.calls dispatcherThread) ++ queue.map s.memory.current, by
    rw [h.dispatched.order, List.append_assoc]⟩

/-- Once its task is enqueued, the callback of a completed Operation gets its result. -/
theorem History.completed (h : s.History capacity free queue)
    (hreach : (machine capacity).Reachable s) {r : ControlRef} {result : OperationResult}
    (hr : r ∈ s.enqueued) (hresult : (r, result) ∈ s.published) :
    ∃ actions s' callback, (∀ a ∈ actions, a.IsDispatcher) ∧
      (machine capacity).run (fun _ _ ↦ True) s actions = some s' ∧
      (r, callback) ∈ s'.installed ∧
      s'.invoked.filter (fun v ↦ v.ref = r) = [⟨r, some callback, result⟩] := by
  obtain ⟨actions, s', hactions, hrun, hinvoked, hsubset⟩ := h.drain
  obtain ⟨free', queue', h'⟩ := History.of_reachable (hreach.of_run hrun)
  rw [← hinvoked] at hr
  obtain ⟨⟨r', callback', result'⟩, hv, rfl⟩ := List.mem_map.mp hr
  obtain ⟨hresult', callback, rfl, hcallback⟩ := h'.dispatched.results _ hv
  have hsame : result' = result :=
    congrArg Prod.snd (List.inj_on_of_nodup_map h'.published.once hresult' (hsubset hresult) rfl)
  subst hsame
  refine ⟨actions, s', callback, hactions, hrun, hcallback, ?_⟩
  exact filter_invoked_eq (h'.invoked_prefix.sublist.nodup h'.delivered.once) hv

theorem History.callsBackOnce (h : s.History capacity free queue)
    (hreach : (machine capacity).Reachable s) : s.CallsBackOnce capacity := by
  have hdue : ∀ r result, (r, .registered) ∈ s.answers → (r, result) ∈ s.published → s.Due r :=
    fun r result hr ↦ h.delivered.due r result (.inl hr)
  refine ⟨h.registered.once, h.registered.answered, h.published.once, h.installed.once,
    h.delivered.once, hdue, h.invoked_prefix, h.dispatched.results, ?_, ?_, ?_⟩
  · intro action s' hstep hne
    cases Effect.of_step hstep with
    | @advance t f m' call hf hcall =>
      by_cases hinvoke : ∃ result, f.pc = .invoke result
      · obtain ⟨result, hpc⟩ := hinvoke
        obtain ⟨rfl, hfunction⟩ := h.placed.dispatcher hf (.inr ⟨result, hpc⟩)
        refine ⟨rfl, f, ⟨f.ref, (m'.nodes f.node).callback, result⟩, hf, hfunction, ?_, ?_⟩
        · rw [afterCall, setCall, record, hpc]
        · obtain ⟨-, -, hstate, hresult⟩ := (h.inv.turn hf hcall).invoke_eq hpc
          have howners : (s.memory.nodes f.node).owners ≠ 0 := by
            intro hzero
            have hrole := h.inv.recycles hf hzero
            rw [hpc] at hrole
            cases hrole
          have hmem := h.published.result f.node howners
            ((h.inv.ok f.node).delivers (by simp [ControlNode.delivers, hstate]))
          rwa [h.inv.current_node hf, hresult] at hmem
      · exact absurd (invoked_advance fun result heq ↦ hinvoke ⟨result, heq⟩) hne
    | _ => exact absurd rfl hne
  · obtain ⟨actions, s', hactions, hrun, hinvoked, -⟩ := h.drain
    exact ⟨actions, s', hactions, hrun, hinvoked⟩
  · intro r result hr hresult
    rcases hdue r result hr hresult with hmem | ⟨t, f, hf, hpc, rfl⟩
    · obtain ⟨actions, s', callback, hactions, hrest⟩ := h.completed hreach hmem hresult
      exact ⟨actions, s', callback, fun a ha ↦ .inl (hactions a ha), hrest⟩
    · obtain ⟨m', call, hcall⟩ := h.inv.exists_step hf
      have hstep := step_advance hf hcall
      have hreach' : (machine capacity).Reachable (s.afterCall t f m' call) :=
        hreach.step (a := .advance t) trivial hstep
      obtain ⟨free', queue', h'⟩ := History.of_reachable hreach'
      have henqueued : f.ref ∈ (s.afterCall t f m' call).enqueued := by
        change f.ref ∈ ite _ _ _
        rw [if_pos hpc]
        exact List.mem_append_right _ (List.mem_singleton_self _)
      obtain ⟨actions, s', callback, hactions, hrun, hrest⟩ :=
        h'.completed hreach' henqueued (published_advance_subset hresult)
      refine ⟨.advance t :: actions, s', callback, ?_, ?_, hrest⟩
      · refine List.forall_mem_cons.mpr ⟨.inr ⟨t, f, rfl, hf, hpc⟩, fun a ha ↦ ?_⟩
        exact .inl (hactions a ha)
      · rw [run_cons hstep]
        exact hrun

/-- A completion callback runs exactly once, with the published result, in every run. -/
theorem callbacks_run_once (capacity : ℕ+) (s : Control) (h : (machine capacity).Reachable s) :
    s.CallsBackOnce capacity := by
  obtain ⟨free, queue, hs⟩ := History.of_reachable h
  exact hs.callsBackOnce h

theorem callbacks_run_once_invoked : ∃ s, (machine 1).Reachable s ∧
    s.invoked = [⟨⟨0, 1⟩, some 7, ⟨.succeeded, {}⟩⟩] ∧ s.CallsBackOnce 1 := by
  obtain ⟨s, hs, htest⟩ := Machine.Reach.exists_of_run (machine 1) (fun _ _ ↦ True)
    (fun s ↦ decide (s.invoked = [⟨⟨0, 1⟩, some 7, ⟨.succeeded, {}⟩⟩])) oneOperation
    (by decide +kernel)
  exact ⟨s, hs, of_decide_eq_true htest, callbacks_run_once 1 s hs⟩

end Control

end Ulog
