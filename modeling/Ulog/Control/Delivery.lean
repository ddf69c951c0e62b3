import Ulog.Control.Callbacks

/-!
# Delivery of callbacks

A registered callback of a completed Operation goes to the dispatcher once: whichever of
`TryComplete` and `RegisterCallback` comes second finds what the first one left. The dispatcher
invokes the callables in the order of the queue, each with the result that its node was completed
with.
-/

namespace Ulog

open LinkedList Sharing

variable {f : ControlFrame} {call : Option ControlFrame} {n n' : ControlNode} {pc : ControlPc}
  {m' : ControlMemory} {s s' : Control} {free queue : List ℕ} {t i : ℕ} {r : ControlRef}
  {f' : ControlFrame}

/-! ## The callable -/

theorem ControlFrame.Turn.callback (h : f.Turn n pc n' call)
    (hpc : ∀ callback, pc ≠ .install callback)
    {callback : OperationCallback} (hcallback : n'.callback = some callback) :
    n.callback = some callback := by
  cases h with
  | install => exact absurd rfl (hpc _)
  | resetCallback | clear => cases hcallback
  | _ => exact hcallback

/-- A call that goes on to invoke the callable has found it in its node. -/
theorem ControlFrame.Turn.invokes (h : f.Turn n pc n' call) {result : OperationResult}
    (hcall : call = some f') (hpc : f'.pc = .invoke result) :
    n.callbackState = .queued ∧ n'.callback = n.callback := by
  cases h with
  | start hstate => exact ⟨hstate, rfl⟩
  | _ => cases hcall <;> cases hpc

theorem ControlFrame.Turn.not_installs (h : f.Turn n pc n' call) (hcall : call = some f')
    (callback : OperationCallback) : f'.pc ≠ .install callback := by
  cases h <;> cases hcall <;> nofun

/-- A call takes the callable out of its node only when it has run it. -/
theorem ControlFrame.Turn.callback_ne_none (h : f.Turn n pc n' call) (hcallback : n.callback ≠ none)
    (howners : n.owners ≠ 0) (hrole : pc.role ≠ some .deliverer) : n'.callback ≠ none := by
  cases h with
  | install => nofun
  | resetCallback => exact absurd rfl hrole
  | clear hzero => exact absurd hzero howners
  | _ => exact hcallback

/-- A node has a callable from its installation until the callback has run. -/
theorem ControlFrame.Turn.present (h : f.Turn n pc n' call)
    (hstate : n.callbackState = .armed ∨ n.callbackState = .queued → n.callback ≠ none)
    (harm : pc = .arm → n.callback ≠ none)
    (hstate' : n'.callbackState = .armed ∨ n'.callbackState = .queued) : n'.callback ≠ none := by
  cases h with
  | publishArmed _ harmed => exact hstate (.inl harmed)
  | publish | enqueue | release | releaseLast | pushFree => exact hstate hstate'
  | install => nofun
  | armCompleted | arm => exact harm rfl
  | start | finish | clear => exact absurd hstate' (by simp [ControlNode.clear])
  | invoke hrunning | resetCallback hrunning => exact absurd hstate' (by simp [hrunning])

namespace Control

/-- The log of installed callables agrees with the nodes. -/
structure Installed (s : Control) : Prop where
  bound : ∀ r callback, (r, callback) ∈ s.installed →
    r.generation ≤ (s.memory.nodes r.node).generation
  empty : ∀ i, (s.memory.nodes i).owners ≠ 0 → (s.memory.nodes i).callbackState = .empty →
    ∀ callback, (s.memory.current i, callback) ∉ s.installed
  installing : ∀ t f callback, s.calls t = some f → f.pc = .install callback →
    ∀ callback', (f.ref, callback') ∉ s.installed
  once : (s.installed.map Prod.fst).Nodup
  callable : ∀ i callback, (s.memory.nodes i).owners ≠ 0 →
    (s.memory.nodes i).callback = some callback → (s.memory.current i, callback) ∈ s.installed
  present : ∀ i, (s.memory.nodes i).owners ≠ 0 →
    (s.memory.nodes i).callbackState = .armed ∨ (s.memory.nodes i).callbackState = .queued →
    (s.memory.nodes i).callback ≠ none
  invoking : ∀ t f result, s.calls t = some f → f.pc = .invoke result →
    (s.memory.nodes f.node).callback ≠ none

theorem installed_advance (hpc : ∀ callback, f.pc ≠ .install callback) :
    (s.afterCall t f m' call).installed = s.installed := by
  rw [afterCall, setCall, record]
  dsimp only
  split
  · next heq => exact absurd heq (hpc _)
  · rfl

theorem Installed.frame (h : s.Installed) (hinstalled : s'.installed = s.installed)
    (hnodes : ∀ i, (s.memory.nodes i).Kept (s'.memory.nodes i))
    (hcalls : ∀ t f, s'.calls t = some f → s.calls t = some f ∨
      (∀ callback, f.pc ≠ .install callback) ∧ ∀ result, f.pc ≠ .invoke result) :
    s'.Installed := by
  have hcurrent : ∀ i, s'.memory.current i = s.memory.current i := by
    intro i
    rw [ControlMemory.current, hnodes i]
    rfl
  refine ⟨?_, ?_, ?_, ?_, ?_, ?_, ?_⟩
  · intro r callback hr
    rw [hinstalled] at hr
    rw [hnodes r.node]
    exact h.bound r callback hr
  · intro i howners hstate
    rw [hnodes i] at howners hstate
    rw [hinstalled, hcurrent]
    exact h.empty i howners hstate
  · intro t f callback hf hpc
    rw [hinstalled]
    rcases hcalls t f hf with hf | hf
    · exact h.installing t f callback hf hpc
    · exact absurd hpc (hf.1 callback)
  · rw [hinstalled]
    exact h.once
  · intro i callback howners hcallback
    rw [hnodes i] at howners hcallback
    rw [hinstalled, hcurrent]
    exact h.callable i callback howners hcallback
  · intro i howners hstate
    rw [hnodes i] at howners hstate ⊢
    exact h.present i howners hstate
  · intro t f result hf hpc
    rw [hnodes f.node]
    rcases hcalls t f hf with hf | hf
    · exact h.invoking t f result hf hpc
    · exact absurd hpc (hf.2 result)

section

variable (h : s.Installed) (hinv : s.Inv free queue)

include h hinv

theorem Installed.register {o : ℕ} (ho : s.operations o = some r)
    (hempty : (s.memory.nodes r.node).callbackState = .empty)
    (hinstalled : s'.installed = s.installed)
    (hcalls : s'.calls = Function.update s.calls t (some f)) (hf : f.ref = r)
    (hpc : ∀ result, f.pc ≠ .invoke result)
    (hself : s'.memory.nodes r.node = { s.memory.nodes r.node with
      callbackState := .installing, owners := (s.memory.nodes r.node).owners + 1 })
    (hother : ∀ i ≠ r.node, s'.memory.nodes i = s.memory.nodes i) : s'.Installed := by
  have hkeeps : ∀ i, (s.memory.nodes i).Keeps ControlNode.callback (s'.memory.nodes i) := by
    intro i
    by_cases hi : i = r.node
    · rw [hi, hself]
      exact ⟨rfl, fun _ ↦ hinv.operation_owners ho, fun _ ↦ rfl⟩
    · rw [hother i hi]
      exact .refl _
  have hcallback : ∀ i, (s'.memory.nodes i).callback = (s.memory.nodes i).callback := by
    intro i
    by_cases hi : i = r.node
    · rw [hi, hself]
    · rw [hother i hi]
  refine ⟨?_, ?_, ?_, ?_, ?_, ?_, ?_⟩
  · intro r' callback hr'
    rw [hinstalled] at hr'
    rw [(hkeeps _).generation]
    exact h.bound r' callback hr'
  · intro i howners hstate
    have hi : i ≠ r.node := by
      rintro rfl
      rw [hself] at hstate
      cases hstate
    rw [hother i hi] at howners hstate
    rw [hinstalled, ControlMemory.current_eq (hkeeps i).generation]
    exact h.empty i howners hstate
  · intro t' f' callback hf' hpc'
    rw [hcalls] at hf'
    rw [hinstalled]
    rcases update_eq_cases hf' with ⟨-, heq⟩ | ⟨-, hf'⟩
    · cases heq
      have hnone := h.empty r.node (hinv.operation_owners ho) hempty
      rw [ControlMemory.current, (hinv.operation o r ho).current] at hnone
      rw [hf]
      exact hnone
    · exact h.installing t' f' callback hf' hpc'
  · rw [hinstalled]
    exact h.once
  · intro i callback howners hsome
    rw [hcallback] at hsome
    rw [hinstalled, ControlMemory.current_eq (hkeeps i).generation]
    exact h.callable i callback ((hkeeps i).owners howners) hsome
  · intro i howners hstate
    have hi : i ≠ r.node := by
      rintro rfl
      rw [hself] at hstate
      exact absurd hstate (by simp)
    rw [hother i hi] at howners hstate ⊢
    exact h.present i howners hstate
  · intro t' f' result hf' hpc'
    rw [hcalls] at hf'
    rw [hcallback]
    rcases update_eq_cases hf' with ⟨-, heq⟩ | ⟨-, hf'⟩
    · cases heq
      exact absurd hpc' (hpc result)
    · exact h.invoking t' f' result hf' hpc'

theorem Installed.start {k : ℕ} (hk : k ∈ free) (hinstalled : s'.installed = s.installed)
    (hcalls : s'.calls = s.calls) (hself : s'.memory.nodes k = (s.memory.nodes k).started)
    (hother : ∀ i ≠ k, s'.memory.nodes i = s.memory.nodes i) : s'.Installed := by
  have hcurrent : ∀ i ≠ k, s'.memory.current i = s.memory.current i := by
    intro i hi
    rw [ControlMemory.current, hother i hi]
    rfl
  refine ⟨?_, ?_, ?_, ?_, ?_, ?_, ?_⟩
  · intro r callback hr
    rw [hinstalled] at hr
    have hle := h.bound r callback hr
    by_cases hrk : r.node = k
    · rw [hrk] at hle ⊢
      rw [hself]
      exact Nat.le_succ_of_le hle
    · rw [hother _ hrk]
      exact hle
  · intro i howners hstate callback hmem
    rw [hinstalled] at hmem
    by_cases hik : i = k
    · rw [hik, ControlMemory.current, hself] at hmem
      exact Nat.not_succ_le_self _ (h.bound _ _ hmem)
    · rw [hother i hik] at howners hstate
      rw [hcurrent i hik] at hmem
      exact h.empty i howners hstate callback hmem
  · rw [hcalls, hinstalled]
    exact h.installing
  · rw [hinstalled]
    exact h.once
  · intro i callback howners hcallback
    have hik : i ≠ k := by
      rintro rfl
      rw [hself] at hcallback
      cases hcallback
    rw [hother i hik] at howners hcallback
    rw [hinstalled, hcurrent i hik]
    exact h.callable i callback howners hcallback
  · intro i howners hstate
    have hik : i ≠ k := by
      rintro rfl
      rw [hself] at hstate
      exact absurd hstate (by simp [ControlNode.started])
    rw [hother i hik] at howners hstate ⊢
    exact h.present i howners hstate
  · intro t f result hf hpc
    rw [hcalls] at hf
    have hne : f.node ≠ k := by
      rintro rfl
      exact (hinv.frame t f hf).1.not_free hk
    rw [hother f.node hne]
    exact h.invoking t f result hf hpc

theorem Installed.install (hf : s.calls t = some f) {callback : OperationCallback}
    (hpc : f.pc = .install callback)
    (hinstalled : s'.installed = s.installed ++ [(f.ref, callback)])
    (hcalls : s'.calls = Function.update s.calls t (some (f.goto .arm)))
    (hself : s'.memory.nodes f.node = { s.memory.nodes f.node with callback := some callback })
    (hother : ∀ i ≠ f.node, s'.memory.nodes i = s.memory.nodes i) : s'.Installed := by
  have hstate : (s.memory.nodes f.node).callbackState = .installing := by
    have hfits := (hinv.frame t f hf).2
    rw [hpc] at hfits
    exact hfits
  have hcurrent : ∀ i, s'.memory.current i = s.memory.current i := by
    intro i
    refine ControlMemory.current_eq ?_
    by_cases hi : i = f.node
    · rw [hi, hself]
    · rw [hother i hi]
  have hmem : ∀ r callback', (r, callback') ∈ s'.installed ↔
      (r, callback') ∈ s.installed ∨ r = f.ref ∧ callback' = callback := by
    intro r callback'
    rw [hinstalled, List.mem_append, List.mem_singleton, Prod.mk.injEq]
  have hne : ∀ i ≠ f.node, s.memory.current i ≠ f.ref :=
    fun i hi heq ↦ hi (congrArg ControlRef.node heq)
  refine ⟨?_, ?_, ?_, ?_, ?_, ?_, ?_⟩
  · intro r callback' hr
    change r.generation ≤ (s'.memory.current r.node).generation
    rw [hcurrent]
    rcases (hmem r callback').mp hr with hr | ⟨rfl, -⟩
    · exact h.bound r callback' hr
    · exact (hinv.frame t f hf).1.current.ge
  · intro i howners hempty callback' hr
    have hi : i ≠ f.node := by
      rintro rfl
      rw [hself] at hempty
      cases hstate.symm.trans hempty
    rw [hother i hi] at howners hempty
    rw [hcurrent] at hr
    rcases (hmem _ callback').mp hr with hr | ⟨heq, -⟩
    · exact h.empty i howners hempty callback' hr
    · exact hne i hi heq
  · intro t' f' callback₁ hf' hpc' callback₂ hr
    rw [hcalls] at hf'
    rcases update_eq_cases hf' with ⟨-, heq⟩ | ⟨ht, hf'⟩
    · cases heq
      cases hpc'
    · rcases (hmem _ callback₂).mp hr with hr | ⟨heq, -⟩
      · exact h.installing t' f' callback₁ hf' hpc' callback₂ hr
      · have hrole : f.pc.role = some .installer := by
          rw [hpc]
          rfl
        refine hinv.role_ne hf hf' ht (congrArg ControlRef.node heq) hrole ?_
        rw [hpc']
        rfl
  · rw [hinstalled, List.map_append, List.nodup_append]
    refine ⟨h.once, List.nodup_singleton _, fun r hr r' hr' ↦ ?_⟩
    obtain ⟨⟨r, callback'⟩, hmem, rfl⟩ := List.mem_map.mp hr
    obtain rfl := List.mem_singleton.mp hr'
    rintro rfl
    exact h.installing t f callback hf hpc callback' hmem
  · intro i callback' howners hcallback
    rw [hcurrent, hmem]
    by_cases hi : i = f.node
    · rw [hi, hself] at hcallback
      cases hcallback
      rw [hi]
      exact .inr ⟨hinv.current_node hf, rfl⟩
    · rw [hother i hi] at howners hcallback
      exact .inl (h.callable i callback' howners hcallback)
  · intro i howners hstate'
    by_cases hi : i = f.node
    · rw [hi, hself]
      nofun
    · rw [hother i hi] at howners hstate' ⊢
      exact h.present i howners hstate'
  · intro t' f' result hf' hpc'
    rw [hcalls] at hf'
    rcases update_eq_cases hf' with ⟨-, heq⟩ | ⟨-, hf'⟩
    · cases heq
      cases hpc'
    · by_cases hi : f'.node = f.node
      · rw [hi, hself]
        nofun
      · rw [hother _ hi]
        exact h.invoking t' f' result hf' hpc'

theorem Installed.advance (hf : s.calls t = some f) (hstep : f.step s.memory = some (m', call)) :
    (s.afterCall t f m' call).Installed := by
  by_cases hinstall : ∃ callback, f.pc = .install callback
  · obtain ⟨callback, hpc⟩ := hinstall
    rw [ControlFrame.step, hpc] at hstep
    cases hstep
    refine h.install hinv hf hpc ?_ rfl (s.memory.nodes_setNode_self ..)
      fun i hi ↦ s.memory.nodes_setNode_of_ne hi _
    rw [afterCall, setCall, record, hpc]
  have hpc : ∀ callback, f.pc ≠ .install callback := fun callback heq ↦ hinstall ⟨callback, heq⟩
  have hturn := hinv.turn hf hstep
  have hkeeps := hinv.keeps hf hstep
  refine ⟨?_, ?_, ?_, ?_, ?_, ?_, ?_⟩
  · intro r callback hr
    rw [installed_advance hpc] at hr
    exact (h.bound r callback hr).trans (hkeeps r.node).generation.ge
  · intro i howners hstate
    rw [installed_advance hpc]
    have hempty := (decide_eq_decide.mp ((hkeeps i).same howners)).mp hstate
    have hnone := h.empty i ((hkeeps i).owners howners) hempty
    rw [← ControlMemory.current_eq (hkeeps i).generation] at hnone
    exact hnone
  · intro t' f' callback hf' hpc'
    rw [installed_advance hpc]
    rcases update_eq_cases hf' with ⟨-, heq⟩ | ⟨-, hf'⟩
    · exact absurd hpc' (hturn.not_installs heq.symm callback)
    · exact h.installing t' f' callback hf' hpc'
  · rw [installed_advance hpc]
    exact h.once
  · intro i callback howners hcallback
    rw [installed_advance hpc]
    have hcallback' : (s.memory.nodes i).callback = some callback := by
      by_cases hi : i = f.node
      · rw [hi] at hcallback ⊢
        exact hturn.callback hpc hcallback
      · change (m'.nodes i).callback = _ at hcallback
        rw [ControlFrame.step_other hstep hi] at hcallback
        exact hcallback
    have hmem := h.callable i callback ((hkeeps i).owners howners) hcallback'
    rw [← ControlMemory.current_eq (hkeeps i).generation] at hmem
    exact hmem
  · intro i howners hstate
    have howners' := (hkeeps i).owners howners
    by_cases hi : i = f.node
    · rw [hi] at hstate howners' ⊢
      refine hturn.present (h.present f.node howners') (fun harm ↦ ?_) hstate
      have hfits := (hinv.frame t f hf).2
      rw [harm] at hfits
      exact hfits.2
    · change (m'.nodes i).callback ≠ none
      change (m'.nodes i).callbackState = _ ∨ (m'.nodes i).callbackState = _ at hstate
      rw [ControlFrame.step_other hstep hi] at hstate ⊢
      exact h.present i howners' hstate
  · intro t' f' result hf' hpc'
    change (m'.nodes f'.node).callback ≠ none
    rcases update_eq_cases hf' with ⟨-, heq⟩ | ⟨ht, hf'⟩
    · obtain ⟨hqueued, hcallback⟩ := hturn.invokes heq.symm hpc'
      obtain ⟨pc, rfl⟩ := hturn.goto heq.symm
      have howners : (s.memory.nodes f.node).owners ≠ 0 := by
        refine hinv.owners_ne_zero (w := .delivery f.node) ?_
        rw [held, if_pos]
        simp [ControlNode.delivers, hqueued]
      rw [show (f.goto pc).node = f.node from rfl, hcallback]
      exact h.present f.node howners (.inr hqueued)
    · have hcallback := h.invoking t' f' result hf' hpc'
      by_cases hnode : f'.node = f.node
      · rw [hnode] at hcallback ⊢
        refine hturn.callback_ne_none hcallback (fun hzero ↦ ?_) fun hrole ↦ ?_
        · have hrecycler := hinv.recycles hf' (hnode ▸ hzero)
          rw [hpc'] at hrecycler
          cases hrecycler
        · refine hinv.role_ne hf hf' ht hnode hrole ?_
          rw [hpc']
          rfl
      · rw [ControlFrame.step_other hstep hnode]
        exact hcallback

theorem Installed.step {action : ControlAction} (hstep : s.step action = some s') :
    s'.Installed := by
  cases Effect.of_step hstep with
  | nothing => exact h
  | movedOperation | movedCompletion | stale | alreadyRegistered =>
    exact h.frame rfl (fun i ↦ .refl _) fun t f hf ↦ .inl hf
  | resetOperation | tryComplete =>
    refine h.frame rfl (fun i ↦ .refl _) fun t f hf ↦ ?_
    rcases update_eq_cases hf with ⟨-, heq⟩ | ⟨-, hf⟩
    · cases heq
      exact .inr ⟨nofun, nofun⟩
    · exact .inl hf
  | started ho hc hstart =>
    obtain ⟨hself, hother, -⟩ := tryStart_nodes hstart
    obtain ⟨rest, hfree, -⟩ := hinv.tryStart ho hc hstart rfl
    refine h.start hinv ?_ rfl rfl hself hother
    rw [hfree]
    exact List.mem_cons_self
  | register ht ho hempty =>
    exact h.register hinv ho hempty rfl rfl rfl nofun (s.memory.nodes_setNode_self ..)
      fun i hi ↦ s.memory.nodes_setNode_of_ne hi _
  | dispatch ht hpop =>
    obtain ⟨hrelinked, -⟩ := linkedQueue_popTask hinv.queue_linked hpop
    refine h.frame rfl hrelinked.kept fun t f hf ↦ ?_
    rcases update_eq_cases hf with ⟨-, heq⟩ | ⟨-, hf⟩
    · cases heq
      exact .inr ⟨nofun, nofun⟩
    · exact .inl hf
  | advance hf hcall => exact h.advance hinv hf hcall

end

end Control

/-! ## The task -/

/-- The callback has not been handed over for delivery. -/
def ControlNode.Undelivered (n : ControlNode) : Prop :=
  n.callbackState = .empty ∨ n.callbackState = .installing ∨ n.callbackState = .armed

theorem ControlFrame.Turn.undelivered (h : f.Turn n pc n' call) (howners : n'.owners ≠ 0)
    (hstate : n'.Undelivered) : n.Undelivered ∧ pc ≠ .enqueue := by
  cases h with
  | publish | install | release | releaseLast | pushFree => exact ⟨hstate, nofun⟩
  | arm hinstalling => exact ⟨.inr (.inl hinstalling), nofun⟩
  | clear => exact absurd rfl howners
  | enqueue hqueued => exact absurd hstate (by simp [ControlNode.Undelivered, hqueued])
  | invoke hrunning | resetCallback hrunning =>
    exact absurd hstate (by simp [ControlNode.Undelivered, hrunning])
  | publishArmed | armCompleted | start | finish =>
    exact absurd hstate (by simp [ControlNode.Undelivered])

/-- A call that goes on to enqueue the task has found the callback armed or has armed it. -/
theorem ControlFrame.Turn.enqueues (h : f.Turn n pc n' call) (hcall : call = some f')
    (hpc : f'.pc = .enqueue) : n.Undelivered ∧ pc ≠ .enqueue ∧ pc.role ≠ some .recycler := by
  cases h with
  | publishArmed _ harmed => exact ⟨.inr (.inr harmed), nofun, nofun⟩
  | armCompleted hinstalling => exact ⟨.inr (.inl hinstalling), nofun, nofun⟩
  | _ => cases hcall <;> cases hpc

/-- The completion and the registration against each other: a call hands the task over, or completes
a node without a settled registration, or settles the registration of a node that is not completed,
or does neither. -/
theorem ControlFrame.Turn.due (h : f.Turn n pc n' call) :
    (∃ f', call = some f' ∧ f'.pc = .enqueue ∧ f'.ref = f.ref) ∨
      (pc.role = some .publisher ∧
        (n.callbackState = .empty ∨ n.callbackState = .installing)) ∨
      (pc = .arm ∧ n.completed = false ∧ n'.completed = false) ∨
      pc ≠ .arm ∧ (n'.completed = true → n.completed = true) := by
  cases h with
  | publishArmed | armCompleted => exact .inl ⟨_, rfl, rfl, rfl⟩
  | publish _ hstate => exact .inr (.inl ⟨rfl, hstate⟩)
  | arm _ hcompleted => exact .inr (.inr (.inl ⟨rfl, hcompleted, hcompleted⟩))
  | clear => exact .inr (.inr (.inr ⟨nofun, nofun⟩))
  | _ => exact .inr (.inr (.inr ⟨nofun, id⟩))

namespace Control

/-- The task is enqueued, or a call is about to do it. -/
def Due (s : Control) (r : ControlRef) : Prop :=
  r ∈ s.enqueued ∨ ∃ t f, s.calls t = some f ∧ f.pc = .enqueue ∧ f.ref = r

/-- The log of enqueued tasks agrees with the nodes. -/
structure Delivered (s : Control) : Prop where
  bound : ∀ r ∈ s.enqueued, r.generation ≤ (s.memory.nodes r.node).generation
  undelivered : ∀ i, (s.memory.nodes i).owners ≠ 0 → (s.memory.nodes i).Undelivered →
    s.memory.current i ∉ s.enqueued
  pending : ∀ t f, s.calls t = some f → f.pc = .enqueue → f.ref ∉ s.enqueued
  once : s.enqueued.Nodup
  due : ∀ r result, s.Settled r → (r, result) ∈ s.published → s.Due r

theorem Delivered.frame (h : s.Delivered) (henqueued : s'.enqueued = s.enqueued)
    (hpublished : s'.published = s.published)
    (hnodes : ∀ i, (s.memory.nodes i).Keeps ControlNode.Undelivered (s'.memory.nodes i))
    (hcalls : ∀ t f, f.pc = .enqueue → (s'.calls t = some f ↔ s.calls t = some f))
    (hsettled : ∀ r, s'.Settled r → s.Settled r) : s'.Delivered := by
  refine ⟨?_, ?_, ?_, ?_, ?_⟩
  · intro r hr
    rw [henqueued] at hr
    rw [(hnodes r.node).generation]
    exact h.bound r hr
  · intro i howners hstate
    rw [(hnodes i).same howners] at hstate
    rw [henqueued, ControlMemory.current_eq (hnodes i).generation]
    exact h.undelivered i ((hnodes i).owners howners) hstate
  · intro t f hf hpc
    rw [henqueued]
    exact h.pending t f ((hcalls t f hpc).mp hf) hpc
  · rw [henqueued]
    exact h.once
  · intro r result hr hresult
    rw [hpublished] at hresult
    rcases h.due r result (hsettled r hr) hresult with hmem | ⟨t, f, hf, hpc, heq⟩
    · rw [← henqueued] at hmem
      exact .inl hmem
    · exact .inr ⟨t, f, (hcalls t f hpc).mpr hf, hpc, heq⟩

theorem due_advance (hf : s.calls t = some f) (h : s.Due r) : (s.afterCall t f m' call).Due r := by
  have henqueued : (s.afterCall t f m' call).enqueued =
    if f.pc = .enqueue then s.enqueued ++ [f.ref] else s.enqueued := rfl
  rcases h with hmem | ⟨t', f', hf', hpc, rfl⟩
  · left
    rw [henqueued]
    split
    · exact List.mem_append_left _ hmem
    · exact hmem
  · by_cases ht : t' = t
    · rw [ht, hf] at hf'
      cases hf'
      left
      rw [henqueued, if_pos hpc]
      exact List.mem_append_right _ (List.mem_singleton_self _)
    · refine .inr ⟨t', f', ?_, hpc, rfl⟩
      change Function.update s.calls t call t' = _
      rw [Function.update_of_ne ht]
      exact hf'

/-- A completed Operation with a registered callback has its task enqueued: whoever comes second,
the completion or the registration, sees to it. -/
theorem Delivered.due_advance (h : s.Delivered) (hinv : s.Inv free queue) (hpub : s.Published)
    (hreg : s.Registered) (hf : s.calls t = some f) (hstep : f.step s.memory = some (m', call))
    {result : OperationResult} (hr : (s.afterCall t f m' call).Settled r)
    (hresult : (r, result) ∈ (s.afterCall t f m' call).published) :
    (s.afterCall t f m' call).Due r := by
  have hturn := hinv.turn hf hstep
  have hrecord : (s.afterCall t f m' call).published =
      if (s.memory.nodes f.node).completed = false ∧ (m'.nodes f.node).completed = true then
        s.published ++ [(f.ref, (m'.nodes f.node).result)] else s.published := rfl
  have hsettled := settled_advance hf hturn hr
  -- nothing new about this Operation
  have hold : s.Settled r → (r, result) ∈ s.published → (s.afterCall t f m' call).Due r :=
    fun hr hresult ↦ Control.due_advance hf (h.due r result hr hresult)
  by_cases hrf : r = f.ref
  · subst hrf
    have hcurrent := hinv.current_node hf
    have howners : f.pc.role ≠ some .recycler → (s.memory.nodes f.node).owners ≠ 0 :=
      fun hrole hzero ↦ hrole (hinv.recycles hf hzero)
    rcases hturn.due with ⟨f', hcall, hpc, href⟩ | ⟨hrole, hstate⟩ | ⟨hpc, hpending, hpending'⟩ |
      ⟨hpc, hcompleted⟩
    · refine .inr ⟨t, f', ?_, hpc, href⟩
      rw [← hcall]
      exact Function.update_self ..
    · have howners := howners (by rw [hrole]; nofun)
      have hr : s.Settled (s.memory.current f.node) := by
        rw [hcurrent]
        refine hsettled.resolve_right fun harm ↦ ?_
        rw [harm.2] at hrole
        cases hrole
      rcases hstate with hempty | hinstalling
      · exact absurd hr.claimed ((hreg.empty f.node howners).mp hempty)
      · exact absurd hr (hreg.installing f.node howners hinstalling)
    · rw [hrecord, if_neg (fun hc ↦ by cases hpending'.symm.trans hc.2), ← hcurrent] at hresult
      exact absurd hresult (hpub.pending f.node (howners (by rw [hpc]; nofun)) hpending result)
    · rw [hrecord, if_neg fun hc ↦ by cases hc.1.symm.trans (hcompleted hc.2)] at hresult
      exact hold (hsettled.resolve_right fun harm ↦ hpc harm.2) hresult
  · have hresult' : (r, result) ∈ s.published := by
      rw [hrecord] at hresult
      split_ifs at hresult
      · rcases List.mem_append.mp hresult with hresult | hresult
        · exact hresult
        · cases List.mem_singleton.mp hresult
          exact absurd rfl hrf
      · exact hresult
    rcases hsettled with hr | ⟨heq, -⟩
    · exact hold hr hresult'
    · exact absurd heq hrf

theorem Delivered.advance (h : s.Delivered) (hinv : s.Inv free queue) (hpub : s.Published)
    (hreg : s.Registered) (hf : s.calls t = some f) (hstep : f.step s.memory = some (m', call)) :
    (s.afterCall t f m' call).Delivered := by
  have hturn := hinv.turn hf hstep
  have hkeeps := hinv.keeps hf hstep
  have hmem : ∀ r, r ∈ (s.afterCall t f m' call).enqueued ↔
      r ∈ s.enqueued ∨ f.pc = .enqueue ∧ r = f.ref := by
    intro r
    change r ∈ ite (f.pc = .enqueue) _ _ ↔ _
    split_ifs with hpc
    · rw [List.mem_append, List.mem_singleton, and_iff_right hpc]
    · rw [or_iff_left fun hc ↦ hpc hc.1]
  refine ⟨?_, ?_, ?_, ?_, fun r result ↦ h.due_advance hinv hpub hreg hf hstep⟩
  · intro r hr
    refine le_trans ?_ (hkeeps r.node).generation.ge
    rcases (hmem r).mp hr with hr | ⟨-, rfl⟩
    · exact h.bound r hr
    · exact (hinv.frame t f hf).1.current.ge
  · intro i howners hstate hr
    change m'.current i ∈ _ at hr
    rw [ControlMemory.current_eq (hkeeps i).generation, hmem] at hr
    have howners' := (hkeeps i).owners howners
    by_cases hi : i = f.node
    · rw [hi] at howners howners' hstate hr
      obtain ⟨hstate, hpc⟩ := hturn.undelivered howners hstate
      exact h.undelivered f.node howners' hstate (hr.resolve_right fun hc ↦ hpc hc.1)
    · change (m'.nodes i).Undelivered at hstate
      rw [ControlFrame.step_other hstep hi] at hstate
      exact h.undelivered i howners' hstate
        (hr.resolve_right fun hc ↦ hi (congrArg ControlRef.node hc.2))
  · intro t' f' hf' hpc' hr
    rw [hmem] at hr
    rcases update_eq_cases hf' with ⟨-, heq⟩ | ⟨ht, hf'⟩
    · obtain ⟨hstate, hpc, hrole⟩ := hturn.enqueues heq.symm hpc'
      obtain ⟨pc, rfl⟩ := hturn.goto heq.symm
      refine h.undelivered f.node (fun hzero ↦ hrole (hinv.recycles hf hzero)) hstate ?_
      rw [hinv.current_node hf]
      exact hr.resolve_right fun hc ↦ hpc hc.1
    · rcases hr with hr | ⟨hpc, heq⟩
      · exact h.pending t' f' hf' hpc' hr
      · have hrole : f.pc.role = some .deliverer := by
          rw [hpc]
          rfl
        refine hinv.role_ne hf hf' ht (congrArg ControlRef.node heq) hrole ?_
        rw [hpc']
        rfl
  · change (ite (f.pc = .enqueue) _ _ : List ControlRef).Nodup
    split_ifs with hpc
    · rw [List.nodup_append]
      refine ⟨h.once, List.nodup_singleton _, fun r hr r' hr' ↦ ?_⟩
      obtain rfl := List.mem_singleton.mp hr'
      rintro rfl
      exact h.pending t f hf hpc hr
    · exact h.once

theorem Delivered.start (h : s.Delivered) {k : ℕ} (henqueued : s'.enqueued = s.enqueued)
    (hpublished : s'.published = s.published) (hanswers : s'.answers = s.answers)
    (hcalls : s'.calls = s.calls)
    (hself : s'.memory.nodes k = (s.memory.nodes k).started)
    (hother : ∀ i ≠ k, s'.memory.nodes i = s.memory.nodes i) : s'.Delivered := by
  refine ⟨?_, ?_, ?_, ?_, ?_⟩
  · intro r hr
    rw [henqueued] at hr
    have hle := h.bound r hr
    by_cases hrk : r.node = k
    · rw [hrk] at hle ⊢
      rw [hself]
      exact Nat.le_succ_of_le hle
    · rw [hother _ hrk]
      exact hle
  · intro i howners hstate hmem
    rw [henqueued] at hmem
    by_cases hik : i = k
    · rw [hik, ControlMemory.current, hself] at hmem
      exact Nat.not_succ_le_self _ (h.bound _ hmem)
    · rw [ControlMemory.current, hother i hik] at hmem
      rw [hother i hik] at howners hstate
      exact h.undelivered i howners hstate hmem
  · rw [hcalls, henqueued]
    exact h.pending
  · rw [henqueued]
    exact h.once
  · rw [hpublished]
    intro r result hr hresult
    rw [Settled, hanswers, hcalls] at hr
    rw [Due, henqueued, hcalls]
    exact h.due r result hr hresult

/-- A new call that is neither at the handing over of a task nor past the arming of a callback. -/
theorem calls_of_begin (ht : s.calls t = none)
    (hcalls : s'.calls = Function.update s.calls t (some f)) (hf : f.pc ≠ .enqueue) (t' : ℕ)
    (f' : ControlFrame)
    (hf' : f'.pc = .enqueue) : s'.calls t' = some f' ↔ s.calls t' = some f' := by
  rw [hcalls]
  by_cases htt : t' = t
  · rw [htt, Function.update_self, ht]
    refine iff_of_false (fun heq ↦ ?_) nofun
    cases heq
    exact hf hf'
  · rw [Function.update_of_ne htt]

theorem settled_of_begin (hcalls : s'.calls = Function.update s.calls t (some f))
    (hanswers : s'.answers = s.answers)
    (hf : f.function = .registerCallback → f.pc.role = some .installer) (h : s'.Settled r) :
    s.Settled r := by
  rcases h with hr | ⟨t', f', hf', hfunction, hrole, heq⟩
  · rw [hanswers] at hr
    exact .inl hr
  · rw [hcalls] at hf'
    rcases update_eq_cases hf' with ⟨-, hf'⟩ | ⟨-, hf'⟩
    · cases hf'
      exact absurd (hf hfunction) hrole
    · exact .inr ⟨t', f', hf', hfunction, hrole, heq⟩

theorem Delivered.step (h : s.Delivered) (hinv : s.Inv free queue) (hpub : s.Published)
    (hreg : s.Registered) {action : ControlAction} (hstep : s.step action = some s') :
    s'.Delivered := by
  cases Effect.of_step hstep with
  | nothing => exact h
  | movedOperation | movedCompletion =>
    exact h.frame rfl rfl (fun i ↦ .refl _) (fun _ _ _ ↦ Iff.rfl) fun _ hr ↦ hr
  | stale ho hgeneration => exact absurd (hinv.operation _ _ ho).current hgeneration
  | alreadyRegistered =>
    refine h.frame rfl rfl (fun i ↦ .refl _) (fun _ _ _ ↦ Iff.rfl) fun r hr ↦ ?_
    rcases hr with hr | hr
    · rcases List.mem_append.mp hr with hr | hr
      · exact .inl hr
      · cases List.mem_singleton.mp hr
    · exact .inr hr
  | resetOperation ht | tryComplete ht =>
    exact h.frame rfl rfl (fun i ↦ .refl _) (calls_of_begin ht.2 rfl nofun) fun r ↦
      settled_of_begin rfl rfl nofun
  | started ho hc hstart =>
    obtain ⟨hself, hother, -⟩ := tryStart_nodes hstart
    exact h.start rfl rfl rfl rfl hself hother
  | @register t o r callback ht ho hempty =>
    refine h.frame rfl rfl (fun i ↦ ?_) (calls_of_begin ht.2 rfl nofun) fun r ↦
      settled_of_begin rfl rfl fun _ ↦ rfl
    by_cases hi : i = r.node
    · rw [hi]
      change (s.memory.nodes r.node).Keeps ControlNode.Undelivered
        ((s.memory.setNode r.node _).nodes r.node)
      rw [s.memory.nodes_setNode_self]
      refine ⟨rfl, fun _ ↦ hinv.operation_owners ho, fun _ ↦ ?_⟩
      simp [ControlNode.Undelivered, hempty]
    · change (s.memory.nodes i).Keeps ControlNode.Undelivered ((s.memory.setNode r.node _).nodes i)
      rw [s.memory.nodes_setNode_of_ne hi]
      exact .refl _
  | dispatch ht hpop =>
    obtain ⟨hrelinked, -⟩ := linkedQueue_popTask hinv.queue_linked hpop
    exact h.frame rfl rfl (fun i ↦ (hrelinked.kept i).keeps fun _ _ ↦ rfl)
      (calls_of_begin ht rfl nofun) fun r ↦ settled_of_begin rfl rfl nofun
  | advance hf hcall => exact h.advance hinv hpub hreg hf hcall

end Control

end Ulog
