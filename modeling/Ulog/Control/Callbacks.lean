import Ulog.Control.Lifetime

/-!
# Completion and callbacks

The history of an Operation is told by its node and its generation. While the node has owners, its
fields say what has happened: whether the result is published, whether a callback is registered,
whether it went to the dispatcher. What was written about earlier generations no step touches.
-/

namespace Ulog

open LinkedList Sharing

variable {f : ControlFrame} {call : Option ControlFrame} {n n' : ControlNode} {pc : ControlPc}
  {m' : ControlMemory} {s s' : Control} {free queue : List ℕ} {t i : ℕ} {r : ControlRef} {k : ℕ}

/-- The Operation that a node is used for. -/
def ControlMemory.current (m : ControlMemory) (i : ℕ) : ControlRef := ⟨i, (m.nodes i).generation⟩

theorem ControlMemory.current_eq {m m' : ControlMemory} {i : ℕ}
    (h : (m'.nodes i).generation = (m.nodes i).generation) : m'.current i = m.current i := by
  rw [current, current, h]

/-! ## Publication -/

def ControlNode.completion (n : ControlNode) : Bool × OperationResult := (n.completed, n.result)

theorem ControlNode.Keeps.completion (h : n.Keeps ControlNode.completion n')
    (howners : n'.owners ≠ 0) : n'.completed = n.completed ∧ n'.result = n.result :=
  Prod.ext_iff.mp (h.same howners)

/-- A call publishes the result of its node, or leaves the completion alone. -/
theorem ControlFrame.Turn.completion (h : f.Turn n pc n' call)
    (howners : n.owners = 0 → pc.role = some .recycler) :
    n.Keeps ControlNode.completion n' ∧ (n'.completed = true → n.completed = true) ∨
      n.completed = false ∧ n'.completed = true ∧ n'.generation = n.generation ∧
        n.owners ≠ 0 := by
  have hkeeps := h.keeps (p := ControlNode.completion) howners
  cases h with
  | publishArmed hcompleted | publish hcompleted =>
    refine .inr ⟨hcompleted, rfl, rfl, fun hzero ↦ ?_⟩
    cases howners hzero
  | clear => exact .inl ⟨hkeeps fun h ↦ absurd rfl h, nofun⟩
  | _ => exact .inl ⟨hkeeps fun _ ↦ rfl, id⟩

namespace Control

theorem Inv.current_node (h : s.Inv free queue) (hf : s.calls t = some f) :
    s.memory.current f.node = f.ref := by
  rw [ControlMemory.current, show (s.memory.nodes f.node).generation = f.generation from
    (h.frame t f hf).1.current]
  rfl

theorem Inv.register_keeps (h : s.Inv free queue) {α : Type*} {p : ControlNode → α} {o : ℕ}
    (ho : s.operations o = some r)
    (hp : ∀ n state owners, p { n with callbackState := state, owners := owners } = p n) (i : ℕ) :
    (s.memory.nodes i).Keeps p ((s.memory.setNode r.node { s.memory.nodes r.node with
      callbackState := .installing, owners := (s.memory.nodes r.node).owners + 1 }).nodes i) := by
  by_cases hi : i = r.node
  · rw [hi, s.memory.nodes_setNode_self]
    exact ⟨rfl, fun _ ↦ h.operation_owners ho, fun _ ↦ hp _ _ _⟩
  · rw [s.memory.nodes_setNode_of_ne hi]
    exact .refl _

/-- The log of results agrees with the nodes. -/
structure Published (s : Control) : Prop where
  bound : ∀ r result, (r, result) ∈ s.published →
    r.generation ≤ (s.memory.nodes r.node).generation
  pending : ∀ i, (s.memory.nodes i).owners ≠ 0 → (s.memory.nodes i).completed = false →
    ∀ result, (s.memory.current i, result) ∉ s.published
  result : ∀ i, (s.memory.nodes i).owners ≠ 0 → (s.memory.nodes i).completed = true →
    (s.memory.current i, (s.memory.nodes i).result) ∈ s.published
  once : (s.published.map Prod.fst).Nodup

theorem Published.frame (h : s.Published) (hpublished : s'.published = s.published)
    (hnodes : ∀ i, (s.memory.nodes i).Keeps ControlNode.completion (s'.memory.nodes i)) :
    s'.Published := by
  refine ⟨fun r result hr ↦ ?_, fun i hi hcompleted result hmem ↦ ?_, fun i hi hcompleted ↦ ?_, ?_⟩
  · rw [hpublished] at hr
    rw [(hnodes r.node).generation]
    exact h.bound r result hr
  · rw [hpublished, ControlMemory.current_eq (hnodes i).generation] at hmem
    rw [((hnodes i).completion hi).1] at hcompleted
    exact h.pending i ((hnodes i).owners hi) hcompleted result hmem
  · rw [((hnodes i).completion hi).1] at hcompleted
    rw [hpublished, ControlMemory.current_eq (hnodes i).generation, ((hnodes i).completion hi).2]
    exact h.result i ((hnodes i).owners hi) hcompleted
  · rw [hpublished]
    exact h.once

theorem Published.publish (h : s.Published)
    (hpublished : s'.published = s.published ++ [(s.memory.current k, (s'.memory.nodes k).result)])
    (hnodes : ∀ i ≠ k, (s.memory.nodes i).Keeps ControlNode.completion (s'.memory.nodes i))
    (hgeneration : (s'.memory.nodes k).generation = (s.memory.nodes k).generation)
    (howners : (s.memory.nodes k).owners ≠ 0) (hpending : (s.memory.nodes k).completed = false)
    (hcompleted : (s'.memory.nodes k).completed = true) : s'.Published := by
  have hgenerations : ∀ i, (s'.memory.nodes i).generation = (s.memory.nodes i).generation := by
    intro i
    by_cases hi : i = k
    · rw [hi, hgeneration]
    · exact (hnodes i hi).generation
  have hne : ∀ {i}, i ≠ k → s.memory.current i ≠ s.memory.current k :=
    fun hi heq ↦ hi (congrArg ControlRef.node heq)
  refine ⟨fun r result hr ↦ ?_, fun i hi hfalse result hmem ↦ ?_, fun i hi htrue ↦ ?_, ?_⟩
  · rw [hgenerations]
    rw [hpublished, List.mem_append, List.mem_singleton] at hr
    rcases hr with hr | hr
    · exact h.bound r result hr
    · cases hr
      exact le_rfl
  · have hik : i ≠ k := by
      rintro rfl
      cases hcompleted.symm.trans hfalse
    rw [hpublished, ControlMemory.current_eq (hgenerations i), List.mem_append,
      List.mem_singleton] at hmem
    rw [((hnodes i hik).completion hi).1] at hfalse
    rcases hmem with hmem | hmem
    · exact h.pending i ((hnodes i hik).owners hi) hfalse result hmem
    · exact hne hik (congrArg Prod.fst hmem)
  · rw [hpublished, ControlMemory.current_eq (hgenerations i), List.mem_append, List.mem_singleton]
    by_cases hik : i = k
    · rw [hik]
      exact .inr rfl
    · obtain ⟨hsame, hresult⟩ := (hnodes i hik).completion hi
      rw [hsame] at htrue
      rw [hresult]
      exact .inl (h.result i ((hnodes i hik).owners hi) htrue)
  · rw [hpublished, List.map_append, List.nodup_append]
    refine ⟨h.once, List.nodup_singleton _, fun r hr r' hr' ↦ ?_⟩
    obtain ⟨⟨r, result⟩, hmem, rfl⟩ := List.mem_map.mp hr
    obtain rfl := List.mem_singleton.mp hr'
    rintro rfl
    exact h.pending k howners hpending result hmem

theorem Published.start (h : s.Published) (hpublished : s'.published = s.published)
    (hself : s'.memory.nodes k = (s.memory.nodes k).started)
    (hother : ∀ i ≠ k, s'.memory.nodes i = s.memory.nodes i) : s'.Published := by
  have hbound : ∀ r result, (r, result) ∈ s.published → r ≠ s'.memory.current k := by
    rintro r result hr rfl
    have hle := h.bound _ result hr
    rw [ControlMemory.current, hself] at hle
    exact absurd hle (Nat.not_succ_le_self _)
  refine ⟨fun r result hr ↦ ?_, fun i hi hfalse result hmem ↦ ?_, fun i hi htrue ↦ ?_, ?_⟩
  · rw [hpublished] at hr
    have hle := h.bound r result hr
    by_cases hk : r.node = k
    · rw [hk] at hle ⊢
      rw [hself]
      exact Nat.le_succ_of_le hle
    · rw [hother _ hk]
      exact hle
  · rw [hpublished] at hmem
    by_cases hk : i = k
    · rw [hk] at hmem
      exact hbound _ result hmem rfl
    · rw [ControlMemory.current, hother i hk] at hmem
      rw [hother i hk] at hi hfalse
      exact h.pending i hi hfalse result hmem
  · by_cases hk : i = k
    · rw [hk, hself] at htrue
      cases htrue
    · rw [hother i hk] at hi htrue
      rw [hpublished, ControlMemory.current, hother i hk]
      exact h.result i hi htrue
  · rw [hpublished]
    exact h.once

theorem Published.step (h : s.Published) (hinv : s.Inv free queue) {action : ControlAction}
    (hstep : s.step action = some s') : s'.Published := by
  have hquiet : ∀ {s' : Control}, s'.published = s.published → s'.memory = s.memory →
      s'.Published := by
    intro s' hpublished hmemory
    refine h.frame hpublished fun i ↦ ?_
    rw [hmemory]
    exact .refl _
  cases Effect.of_step hstep with
  | nothing => exact h
  | movedOperation | movedCompletion | stale | alreadyRegistered | resetOperation | tryComplete =>
    exact hquiet rfl rfl
  | started ho hc hstart =>
    obtain ⟨hself, hother, -⟩ := tryStart_nodes hstart
    exact h.start rfl hself hother
  | register ht ho hempty => exact h.frame rfl (hinv.register_keeps ho fun _ _ _ ↦ rfl)
  | dispatch ht hpop =>
    obtain ⟨hrelinked, -⟩ := linkedQueue_popTask hinv.queue_linked hpop
    exact h.frame rfl fun i ↦ (hrelinked.kept i).keeps fun _ _ ↦ rfl
  | @advance t f m' call hf hcall =>
    have hother : ∀ i ≠ f.node, (s.memory.nodes i).Keeps ControlNode.completion (m'.nodes i) :=
      fun i hi ↦ (ControlFrame.step_other hcall hi).keeps fun _ _ ↦ rfl
    have hrecord : (s.afterCall t f m' call).published =
      if (s.memory.nodes f.node).completed = false ∧ (m'.nodes f.node).completed = true then
        s.published ++ [(f.ref, (m'.nodes f.node).result)] else s.published := rfl
    rcases (hinv.turn hf hcall).completion (hinv.recycles hf) with
      ⟨hkeeps, hcompleted⟩ | ⟨hpending, hcompleted, hgeneration, howners⟩
    · rw [if_neg fun hc ↦ ?_] at hrecord
      · refine h.frame hrecord fun i ↦ ?_
        by_cases hi : i = f.node
        · rw [hi]
          exact hkeeps
        · exact hother i hi
      · cases hc.1.symm.trans (hcompleted hc.2)
    · rw [if_pos ⟨hpending, hcompleted⟩, ← hinv.current_node hf] at hrecord
      exact h.publish hrecord hother hgeneration howners hpending hcompleted

/-! ## Registration -/

end Control

def ControlNode.unclaimed (n : ControlNode) : Bool := n.callbackState = .empty

/-- Only `OnComplete` claims the callback of a node that is in use. -/
theorem ControlFrame.Turn.unclaimed (h : f.Turn n pc n' call)
    (howners : n.owners = 0 → pc.role = some .recycler) : n.Keeps ControlNode.unclaimed n' := by
  refine h.keeps howners fun howners' ↦ ?_
  cases h with
  | publishArmed _ hstate | armCompleted hstate | arm hstate | start hstate | finish hstate =>
    simp [ControlNode.unclaimed, hstate]
  | clear => exact absurd rfl howners'
  | _ => rfl

theorem Control.Inv.keeps (h : s.Inv free queue) (hf : s.calls t = some f)
    (hstep : f.step s.memory = some (m', call)) (i : ℕ) :
    (s.memory.nodes i).Keeps ControlNode.unclaimed (m'.nodes i) := by
  by_cases hi : i = f.node
  · rw [hi]
    exact (h.turn hf hstep).unclaimed (h.recycles hf)
  · exact (ControlFrame.step_other hstep hi).keeps fun _ _ ↦ rfl

/-- Where a call leaves the callback installing, it was so, and the call was not at its end. -/
theorem ControlFrame.Turn.installing (h : f.Turn n pc n' call)
    (hstate : n'.callbackState = .installing) : n.callbackState = .installing ∧ pc ≠ .arm := by
  cases h with
  | publish | install | enqueue | invoke | resetCallback | release | releaseLast | pushFree =>
    exact ⟨hstate, nofun⟩
  | _ => cases hstate

theorem ControlFrame.Turn.installer (h : f.Turn n pc n' call) (hrole : pc.role = some .installer) :
    pc = .arm ∨ ∃ f', call = some f' ∧ f'.pc.role = some .installer := by
  cases h with
  | armCompleted | arm => exact .inl rfl
  | install => exact .inr ⟨_, rfl, rfl⟩
  | _ => cases hrole

namespace Control

/-- The Operation that a thread registers a callback for. -/
def registering (s : Control) (t : ℕ) : Option ControlRef :=
  (s.calls t).bind fun f ↦ if f.function = .registerCallback then some f.ref else none

/-- A call of `OnComplete` has claimed the callback. -/
def Claimed (s : Control) (r : ControlRef) : Prop :=
  (r, .registered) ∈ s.answers ∨ ∃ t, s.registering t = some r

/-- The call that has claimed the callback is past the second section of `RegisterCallback`. -/
def Settled (s : Control) (r : ControlRef) : Prop :=
  (r, .registered) ∈ s.answers ∨ ∃ t f, s.calls t = some f ∧ f.function = .registerCallback ∧
    f.pc.role ≠ some .installer ∧ f.ref = r

/-- The answers of `OnComplete` agree with the nodes. -/
structure Registered (s : Control) : Prop where
  bound : ∀ r answer, (r, answer) ∈ s.answers → r.generation ≤ (s.memory.nodes r.node).generation
  apart : ∀ t r, s.registering t = some r → (r, .registered) ∉ s.answers
  exclusive : Exclusive s.registering
  empty : ∀ i, (s.memory.nodes i).owners ≠ 0 →
    ((s.memory.nodes i).callbackState = .empty ↔ ¬s.Claimed (s.memory.current i))
  installing : ∀ i, (s.memory.nodes i).owners ≠ 0 →
    (s.memory.nodes i).callbackState = .installing → ¬s.Settled (s.memory.current i)
  once : ∀ r, s.answers.count (r, .registered) ≤ 1
  answered : ∀ r answer, (r, answer) ∈ s.answers →
    answer = .registered ∨ answer = .alreadyRegistered ∧ s.Claimed r

theorem Settled.claimed (h : s.Settled r) : s.Claimed r := by
  rcases h with hanswer | ⟨t, f, hf, hfunction, -, rfl⟩
  · exact .inl hanswer
  · refine .inr ⟨t, ?_⟩
    rw [registering, hf, Option.bind_some, if_pos hfunction]

theorem registering_eq_some (h : s.registering t = some r) :
    ∃ f, s.calls t = some f ∧ f.function = .registerCallback ∧ f.ref = r := by
  obtain ⟨f, hf, hr⟩ := Option.bind_eq_some_iff.mp h
  split_ifs at hr with hfunction
  cases hr
  exact ⟨f, hf, hfunction, rfl⟩

theorem registering_calls (hcalls : s'.calls = Function.update s.calls t call) :
    s'.registering = Function.update s.registering t
      (call.bind fun f ↦ if f.function = .registerCallback then some f.ref else none) := by
  funext t'
  by_cases ht : t' = t
  · simp [registering, hcalls, ht]
  · simp [registering, hcalls, ht]

theorem Registered.frame (h : s.Registered) (hanswers : s'.answers = s.answers)
    (hregistering : s'.registering = s.registering)
    (hnodes : ∀ i, (s.memory.nodes i).Keeps ControlNode.unclaimed (s'.memory.nodes i))
    (hinstalling : ∀ i, (s'.memory.nodes i).owners ≠ 0 →
      (s'.memory.nodes i).callbackState = .installing → ¬s'.Settled (s'.memory.current i)) :
    s'.Registered := by
  have hclaimed : ∀ r, s'.Claimed r ↔ s.Claimed r := by
    intro r
    rw [Claimed, Claimed, hanswers, hregistering]
  refine ⟨?_, ?_, ?_, fun i hi ↦ ?_, hinstalling, ?_, ?_⟩
  · intro r answer hr
    rw [(hnodes r.node).generation]
    rw [hanswers] at hr
    exact h.bound r answer hr
  · rw [hanswers, hregistering]
    exact h.apart
  · rw [hregistering]
    exact h.exclusive
  · have hsame := decide_eq_decide.mp ((hnodes i).same hi)
    rw [hsame, hclaimed, ControlMemory.current_eq (hnodes i).generation]
    exact h.empty i ((hnodes i).owners hi)
  · rw [hanswers]
    exact h.once
  · intro r answer hr
    rw [hanswers] at hr
    rw [hclaimed]
    exact h.answered r answer hr

theorem Registered.answer (h : s.Registered) (ht : s.registering t = some r)
    (hlive : r.generation ≤ (s.memory.nodes r.node).generation)
    (hanswers : s'.answers = s.answers ++ [(r, .registered)])
    (hregistering : s'.registering = Function.update s.registering t none)
    (hnodes : ∀ i, (s.memory.nodes i).Keeps ControlNode.unclaimed (s'.memory.nodes i))
    (hinstalling : ∀ i, (s'.memory.nodes i).owners ≠ 0 →
      (s'.memory.nodes i).callbackState = .installing → ¬s'.Settled (s'.memory.current i)) :
    s'.Registered := by
  have hmem : ∀ r' answer, (r', answer) ∈ s'.answers ↔
      (r', answer) ∈ s.answers ∨ r' = r ∧ answer = .registered := by
    intro r' answer
    rw [hanswers, List.mem_append, List.mem_singleton, Prod.mk.injEq]
  have hclaimed : ∀ r', s'.Claimed r' ↔ s.Claimed r' := by
    intro r'
    rw [Claimed, Claimed, hmem]
    constructor
    · rintro ((hr' | ⟨rfl, -⟩) | ⟨t', ht'⟩)
      · exact .inl hr'
      · exact .inr ⟨t, ht⟩
      · rw [hregistering] at ht'
        rcases update_eq_cases ht' with ⟨-, heq⟩ | ⟨-, ht'⟩
        · cases heq
        · exact .inr ⟨t', ht'⟩
    · rintro (hr' | ⟨t', ht'⟩)
      · exact .inl (.inl hr')
      · by_cases heq : t' = t
        · rw [heq, ht] at ht'
          cases ht'
          exact .inl (.inr ⟨rfl, rfl⟩)
        · refine .inr ⟨t', ?_⟩
          rw [hregistering, Function.update_of_ne heq]
          exact ht'
  refine ⟨?_, ?_, ?_, fun i hi ↦ ?_, hinstalling, ?_, ?_⟩
  · intro r' answer hr'
    rw [(hnodes r'.node).generation]
    rcases (hmem r' answer).mp hr' with hr' | ⟨rfl, -⟩
    · exact h.bound r' answer hr'
    · exact hlive
  · intro t' r' ht' hr'
    rw [hregistering] at ht'
    rcases update_eq_cases ht' with ⟨-, heq⟩ | ⟨hne, ht'⟩
    · cases heq
    · rcases (hmem r' .registered).mp hr' with hr' | ⟨rfl, -⟩
      · exact h.apart t' r' ht' hr'
      · exact hne (h.exclusive ht' ht)
  · rw [hregistering]
    exact h.exclusive.update fun _ _ _ hnone ↦ by cases hnone
  · have hsame := decide_eq_decide.mp ((hnodes i).same hi)
    rw [hsame, hclaimed, ControlMemory.current_eq (hnodes i).generation]
    exact h.empty i ((hnodes i).owners hi)
  · intro r'
    rw [hanswers, List.count_append, List.count_singleton]
    split_ifs with heq
    · cases beq_iff_eq.mp heq
      rw [List.count_eq_zero_of_not_mem (h.apart t r ht)]
    · exact h.once r'
  · intro r' answer hr'
    rw [hclaimed]
    rcases (hmem r' answer).mp hr' with hr' | ⟨-, hanswer⟩
    · exact h.answered r' answer hr'
    · exact .inl hanswer

theorem Registered.refuse (h : s.Registered) (hclaimed : s.Claimed r)
    (hlive : r.generation ≤ (s.memory.nodes r.node).generation)
    (hs' : s' = { s with answers := s.answers ++ [(r, .alreadyRegistered)] }) : s'.Registered := by
  have hmem : ∀ r' answer, (r', answer) ∈ s'.answers ↔
      (r', answer) ∈ s.answers ∨ r' = r ∧ answer = .alreadyRegistered := by
    intro r' answer
    rw [hs', List.mem_append, List.mem_singleton, Prod.mk.injEq]
  have hregistered : ∀ r', (r', .registered) ∈ s'.answers ↔ (r', .registered) ∈ s.answers := by
    intro r'
    simp [hmem]
  have hclaimed' : ∀ r', s'.Claimed r' ↔ s.Claimed r' := by
    intro r'
    rw [Claimed, Claimed, hregistered, hs']
    rfl
  have hsettled : ∀ r', s'.Settled r' ↔ s.Settled r' := by
    intro r'
    rw [Settled, Settled, hregistered, hs']
  have hmemory : s'.memory = s.memory := by rw [hs']
  refine ⟨?_, ?_, ?_, fun i hi ↦ ?_, fun i hi hstate ↦ ?_, ?_, ?_⟩
  · intro r' answer hr'
    rw [hmemory]
    rcases (hmem r' answer).mp hr' with hr' | ⟨rfl, -⟩
    · exact h.bound r' answer hr'
    · exact hlive
  · intro t r' ht
    rw [hregistered]
    rw [hs'] at ht
    exact h.apart t r' ht
  · rw [hs']
    exact h.exclusive
  · rw [hclaimed', hmemory]
    rw [hmemory] at hi
    exact h.empty i hi
  · rw [hsettled, hmemory]
    rw [hmemory] at hi hstate
    exact h.installing i hi hstate
  · intro r'
    rw [hs', List.count_append, List.count_singleton, if_neg (by simp)]
    exact h.once r'
  · intro r' answer hr'
    rw [hclaimed']
    rcases (hmem r' answer).mp hr' with hr' | ⟨rfl, hanswer⟩
    · exact h.answered r' answer hr'
    · exact .inr ⟨hanswer, hclaimed⟩

theorem Registered.register (h : s.Registered) (hinv : s.Inv free queue) {o : ℕ}
    (ho : s.operations o = some r) (hempty : (s.memory.nodes r.node).callbackState = .empty)
    (ht : s.calls t = none) (hanswers : s'.answers = s.answers)
    (hcalls : s'.calls = Function.update s.calls t (some f)) (hf : f.function = .registerCallback)
    (hfr : f.ref = r) (hpc : f.pc.role = some .installer)
    (hself : s'.memory.nodes r.node = { s.memory.nodes r.node with
      callbackState := .installing, owners := (s.memory.nodes r.node).owners + 1 })
    (hother : ∀ i ≠ r.node, s'.memory.nodes i = s.memory.nodes i) : s'.Registered := by
  have hcurrent : s.memory.current r.node = r := by
    rw [ControlMemory.current, (hinv.operation o r ho).current]
  have hunclaimed : ¬s.Claimed r := by
    have hnot := (h.empty r.node (hinv.operation_owners ho)).mp hempty
    rwa [hcurrent] at hnot
  have hgeneration : ∀ i, (s'.memory.nodes i).generation = (s.memory.nodes i).generation := by
    intro i
    by_cases hi : i = r.node
    · rw [hi, hself]
    · rw [hother i hi]
  have hregistering : s'.registering = Function.update s.registering t (some r) := by
    rw [registering_calls hcalls, Option.bind_some, if_pos hf, hfr]
  have hclaimed : ∀ r', s'.Claimed r' ↔ s.Claimed r' ∨ r' = r := by
    intro r'
    rw [Claimed, Claimed, hanswers, hregistering]
    constructor
    · rintro (hr' | ⟨t', ht'⟩)
      · exact .inl (.inl hr')
      · rcases update_eq_cases ht' with ⟨-, heq⟩ | ⟨-, ht'⟩
        · cases heq
          exact .inr rfl
        · exact .inl (.inr ⟨t', ht'⟩)
    · rintro ((hr' | ⟨t', ht'⟩) | rfl)
      · exact .inl hr'
      · refine .inr ⟨t', ?_⟩
        rw [Function.update_of_ne]
        · exact ht'
        · rintro rfl
          rw [registering, ht] at ht'
          cases ht'
      · exact .inr ⟨t, Function.update_self ..⟩
  have hsettled : ∀ r', s'.Settled r' → s.Settled r' := by
    rintro r' (hr' | ⟨t', f', hf', hfunction, hrole, heq⟩)
    · rw [hanswers] at hr'
      exact .inl hr'
    · rw [hcalls] at hf'
      rcases update_eq_cases hf' with ⟨-, heq'⟩ | ⟨-, hf'⟩
      · cases heq'
        exact absurd hpc hrole
      · exact .inr ⟨t', f', hf', hfunction, hrole, heq⟩
  refine ⟨?_, ?_, ?_, fun i hi ↦ ?_, fun i hi hstate hr ↦ ?_, ?_, ?_⟩
  · intro r' answer hr'
    rw [hanswers] at hr'
    rw [hgeneration]
    exact h.bound r' answer hr'
  · intro t' r' ht' hr'
    rw [hregistering] at ht'
    rw [hanswers] at hr'
    rcases update_eq_cases ht' with ⟨-, heq⟩ | ⟨-, ht'⟩
    · cases heq
      exact hunclaimed (.inl hr')
    · exact h.apart t' r' ht' hr'
  · rw [hregistering]
    refine h.exclusive.update fun t' r' _ heq ht' ↦ ?_
    cases heq
    exact hunclaimed (.inr ⟨t', ht'⟩)
  · rw [hclaimed, ControlMemory.current_eq (hgeneration i)]
    by_cases hir : i = r.node
    · rw [hir, hself, hcurrent]
      simp
    · rw [hother i hir] at hi ⊢
      have hne : s.memory.current i ≠ r := fun heq ↦ hir (congrArg ControlRef.node heq)
      rw [or_iff_left hne]
      exact h.empty i hi
  · rw [ControlMemory.current_eq (hgeneration i)] at hr
    by_cases hir : i = r.node
    · rw [hir, hcurrent] at hr
      exact hunclaimed (hsettled r hr).claimed
    · rw [hother i hir] at hi hstate
      exact h.installing i hi hstate (hsettled _ hr)
  · rw [hanswers]
    exact h.once
  · intro r' answer hr'
    rw [hanswers] at hr'
    rcases h.answered r' answer hr' with hanswer | ⟨hanswer, hr'⟩
    · exact .inl hanswer
    · exact .inr ⟨hanswer, (hclaimed r').mpr (.inl hr')⟩

theorem Registered.start (h : s.Registered) (hinv : s.Inv free queue) (hk : k ∈ free)
    (hanswers : s'.answers = s.answers) (hcalls : s'.calls = s.calls)
    (hself : s'.memory.nodes k = (s.memory.nodes k).started)
    (hother : ∀ i ≠ k, s'.memory.nodes i = s.memory.nodes i) : s'.Registered := by
  have hregistering : s'.registering = s.registering := by
    funext t
    rw [registering, registering, hcalls]
  have hclaimed : ∀ r, s'.Claimed r ↔ s.Claimed r := by
    intro r
    rw [Claimed, Claimed, hanswers, hregistering]
  have hfresh : ¬s.Claimed (s'.memory.current k) := by
    rw [ControlMemory.current, hself]
    rintro (hr | ⟨t, ht⟩)
    · exact Nat.not_succ_le_self _ (h.bound _ _ hr)
    · obtain ⟨f, hf, -, hr⟩ := registering_eq_some ht
      have hlive := (hinv.frame t f hf).1
      rw [hr] at hlive
      exact hlive.not_free hk
  have hle : ∀ i, (s.memory.nodes i).generation ≤ (s'.memory.nodes i).generation := by
    intro i
    by_cases hi : i = k
    · rw [hi, hself]
      exact Nat.le_succ _
    · rw [hother i hi]
  refine ⟨?_, ?_, ?_, fun i hi ↦ ?_, fun i hi hstate hr ↦ ?_, ?_, ?_⟩
  · intro r answer hr
    rw [hanswers] at hr
    exact (h.bound r answer hr).trans (hle r.node)
  · rw [hanswers, hregistering]
    exact h.apart
  · rw [hregistering]
    exact h.exclusive
  · rw [hclaimed]
    by_cases hik : i = k
    · rw [hik]
      refine iff_of_true ?_ hfresh
      rw [hself]
      rfl
    · rw [ControlMemory.current, hother i hik]
      rw [hother i hik] at hi
      exact h.empty i hi
  · by_cases hik : i = k
    · rw [hik, hself] at hstate
      cases hstate
    · rw [ControlMemory.current, hother i hik] at hr
      rw [hother i hik] at hi hstate
      rw [Settled, hanswers, hcalls] at hr
      exact h.installing i hi hstate hr
  · rw [hanswers]
    exact h.once
  · intro r answer hr
    rw [hanswers] at hr
    rw [hclaimed]
    exact h.answered r answer hr

/-- A step of a call settles a registration only at the end of the second section. -/
theorem settled_advance (hf : s.calls t = some f)
    (hturn : f.Turn (s.memory.nodes f.node) f.pc (m'.nodes f.node) call)
    (h : (s.afterCall t f m' call).Settled r) : s.Settled r ∨ r = f.ref ∧ f.pc = .arm := by
  have hself : f.function = .registerCallback →
      (∀ f', call = some f' → f'.pc.role ≠ some .installer) →
      s.Settled f.ref ∨ f.ref = f.ref ∧ f.pc = .arm := by
    intro hfunction hrole
    by_cases hinstaller : f.pc.role = some .installer
    · rcases hturn.installer hinstaller with hpc | ⟨f', hcall, hrole'⟩
      · exact .inr ⟨rfl, hpc⟩
      · exact absurd hrole' (hrole f' hcall)
    · exact .inl (.inr ⟨t, f, hf, hfunction, hinstaller, rfl⟩)
  rcases h with hr | ⟨t', f', hf', hfunction, hrole, rfl⟩
  · change (r, _) ∈ ite _ _ _ at hr
    split_ifs at hr with hreturns
    · rcases List.mem_append.mp hr with hr | hr
      · exact .inl (.inl hr)
      · cases List.mem_singleton.mp hr
        refine hself hreturns.1 fun f' hcall ↦ ?_
        cases hreturns.2.symm.trans hcall
    · exact .inl (.inl hr)
  · rcases update_eq_cases hf' with ⟨-, heq⟩ | ⟨-, hf'⟩
    · obtain ⟨pc, rfl⟩ := hturn.goto heq.symm
      refine hself hfunction fun f' hcall ↦ ?_
      cases heq.trans hcall
      exact hrole
    · exact .inl (.inr ⟨t', f', hf', hfunction, hrole, rfl⟩)

theorem Registered.advance (h : s.Registered) (hinv : s.Inv free queue) (hf : s.calls t = some f)
    (hstep : f.step s.memory = some (m', call)) : (s.afterCall t f m' call).Registered := by
  have hturn := hinv.turn hf hstep
  have hnodes := hinv.keeps hf hstep
  have hinstalling : ∀ i, (m'.nodes i).owners ≠ 0 → (m'.nodes i).callbackState = .installing →
      ¬(s.afterCall t f m' call).Settled (m'.current i) := by
    intro i hi hstate hr
    rw [ControlMemory.current_eq (hnodes i).generation] at hr
    have howners := (hnodes i).owners hi
    by_cases hif : i = f.node
    · rw [hif] at hstate howners hr
      obtain ⟨hstate, hpc⟩ := hturn.installing hstate
      rcases settled_advance hf hturn hr with hr | ⟨-, harm⟩
      · exact h.installing f.node howners hstate hr
      · exact hpc harm
    · rw [ControlFrame.step_other hstep hif] at hstate
      rcases settled_advance hf hturn hr with hr | ⟨heq, -⟩
      · exact h.installing i howners hstate hr
      · exact hif (congrArg ControlRef.node heq)
  have hregistering : (s.afterCall t f m' call).registering = Function.update s.registering t
      (call.bind fun f ↦ if f.function = .registerCallback then some f.ref else none) :=
    registering_calls rfl
  have hself : s.registering t = if f.function = .registerCallback then some f.ref else none := by
    rw [registering, hf]
    rfl
  have hanswers : (s.afterCall t f m' call).answers =
      if f.function = .registerCallback ∧ call = none then s.answers ++ [(f.ref, .registered)]
      else s.answers := rfl
  by_cases hreturns : f.function = .registerCallback ∧ call = none
  · rw [if_pos hreturns] at hanswers
    rw [if_pos hreturns.1] at hself
    obtain ⟨-, rfl⟩ := hreturns
    exact h.answer hself (hinv.frame t f hf).1.current.ge hanswers hregistering hnodes hinstalling
  · rw [if_neg hreturns] at hanswers
    refine h.frame hanswers ?_ hnodes hinstalling
    rw [hregistering, Function.update_eq_self_iff, hself]
    cases hcall : call with
    | none =>
      rw [if_neg fun hfunction ↦ hreturns ⟨hfunction, hcall⟩]
      rfl
    | some f' =>
      obtain ⟨pc, rfl⟩ := hturn.goto hcall
      rfl

theorem Registered.step (h : s.Registered) (hinv : s.Inv free queue) {action : ControlAction}
    (hstep : s.step action = some s') : s'.Registered := by
  -- a call that is not one of `OnComplete` begins, or none does
  have hcalls : ∀ {s' : Control} {t call}, s'.answers = s.answers →
      s'.calls = Function.update s.calls t call → s.calls t = none →
      (∀ f, call = some f → f.function ≠ .registerCallback) →
      (∀ i, (s.memory.nodes i).Kept (s'.memory.nodes i)) → s'.Registered := by
    intro s' t call hanswers hcalls ht hcall hnodes
    refine h.frame hanswers ?_ (fun i ↦ (hnodes i).keeps fun _ _ ↦ rfl) fun i hi hstate hr ↦ ?_
    · rw [registering_calls hcalls, Function.update_eq_self_iff, registering, ht]
      cases call with
      | none => rfl
      | some f => exact if_neg (hcall f rfl)
    · have hsettled : s.Settled (s'.memory.current i) := by
        rcases hr with hr | ⟨t', f, hf, hfunction, hrole, heq⟩
        · rw [hanswers] at hr
          exact .inl hr
        · rw [hcalls] at hf
          rcases update_eq_cases hf with ⟨-, hf⟩ | ⟨-, hf⟩
          · exact absurd hfunction (hcall f hf.symm)
          · exact .inr ⟨t', f, hf, hfunction, hrole, heq⟩
      rw [ControlMemory.current, hnodes i] at hsettled
      rw [hnodes i] at hi hstate
      exact h.installing i hi hstate hsettled
  cases Effect.of_step hstep with
  | nothing => exact h
  | movedOperation | movedCompletion => exact { h with }
  | stale ho hgeneration => exact absurd (hinv.operation _ _ ho).current hgeneration
  | alreadyRegistered ho hstate =>
    have hlive := hinv.operation _ _ ho
    refine h.refuse ?_ hlive.current.ge rfl
    have hclaimed := mt (h.empty _ (hinv.operation_owners ho)).mpr hstate
    rw [not_not, ControlMemory.current, hlive.current] at hclaimed
    exact hclaimed
  | resetOperation ht | tryComplete ht =>
    refine hcalls rfl rfl ht.2 (fun f hf ↦ ?_) fun i ↦ .refl _
    cases hf
    nofun
  | started ho hc hstart =>
    obtain ⟨hself, hother, -⟩ := tryStart_nodes hstart
    obtain ⟨rest, hfree, -⟩ := hinv.tryStart ho hc hstart rfl
    refine h.start hinv ?_ rfl rfl hself hother
    rw [hfree]
    exact List.mem_cons_self
  | register ht ho hempty =>
    exact h.register hinv ho hempty ht.2 rfl rfl rfl rfl rfl (s.memory.nodes_setNode_self ..)
      fun i hi ↦ s.memory.nodes_setNode_of_ne hi _
  | dispatch ht hpop =>
    obtain ⟨hrelinked, -⟩ := linkedQueue_popTask hinv.queue_linked hpop
    refine hcalls rfl rfl ht (fun f hf ↦ ?_) hrelinked.kept
    cases hf
    nofun
  | advance hf hcall => exact h.advance hinv hf hcall

end Control

end Ulog
