import Ulog.Sink.Ownership

/-!
# The stream of frames

Frames are written lowest sequence first and stored in increasing sequence, so the delivered frames
are the first of the stored ones, and the frame being written, or the one that failed, is the next.
What lies behind it is queued until the sink is stopped or fails, and never written after that. The
file is therefore a prefix of the stored frames, one after the other, at every moment of a run.

The error of a failed write stays in the sink, and so does the result of the close.
-/

namespace Ulog

theorem isPrefix_concat {α : Type*} {l m : List α} {x : α} (h : l <+: m)
    (hx : m[l.length]? = some x) : l ++ [x] <+: m := by
  have htake := List.take_prefix (l.length + 1) m
  rwa [List.take_add_one, hx, ← List.prefix_iff_eq_take.mp h] at htake

namespace FileSink

/-- The buffer waits for the loop thread or is being written by it. -/
def Pending (s : FileSink) (i : ℕ) : Prop :=
  (s.owners i).state = .queued ∨ (s.owners i).state = .writing

/-- The sink takes no frame any more. -/
def Refusing (s : FileSink) : Prop := s.stopping = true ∨ s.failureError ≠ 0 ∨ s.closed = true

/-- The file was opened. -/
def WasOpened (s : FileSink) : Prop := s.asyncOpen = true ∨ s.closed = true

variable {s s' : FileSink} {i j : ℕ}

theorem WasOpened.kept (h : s.WasOpened) (hkept : FileKept s s') : s'.WasOpened := by
  rwa [WasOpened, hkept.asyncOpen, hkept.closed]

theorem Pending.of_state (h : s.Pending i) (hstate : (s'.owners i).state = (s.owners i).state) :
    s'.Pending i := by
  rwa [Pending, hstate]

theorem Pending.ne_of_owns {c : FileSlotIdentity} (h : s.Pending i) (howns : s.owns c = true) :
    i ≠ c.index := by
  rintro rfl
  rw [Pending, (owns_iff.mp howns).1] at h
  simp at h

/-- Slots change hands between free and reserved at most. -/
structure Reowned (s s' : FileSink) : Prop where
  deliveries : s'.deliveries = s.deliveries
  failureError : s'.failureError = s.failureError
  bufferBytes : s'.bufferBytes = s.bufferBytes
  stopping : s'.stopping = s.stopping
  writing : ∀ i, (s'.owners i).state = .writing → (s.owners i).state = .writing
  pending : ∀ i, s.Pending i → s'.Pending i

theorem Reowned.refl (s : FileSink) : Reowned s s :=
  ⟨rfl, rfl, rfl, rfl, fun _ ↦ id, fun _ ↦ id⟩

theorem reowned_setOwner {o : FileOwner} (ho : o.state ≠ .writing) (hj : ¬s.Pending j) :
    Reowned s (s.setOwner j o) := by
  refine ⟨rfl, rfl, rfl, rfl, fun i hi ↦ ?_, fun i hi ↦ hi.of_state ?_⟩
  · change (Function.update s.owners j o i).state = _ at hi
    by_cases hij : i = j
    · rw [hij, Function.update_self] at hi
      exact absurd hi ho
    · rwa [Function.update_of_ne hij] at hi
  · have hij : i ≠ j := by
      rintro rfl
      exact hj hi
    exact congrArg FileOwner.state (Function.update_of_ne hij ..)

theorem reowned_tryClaimWrite : Reowned s s.tryClaimWrite.1 := by
  rw [tryClaimWrite]
  split
  · exact .refl s
  · split
    · exact .refl s
    · next hfind =>
      have hfound := List.find?_some hfind
      rw [Bool.and_eq_true, beq_iff_eq] at hfound
      refine reowned_setOwner (by rintro ⟨⟩) ?_
      rw [Pending, hfound.1]
      simp

theorem reowned_resetClaim {c : FileSlotIdentity} : Reowned s (s.resetClaim c) := by
  rw [resetClaim]
  split
  · next howns => exact reowned_setOwner (by rintro ⟨⟩) fun hpending ↦ hpending.ne_of_owns howns rfl
  · exact .refl s

theorem reowned_pump : Reowned s s.pump := by
  rw [pump]
  split
  · exact ⟨rfl, rfl, rfl, rfl, fun _ ↦ id, fun _ ↦ id⟩
  · dsimp only
    split <;> exact ⟨rfl, rfl, rfl, rfl, fun _ ↦ id, fun _ ↦ id⟩

theorem reowned_startClose {submit : ℤ} : Reowned s (s.startClose submit) := by
  rw [startClose]
  dsimp only
  split
  · exact ⟨rfl, rfl, rfl, rfl, fun _ ↦ id, fun _ ↦ id⟩
  · split <;> exact ⟨rfl, rfl, rfl, rfl, fun _ ↦ id, fun _ ↦ id⟩

theorem setOwner_state {o : FileOwner} (ho : o.state = (s.owners j).state) :
    ((s.setOwner j o).owners i).state = (s.owners i).state := by
  by_cases hij : i = j
  · rw [hij, ← ho]
    exact congrArg FileOwner.state (Function.update_self ..)
  · exact congrArg FileOwner.state (Function.update_of_ne hij ..)

theorem cancelQueued_cases (s : FileSink) (i : ℕ) :
    (s.owners i).state = .queued ∧ (s.cancelQueued.owners i).state = .free ∧
        s.cancelQueued.deliveries i = { s.deliveries i with state := .cancelled } ∨
      s.cancelQueued.owners i = s.owners i ∧ s.cancelQueued.deliveries i = s.deliveries i := by
  by_cases hi : (decide (i < s.bufferCount) && (s.owners i).state == .queued) = true
  · refine .inl ⟨?_, ?_, if_pos hi⟩
    · rw [Bool.and_eq_true, beq_iff_eq] at hi
      exact hi.2
    · rw [cancelQueued]
      dsimp only
      rw [if_pos hi]
  · exact .inr ⟨if_neg hi, if_neg hi⟩

end FileSink

namespace FileRun

open FileSink

variable {r r' : FileRun} {conv : Charconv} {a : FileAction} {i : ℕ} {call : StoreCall}

/-- The claim of a store call is never refused. -/
theorem Inv.storing_owns (hinv : r.Inv) (hcall : r.storing = some call) :
    call.identity.index < r.sink.bufferCount ∧ r.sink.owns call.identity = true := by
  have hheld := hinv.claims
  rw [held, hcall] at hheld
  exact hheld.owns call.identity List.mem_cons_self

/-! ## What is never taken back -/

/-- The error stays, as `Stop` does. -/
structure Lasting (s s' : FileSink) : Prop where
  bufferBytes : s'.bufferBytes = s.bufferBytes
  stopping : s.stopping = true → s'.stopping = true
  failureError : s.failureError ≠ 0 → s'.failureError ≠ 0

theorem Lasting.of_reowned {s s' : FileSink} (h : Reowned s s') : Lasting s s' :=
  ⟨h.bufferBytes, h.stopping.trans, by rw [h.failureError]; exact id⟩

theorem Move.lasting (hmove : Move conv r a r') : Lasting r.sink r'.sink := by
  cases hmove with
  | tryClaimWrite => exact .of_reowned reowned_tryClaimWrite
  | resetClaim => exact .of_reowned reowned_resetClaim
  | pump => exact .of_reowned reowned_pump
  | startClose => exact .of_reowned reowned_startClose
  | store =>
    simp only [finishStore, FileSink.store]
    split_ifs
    all_goals first | exact ⟨rfl, id, id⟩ | exact .of_reowned reowned_resetClaim
  | stop => exact ⟨rfl, fun _ ↦ rfl, id⟩
  | @startWrite submit index =>
    change Lasting _ (r.sink.startWrite index submit)
    rcases startWrite_cases r.sink index submit with ⟨_, _, heq⟩ | ⟨_, _, heq⟩ <;>
    · rw [heq]
      exact ⟨rfl, id, id⟩
  | @finishWrite _ result =>
    have herror : uvEio ≠ 0 := by decide
    change Lasting _ (r.sink.finishWrite result)
    rw [FileSink.finishWrite]
    dsimp only
    split_ifs with hfailed hnegative
    · exact ⟨rfl, id, fun _ ↦ hnegative.ne⟩
    · exact ⟨rfl, id, fun _ ↦ herror⟩
    · exact ⟨rfl, id, id⟩
    · exact ⟨rfl, id, id⟩
  | _ => exact ⟨rfl, id, id⟩

theorem Inv.refusing_step (hinv : r.Inv) (hclose : r.sink.CloseOk) (hmove : Move conv r a r')
    (h : r.sink.Refusing) : r'.sink.Refusing := by
  have hlasting := hmove.lasting
  rcases h with hstopping | hfailure | hclosed
  · exact .inl (hlasting.stopping hstopping)
  · exact .inr (.inl (hlasting.failureError hfailure))
  · exact .inr (.inr (hinv.events_closed hclose hclosed hmove).2)

theorem Inv.delivered_prefix (hinv : r.Inv) (hmove : Move conv r a r') :
    r.delivered <+: r'.delivered := by
  cases hmove with
  | store hcall =>
    rcases finishStore_cases hinv hcall with ⟨heq, -, -⟩ | ⟨o, d, -, -, heq⟩
    · rw [heq]
      exact List.prefix_rfl
    · rw [heq]
  | pump | startWrite | finishWrite | startClose | finishClose => exact List.prefix_append ..
  | _ => exact List.prefix_rfl

/-! ## The stream -/

/-- How far the run has come in the stream of stored frames. -/
structure Streamed (r : FileRun) : Prop where
  delivered : r.delivered <+: r.stored
  writing : ∀ i, (r.sink.owners i).state = .writing →
    r.stored[r.delivered.length]? = some (r.frame i)
  failed : ∀ e ∈ r.failed, r.stored[r.delivered.length]? = some e
  pending : r.sink.stopping = false → r.failed = none → ∀ n e, r.delivered.length ≤ n →
    r.stored[n]? = some e → ∃ i, r.sink.Pending i ∧ r.frame i = e

/-- Only `StoreRaw` puts a frame into a buffer, and only into a reserved one. -/
theorem Inv.frame_eq (hinv : r.Inv) (hmove : Move conv r a r') (hi : r.sink.Pending i) :
    r'.frame i = r.frame i := by
  have hframes : r'.frames i = r.frames i := by
    cases hmove with
    | @store call hcall _ =>
      have hne := hi.ne_of_owns (hinv.storing_owns hcall).2
      rcases finishStore_cases hinv hcall with ⟨heq, -, -⟩ | ⟨o, d, -, -, heq⟩ <;> rw [heq]
      exact enqueue_frames_of_ne hne
    | _ => rfl
  rw [frame, frame, hframes, (hinv.fixed hmove (.inr hi)).2.2]

/-- The frame the pump selects is the next of the stream. -/
theorem Streamed.next (h : r.Streamed) (hinv : r.Inv) (hs : r.Startable i) :
    r.stored[r.delivered.length]? = some (r.frame i) := by
  rcases hs.pending with hqueued | hwriting
  · obtain ⟨n, hn⟩ := List.mem_iff_getElem?.mp hs.framed.stored
    -- neither a delivered frame nor one behind a frame that is still queued
    have hle : r.delivered.length ≤ n := by
      by_contra hlt
      have hmem : r.frame i ∈ r.delivered := by
        refine List.mem_iff_getElem?.mpr ⟨n, ?_⟩
        rw [List.prefix_iff_eq_take.mp h.delivered, List.getElem?_take_of_lt (by omega), hn]
      exact (hs.framed.delivered _ hmem).false
    rcases hle.eq_or_lt with rfl | hlt
    · exact hn
    · obtain ⟨hn', hget⟩ := List.getElem?_eq_some_iff.mp hn
      have hbefore : r.delivered.length < r.stored.length := hlt.trans hn'
      obtain ⟨j, hj, hframe⟩ := h.pending (hinv.queued i hqueued).2.1 hs.noFailure _ _ le_rfl
        (List.getElem?_eq_getElem hbefore)
      have hsorted := List.pairwise_iff_getElem.mp hinv.storedSorted _ _ hbefore hn' hlt
      rw [← hframe, hget] at hsorted
      have hne : j ≠ i := by
        rintro rfl
        exact hsorted.false
      exact absurd (hs.lowest j hne (hj.resolve_right (hs.alone j hne))) hsorted.asymm
  · exact h.writing i hwriting

theorem Streamed.quiet (h : r.Streamed) (hinv : r.Inv) (hmove : Move conv r a r')
    (hsame : r'.stored = r.stored ∧ r'.delivered = r.delivered ∧ r'.failed = r.failed)
    (hwriting : ∀ i, (r'.sink.owners i).state = .writing →
      (r.sink.owners i).state = .writing ∨ r.Startable i)
    (hpending : r'.sink.stopping = false →
      r.sink.stopping = false ∧ ∀ i, r.sink.Pending i → r'.sink.Pending i) : r'.Streamed := by
  obtain ⟨hstored, hdelivered, hfailed⟩ := hsame
  refine ⟨?_, fun i hi ↦ ?_, ?_, ?_⟩
  · rw [hdelivered, hstored]
    exact h.delivered
  · rw [hdelivered, hstored]
    rcases hwriting i hi with hold | hs
    · rw [hinv.frame_eq hmove (.inr hold)]
      exact h.writing i hold
    · rw [hinv.frame_eq hmove hs.pending]
      exact h.next hinv hs
  · rw [hdelivered, hstored, hfailed]
    exact h.failed
  · rw [hdelivered, hstored, hfailed]
    intro hstopping hnone n e hn he
    obtain ⟨hbefore, hkept⟩ := hpending hstopping
    obtain ⟨i, hi, hframe⟩ := h.pending hbefore hnone n e hn he
    exact ⟨i, hkept i hi, (hinv.frame_eq hmove hi).trans hframe⟩

theorem Streamed.reowned (h : r.Streamed) (hinv : r.Inv) (hmove : Move conv r a r')
    (hsame : r'.stored = r.stored ∧ r'.delivered = r.delivered ∧ r'.failed = r.failed)
    (hs : Reowned r.sink r'.sink) : r'.Streamed :=
  h.quiet hinv hmove hsame (fun i hi ↦ .inl (hs.writing i hi)) fun hstopping ↦
    ⟨hs.stopping ▸ hstopping, hs.pending⟩

theorem Streamed.enqueue (h : r.Streamed) (hinv : r.Inv)
    (hcall : r.storing = some call) (hmove : Move conv r a (r.enqueue call)) :
    (r.enqueue call).Streamed := by
  have hstored : (r.enqueue call).stored = r.stored ++ [(call.sequence, call.frame)] := rfl
  have hself : (r.enqueue call).frame call.identity.index = (call.sequence, call.frame) := by
    rw [frame, enqueue_deliveries_self, enqueue_frames_self]
  have hgrow : ∀ {n : ℕ} {e}, r.stored[n]? = some e → (r.enqueue call).stored[n]? = some e := by
    intro n e he
    rw [hstored, List.getElem?_append_left (List.getElem?_eq_some_iff.mp he).1, he]
  have hwriting : ∀ i, ((r.enqueue call).sink.owners i).state = .writing →
      (r.sink.owners i).state = .writing := by
    intro i hi
    have hne : i ≠ call.identity.index := by
      rintro rfl
      rw [enqueue_owners_self] at hi
      cases hi
    rwa [enqueue_owners_of_ne hne] at hi
  refine ⟨h.delivered.trans (List.prefix_append ..), fun i hi ↦ ?_,
    fun e he ↦ hgrow (h.failed e he), fun hstopping hnone n e hn he ↦ ?_⟩
  · rw [hinv.frame_eq hmove (.inr (hwriting i hi))]
    exact hgrow (h.writing i (hwriting i hi))
  · rcases Nat.lt_or_ge n r.stored.length with hlt | hge
    · rw [hstored, List.getElem?_append_left hlt] at he
      obtain ⟨i, hi, hframe⟩ := h.pending hstopping hnone n e hn he
      refine ⟨i, hi.of_state ?_, (hinv.frame_eq hmove hi).trans hframe⟩
      rw [enqueue_owners_of_ne (hi.ne_of_owns (hinv.storing_owns hcall).2)]
    · rw [hstored, List.getElem?_append_right hge, List.getElem?_singleton] at he
      refine ⟨call.identity.index, .inl ?_, ?_⟩
      · rw [enqueue_owners_self]
      · rw [hself]
        exact Option.some.inj (Option.ite_none_right_eq_some.mp he).2

variable {o : FileOwner} {result : ℤ}

theorem Streamed.fail (h : r.Streamed) (hinv' : r'.Inv)
    (howner : (r.sink.owners r.sink.writingSlot).state = .writing)
    (hsame : r'.stored = r.stored ∧ r'.delivered = r.delivered)
    (hfailed : r'.failed = some (r.frame r.sink.writingSlot)) : r'.Streamed := by
  have hnext := h.writing _ howner
  have hnone : ∀ i, (r'.sink.owners i).state ≠ .writing := by
    intro i hi
    have hw : r'.Writing := hinv'.phase.resolve_left fun hb ↦ hb.owner i hi
    rw [hw.failed] at hfailed
    cases hfailed
  refine ⟨?_, fun i hi ↦ absurd hi (hnone i), ?_, fun _ hnone ↦ ?_⟩
  · rw [hsame.1, hsame.2]
    exact h.delivered
  · rw [hsame.1, hsame.2, hfailed]
    rintro e ⟨⟩
    exact hnext
  · rw [hnone] at hfailed
    cases hfailed

theorem Streamed.deliver (h : r.Streamed) (hinv : r.Inv) (hmove : Move conv r a r')
    (howner : (r.sink.owners r.sink.writingSlot).state = .writing)
    (hstored : r'.stored = r.stored)
    (hdelivered : r'.delivered = r.delivered ++ [r.frame r.sink.writingSlot])
    (hfailed : r'.failed = none) (hstopping : r'.sink.stopping = r.sink.stopping)
    (hwriting : ∀ i, (r'.sink.owners i).state ≠ .writing)
    (hother : ∀ i, i ≠ r.sink.writingSlot → r'.sink.owners i = r.sink.owners i) :
    r'.Streamed := by
  have hnext := h.writing _ howner
  have hnone : r.failed = none := by
    have hw : r.Writing := hinv.phase.resolve_left fun hb ↦ hb.owner _ howner
    exact hw.failed
  refine ⟨?_, fun i hi ↦ absurd hi (hwriting i), ?_, fun hrunning _ n e hn he ↦ ?_⟩
  · rw [hdelivered, hstored]
    exact isPrefix_concat h.delivered hnext
  · rw [hfailed]
    rintro e ⟨⟩
  · rw [hdelivered, List.length_append, List.length_singleton] at hn
    rw [hstored] at he
    obtain ⟨i, hi, hframe⟩ := h.pending (hstopping ▸ hrunning) hnone n e (by omega) he
    -- the frame behind it is another one
    have hne : i ≠ r.sink.writingSlot := by
      rintro rfl
      obtain ⟨hk, hget⟩ := List.getElem?_eq_some_iff.mp hnext
      obtain ⟨hn', hget'⟩ := List.getElem?_eq_some_iff.mp he
      have hsorted := List.pairwise_iff_getElem.mp hinv.storedSorted _ _ hk hn' (by omega)
      rw [hget, hget', hframe] at hsorted
      exact hsorted.false
    exact ⟨i, hi.of_state (by rw [hother i hne]), (hinv.frame_eq hmove hi).trans hframe⟩

theorem afterLoop_same {s' : FileSink} (h : s'.deliveries = r.sink.deliveries) :
    (r.afterLoop s').stored = r.stored ∧ (r.afterLoop s').delivered = r.delivered ∧
      (r.afterLoop s').failed = r.failed := by
  rw [afterLoop_eq_setSink h]
  exact ⟨rfl, rfl, rfl⟩

theorem Streamed.finishWrite (h : r.Streamed) (hinv : r.Inv)
    (hloop : r.sink.loop = .finishWrite result)
    (hmove : Move conv r a (r.afterLoop (r.sink.finishWrite result)))
    (hinv' : (r.afterLoop (r.sink.finishWrite result)).Inv) :
    (r.afterLoop (r.sink.finishWrite result)).Streamed := by
  have hf := hinv.finishing hloop
  rcases hinv.afterLoop_finishWrite hloop with ⟨o, e, -, -, heq⟩ | heq | ⟨-, o, hfree, heq⟩ <;>
    rw [heq] at hmove hinv' ⊢
  · exact h.fail hinv' hf.owner ⟨rfl, rfl⟩ rfl
  · have hstate : ∀ i, ((r.sink.setOwner r.sink.writingSlot
        { r.sink.owners r.sink.writingSlot with
          writtenBytes := (r.sink.owners r.sink.writingSlot).writtenBytes + result.toNat }).owners
            i).state = (r.sink.owners i).state := fun i ↦ setOwner_state rfl
    exact h.quiet hinv hmove ⟨rfl, rfl, rfl⟩ (fun i hi ↦ .inl ((hstate i).symm.trans hi))
      fun hstopping ↦ ⟨hstopping, fun i hi ↦ hi.of_state (hstate i)⟩
  · have hb : ∀ i, ((r.sink.afterWrite o .delivered).owners i).state ≠ .writing := by
      intro i hi
      by_cases hne : i = r.sink.writingSlot
      · rw [hne, afterWrite_owners_self, hfree] at hi
        cases hi
      · rw [afterWrite_owners_of_ne hne] at hi
        exact hne (hinv.writing i hi).1
    exact h.deliver hinv hmove hf.owner rfl rfl hf.noFailure rfl hb
      fun i hi ↦ Function.update_of_ne hi ..

theorem Streamed.startWrite (h : r.Streamed) (hinv : r.Inv) {index : ℕ} {submit : ℤ}
    (hs : r.Startable index)
    (hmove : Move conv r a (r.afterLoop (r.sink.startWrite index submit))) :
    (r.afterLoop (r.sink.startWrite index submit)).Streamed := by
  have hother : ∀ i, i ≠ index → (r.sink.startWrite index submit).owners i = r.sink.owners i := by
    intro i hi
    rcases startWrite_cases r.sink index submit with ⟨_, _, heq⟩ | ⟨_, _, heq⟩ <;> rw [heq] <;>
      exact Function.update_of_ne hi ..
  have hself : ((r.sink.startWrite index submit).owners index).state = .writing := by
    rcases startWrite_cases r.sink index submit with ⟨_, _, heq⟩ | ⟨_, _, heq⟩ <;> rw [heq] <;>
      simp [FileSink.markWriting, setOwner]
  have hstopping : (r.sink.startWrite index submit).stopping = r.sink.stopping := by
    rcases startWrite_cases r.sink index submit with ⟨_, _, heq⟩ | ⟨_, _, heq⟩ <;> rw [heq] <;> rfl
  refine h.quiet hinv hmove (afterLoop_same (startWrite_deliveries ..)) (fun i hi ↦ ?_)
    fun hrunning ↦ ⟨hstopping.symm.trans hrunning, fun i hi ↦ ?_⟩
  · by_cases hne : i = index
    · exact .inr (hne ▸ hs)
    · exact .inl ((congrArg FileOwner.state (hother i hne)).symm.trans hi)
  · by_cases hne : i = index
    · exact .inr (hne ▸ hself)
    · exact hi.of_state (congrArg FileOwner.state (hother i hne))

theorem Streamed.step (h : r.Streamed) (hinv : r.Inv) (hok : r.Disciplined a)
    (hstep : r.step conv a = some r') : r'.Streamed := by
  have hinv' := hinv.step hok hstep
  have hmove := Move.of_step hstep
  have hmove' := hmove
  cases hmove with
  | opened | encode | requestClose | wake | executeWrite | writeComplete | closeComplete =>
    exact h.reowned hinv hmove' ⟨rfl, rfl, rfl⟩ ⟨rfl, rfl, rfl, rfl, fun _ ↦ id, fun _ ↦ id⟩
  | tryClaimWrite => exact h.reowned hinv hmove' ⟨rfl, rfl, rfl⟩ reowned_tryClaimWrite
  | resetClaim => exact h.reowned hinv hmove' ⟨rfl, rfl, rfl⟩ reowned_resetClaim
  | @store call hcall _ =>
    rcases finishStore_cases hinv hcall with ⟨heq, -, -⟩ | ⟨o, d, ho, -, heq⟩ <;>
      rw [heq] at hmove' ⊢
    · exact h.enqueue hinv hcall hmove'
    · have hreowned : Reowned r.sink (r.sink.setOwner call.identity.index o) :=
        reowned_setOwner (by rw [ho]; decide) fun hpending ↦
          hpending.ne_of_owns (hinv.storing_owns hcall).2 rfl
      exact h.quiet hinv hmove' ⟨rfl, rfl, rfl⟩ (fun i hi ↦ .inl (hreowned.writing i hi))
        fun hstopping ↦ ⟨hstopping, hreowned.pending⟩
  | tryRetire | discardInFlight =>
    exact h.quiet hinv hmove' ⟨rfl, rfl, rfl⟩ (fun i hi ↦ .inl hi) fun hstopping ↦
      ⟨hstopping, fun i hi ↦ hi⟩
  | stop =>
    refine h.quiet hinv hmove' ⟨rfl, rfl, rfl⟩ (fun i hi ↦ .inl ?_) (by rintro ⟨⟩)
    rcases cancelQueued_cases { r.sink with stopping := true, closeRequested := true } i with
      ⟨-, hfree, -⟩ | ⟨howner, -⟩
    · exact absurd (hfree.symm.trans hi) (by decide)
    · exact (congrArg FileOwner.state howner).symm.trans hi
  | pump => exact h.reowned hinv hmove' (afterLoop_same pump_deliveries) reowned_pump
  | startWrite hloop => exact h.startWrite hinv (hinv.startable hloop) hmove'
  | finishWrite hloop => exact h.finishWrite hinv hloop hmove' hinv'
  | startClose =>
    exact h.reowned hinv hmove' (afterLoop_same (startClose_deliveries _)) reowned_startClose
  | finishClose =>
    exact h.reowned hinv hmove' (afterLoop_same rfl)
      ⟨rfl, rfl, rfl, rfl, fun _ ↦ id, fun _ ↦ id⟩

/-- At every moment the file is a prefix of the stored frames. -/
theorem Streamed.file (h : r.Streamed) (hinv : r.Inv) : ∃ tail,
    r.sink.file = r.delivered.flatMap (·.2) ++ tail ∧
      (tail = [] ∨ ∃ e, r.stored[r.delivered.length]? = some e ∧ tail <+: e.2) := by
  rcases hinv.phase with hb | hw
  · obtain ⟨tail, hfile, hnone, hsome⟩ := hb.file
    refine ⟨tail, hfile, ?_⟩
    cases hfailed : r.failed with
    | none => exact .inl (hnone hfailed)
    | some e => exact .inr ⟨e, h.failed e hfailed, hsome e hfailed⟩
  · obtain ⟨n, -, hfile⟩ := hw.file
    exact ⟨_, hfile, .inr ⟨_, h.writing _ hw.owner, List.take_prefix ..⟩⟩

theorem streamed_init (bufferCount maximumRecordBytes : ℕ) (faults : FileFaultPlan) :
    (machine conv bufferCount maximumRecordBytes faults).init.Streamed :=
  ⟨List.nil_prefix, by rintro _ ⟨⟩, by rintro _ ⟨⟩, by rintro _ _ _ _ _ ⟨⟩⟩

/-- In every run the file is a prefix of the stored frames, one after the other. Until the sink is
stopped or fails, a stored frame that was not delivered waits in a buffer. -/
theorem frames_in_order {bufferCount maximumRecordBytes : ℕ} {faults : FileFaultPlan}
    (h : (machine conv bufferCount maximumRecordBytes faults).Reach Disciplined r) :
    r.sink.file <+: r.stored.flatMap (·.2) ∧ (r.sink.stopping = false → r.failed = none →
      ∀ e ∈ r.stored, e ∈ r.delivered ∨ ∃ i, r.sink.Pending i ∧ r.frame i = e) := by
  obtain ⟨hinv, hstreamed⟩ : r.Inv ∧ r.Streamed :=
    h.invariant (I := fun r ↦ r.Inv ∧ r.Streamed) ⟨inv_init .., streamed_init ..⟩
      fun _ _ _ hr hok hstep ↦ ⟨hr.1.step hok hstep, hr.2.step hr.1 hok hstep⟩
  obtain ⟨rest, hrest⟩ := hstreamed.delivered
  refine ⟨?_, fun hstopping hfailed e he ↦ ?_⟩
  · obtain ⟨tail, hfile, htail⟩ := hstreamed.file hinv
    rw [hfile, ← hrest, List.flatMap_append, List.prefix_append_right_inj]
    rcases htail with rfl | ⟨e, he, hprefix⟩
    · exact List.nil_prefix
    · rw [← hrest, List.getElem?_append_right le_rfl, Nat.sub_self] at he
      obtain ⟨rest', rfl⟩ := List.head?_eq_some_iff.mp (List.head?_eq_getElem?.trans he)
      exact hprefix.trans (List.prefix_append ..)
  · obtain ⟨n, hn⟩ := List.mem_iff_getElem?.mp he
    rcases Nat.lt_or_ge n r.delivered.length with hlt | hge
    · rw [← hrest, List.getElem?_append_left hlt] at hn
      exact .inl (List.mem_of_getElem? hn)
    · exact .inr (hstreamed.pending hstopping hfailed n e hge hn)

/-- A part of the first of two stored frames is in the file. -/
theorem frames_in_order_pending : ∃ r,
    (machine .blank 2 8 {}).Reach Disciplined r ∧ r.stored.length = 2 ∧
      r.sink.file.length = 3 ∧ r.sink.file <+: r.stored.flatMap (·.2) := by
  have hrun : (machine .blank 2 8 {}).run Disciplined
      (machine .blank 2 8 {}).init
      [.opened, .tryClaimWrite, .encode 0 0 ⟨fun _ ↦ 0, 0, 0⟩, .store, .tryClaimWrite,
        .encode 0 1 ⟨fun _ ↦ 0, 0, 0⟩, .store, .wake, .loop 0, .loop 0, .executeWrite 3] =
      some _ := rfl
  have hreach := Machine.Reach.of_run .init hrun
  exact ⟨_, hreach, rfl, rfl, (frames_in_order hreach).1⟩

/-! ## Outcomes -/

/-- A slot with an outcome has its frame among the delivered ones, or there is an error. -/
structure Answered (r : FileRun) : Prop where
  delivered : ∀ i, (r.sink.deliveries i).state = .delivered →
    (r.sink.deliveries i).admissionSequence ∈ r.delivered.map (·.1)
  failed : ∀ i, (r.sink.deliveries i).state = .failed → r.sink.failureError ≠ 0

theorem Answered.quiet (h : r.Answered) (hlasting : Lasting r.sink r'.sink)
    (hdelivered : r'.delivered = r.delivered)
    (hdeliveries : ∀ i, r'.sink.deliveries i = r.sink.deliveries i ∨
      (r'.sink.deliveries i).state.outcome = none) : r'.Answered := by
  have hsame : ∀ i (o : DeliveryOutcome), (r'.sink.deliveries i).state = o.state →
      r'.sink.deliveries i = r.sink.deliveries i := by
    intro i o hi
    refine (hdeliveries i).resolve_right fun hnone ↦ ?_
    rw [DeliveryState.outcome_eq_some.mpr hi] at hnone
    cases hnone
  refine ⟨fun i hi ↦ ?_, fun i hi ↦ ?_⟩
  · have heq := hsame i .delivered hi
    rw [heq] at hi ⊢
    rw [hdelivered]
    exact h.delivered i hi
  · have heq := hsame i .failed hi
    rw [heq] at hi
    exact hlasting.failureError (h.failed i hi)

theorem update_quiet {f : ℕ → Delivery} {j : ℕ} {d : Delivery}
    (hd : d = f j ∨ d.state.outcome = none) (i : ℕ) :
    Function.update f j d i = f i ∨ (Function.update f j d i).state.outcome = none := by
  by_cases hij : i = j
  · rw [hij, Function.update_self]
    exact hd
  · exact .inl (Function.update_of_ne hij ..)

theorem Answered.finishWrite (h : r.Answered) (hinv : r.Inv)
    (hloop : r.sink.loop = .finishWrite result) :
    (r.afterLoop (r.sink.finishWrite result)).Answered := by
  have hself : ∀ (o : FileOwner) (outcome : DeliveryState),
      (r.sink.afterWrite o outcome).deliveries r.sink.writingSlot =
        { r.sink.deliveries r.sink.writingSlot with state := outcome } := fun o outcome ↦
    Function.update_self ..
  rcases hinv.afterLoop_finishWrite hloop with ⟨o, e, -, he, heq⟩ | heq | ⟨-, o, -, heq⟩ <;>
    rw [heq]
  · refine ⟨fun i hi ↦ ?_, fun _ _ ↦ he⟩
    -- neither a cancelled delivery nor the failed one
    rcases cancelQueued_cases { r.sink.afterWrite o .failed with failureError := e } i with
      ⟨-, -, hdelivery⟩ | ⟨-, hdelivery⟩
    · have hstate : DeliveryState.cancelled = .delivered :=
        (congrArg Delivery.state hdelivery).symm.trans hi
      cases hstate
    · replace hdelivery : _ = (r.sink.afterWrite o .failed).deliveries i := hdelivery
      dsimp only at hi ⊢
      rw [hdelivery] at hi ⊢
      by_cases hne : i = r.sink.writingSlot
      · rw [hne, hself] at hi
        cases hi
      · rw [afterWrite_deliveries_of_ne hne] at hi ⊢
        exact h.delivered i hi
  · exact ⟨h.delivered, h.failed⟩
  · refine ⟨fun i hi ↦ ?_, fun i hi ↦ ?_⟩ <;> dsimp only at hi ⊢ <;>
      by_cases hne : i = r.sink.writingSlot
    · rw [List.map_append, List.mem_append, hne, hself]
      exact .inr (List.mem_singleton.mpr rfl)
    · rw [afterWrite_deliveries_of_ne hne] at hi ⊢
      rw [List.map_append, List.mem_append]
      exact .inl (h.delivered i hi)
    · rw [hne, hself] at hi
      cases hi
    · rw [afterWrite_deliveries_of_ne hne] at hi
      exact h.failed i hi

theorem Answered.step (h : r.Answered) (hinv : r.Inv) (hmove : Move conv r a r') :
    r'.Answered := by
  have hlasting := hmove.lasting
  cases hmove with
  | tryClaimWrite =>
    exact h.quiet hlasting rfl fun i ↦ .inl (congrFun reowned_tryClaimWrite.deliveries i)
  | resetClaim => exact h.quiet hlasting rfl fun i ↦ .inl (congrFun reowned_resetClaim.deliveries i)
  | store hcall =>
    rcases finishStore_cases hinv hcall with ⟨heq, -, -⟩ | ⟨o, d, -, hd, heq⟩ <;>
      rw [heq] at hlasting ⊢
    · exact h.quiet hlasting rfl (update_quiet (.inr rfl))
    · refine h.quiet hlasting rfl (update_quiet (hd.imp_right fun hcancelled ↦ ?_))
      rw [hcancelled.1]
      rfl
  | @tryRetire sequence =>
    refine h.quiet hlasting rfl fun i ↦ ?_
    rcases tryRetire_cases r.sink.deliveries r.sink.bufferCount sequence with
      heq | ⟨j, -, o, -, -, heq⟩
    · exact .inl (congrFun (congrArg Prod.fst heq) i)
    · have hupdate : (r.setSink (r.sink.tryRetire sequence).1).sink.deliveries = _ :=
        congrArg Prod.fst heq
      rw [hupdate]
      exact update_quiet (.inr rfl) i
  | stop =>
    refine h.quiet hlasting rfl fun i ↦ ?_
    rcases cancelQueued_cases { r.sink with stopping := true, closeRequested := true } i with
      ⟨-, -, hdelivery⟩ | ⟨-, hdelivery⟩
    · exact .inr (congrArg (·.state.outcome) hdelivery)
    · exact .inl hdelivery
  | discardInFlight =>
    refine h.quiet hlasting rfl fun i ↦ ?_
    change Ulog.discardInFlight _ _ i = _ ∨ (Ulog.discardInFlight _ _ i).state.outcome = none
    rw [Ulog.discardInFlight]
    split
    · exact .inr rfl
    · exact .inl rfl
  | pump =>
    exact h.quiet hlasting (afterLoop_same pump_deliveries).2.1 fun i ↦
      .inl (congrFun pump_deliveries i)
  | startWrite =>
    exact h.quiet hlasting (afterLoop_same (startWrite_deliveries _)).2.1 fun i ↦
      .inl (congrFun (startWrite_deliveries _) i)
  | finishWrite hloop => exact h.finishWrite hinv hloop
  | startClose =>
    exact h.quiet hlasting (afterLoop_same (startClose_deliveries _)).2.1 fun i ↦
      .inl (congrFun (startClose_deliveries _) i)
  | finishClose => exact h.quiet hlasting (afterLoop_same rfl).2.1 fun _ ↦ .inl rfl
  | _ => exact ⟨h.delivered, h.failed⟩

/-! ## Opening and closing -/

/-- The file stays opened until it is closed, and it is closed once. -/
theorem Inv.wasOpened_step (hinv : r.Inv) (hclose : r.sink.CloseOk)
    (h : r.sink.closed = true → r.sink.closing = false) (hmove : Move conv r a r') :
    (r.sink.WasOpened → r'.sink.WasOpened) ∧
      (r'.sink.closed = true → r'.sink.closing = false) := by
  have hkeep : FileKept r.sink r'.sink → (r.sink.WasOpened → r'.sink.WasOpened) ∧
      (r'.sink.closed = true → r'.sink.closing = false) := by
    intro hkept
    rw [hkept.closed, hkept.closing]
    exact ⟨fun hopened ↦ hopened.kept hkept, h⟩
  cases hmove with
  | opened => exact ⟨fun _ ↦ .inl rfl, h⟩
  | tryClaimWrite => exact hkeep tryClaimWrite_kept
  | resetClaim => exact hkeep resetClaim_kept
  | store hcall => exact hkeep (hinv.finishStore_kept hcall).1
  | pump => exact hkeep hclose.pump.1
  | startWrite => exact hkeep startWrite_kept
  | finishWrite hloop => exact hkeep (hinv.finishWrite_kept hloop).1
  | @startClose submit hloop =>
    obtain ⟨-, hclosed, hasync, -⟩ := startClose_started r.sink submit
    refine ⟨Or.imp hasync.trans hclosed.trans, fun hclosed' ↦ ?_⟩
    cases hclosed'.symm.trans (hclosed.trans (hclose.start hloop).2.1)
  | finishClose => exact ⟨fun _ ↦ .inr rfl, fun _ ↦ rfl⟩
  | _ => exact ⟨id, h⟩

/-- Claims are handed out after the file was opened, and it is closed once. -/
structure Opened (r : FileRun) : Prop where
  close : r.sink.CloseOk
  finished : r.sink.closed = true → r.sink.closing = false
  claimed : r.claims ≠ [] ∨ r.storing ≠ none → r.sink.WasOpened

theorem Opened.step (h : r.Opened) (hinv : r.Inv) (hmove : Move conv r a r') : r'.Opened := by
  obtain ⟨hopened, hfinished⟩ := hinv.wasOpened_step h.close h.finished hmove
  refine ⟨(hinv.closeStep h.close hmove).1, hfinished, fun hclaimed ↦ ?_⟩
  by_cases hbefore : r.claims ≠ [] ∨ r.storing ≠ none
  · exact hopened (h.claimed hbefore)
  · simp only [ne_eq, not_or, not_not] at hbefore
    cases hmove with
    | tryClaimWrite =>
      refine WasOpened.kept (.inl ?_) tryClaimWrite_kept
      by_contra hasync
      rw [hbefore.1, hbefore.2, FileSink.tryClaimWrite, if_pos (by simp [hasync])] at hclaimed
      simp at hclaimed
    | resetClaim hclaim | encode hclaim =>
      rw [hbefore.1] at hclaim
      cases hclaim
    | store hcall =>
      rw [hbefore.2] at hcall
      cases hcall
    | _ => simp [hbefore, setSink, afterLoop] at hclaimed

theorem Opened.closeOutcome_step (h : r.Opened) (hinv : r.Inv) {error : ℤ}
    (hclosed : r.sink.closeOutcome = some error) (hmove : Move conv r a r') :
    r'.sink.closeOutcome = some error := by
  obtain ⟨hclosed, heq⟩ := Option.ite_none_right_eq_some.mp hclosed
  have hresult : r'.sink.closeResult = r.sink.closeResult := by
    cases hmove with
    | tryClaimWrite =>
      change r.sink.tryClaimWrite.1.closeResult = _
      rw [FileSink.tryClaimWrite]
      split
      · rfl
      · split <;> rfl
    | @resetClaim _ identity =>
      change (r.sink.resetClaim identity).closeResult = _
      rw [FileSink.resetClaim]
      split <;> rfl
    | store hcall =>
      rcases finishStore_cases hinv hcall with ⟨heq, -, -⟩ | ⟨o, d, -, -, heq⟩ <;> rw [heq] <;> rfl
    | pump =>
      change r.sink.pump.closeResult = _
      rw [FileSink.pump, hclosed, Bool.or_true, if_pos rfl]
    | startWrite hloop =>
      exact absurd (hclosed.symm.trans (hinv.startable hloop).closed) (by decide)
    | finishWrite hloop =>
      exact absurd (hclosed.symm.trans (hinv.finishing hloop).closed) (by decide)
    | startClose hloop =>
      exact absurd (hclosed.symm.trans (h.close.start hloop).2.1) (by decide)
    | finishClose hloop =>
      exact absurd ((h.close.finish _ hloop).symm.trans (h.finished hclosed)) (by decide)
    | _ => rfl
  rw [FileSink.closeOutcome, (hinv.events_closed h.close hclosed hmove).2, if_pos rfl, hresult, heq]

theorem finishStore_storing (r : FileRun) (call : StoreCall) :
    (r.finishStore call).storing = none := by
  rw [FileRun.finishStore]
  dsimp only
  split
  · rfl
  · split <;> rfl

/-- A complete frame is stored unless the sink refuses it. -/
theorem Opened.finishStore (h : r.Opened) (hinv : r.Inv)
    (hcall : r.storing = some call) (hcomplete : call.result.complete = true) :
    r.sink.Refusing ∧ (r.finishStore call).stored = r.stored ∨
      ¬r.sink.Refusing ∧
        (r.finishStore call).stored = r.stored ++ [(call.sequence, call.frame)] := by
  have howns := (hinv.storing_owns hcall).2
  have hopened := h.claimed (.inr (by rw [hcall]; simp))
  cases hcancelled : r.sink.stopping || r.sink.failureError != 0 || !r.sink.asyncOpen with
  | true =>
    refine .inl ⟨?_, ?_⟩
    · simp only [Bool.or_eq_true, bne_iff_ne, Bool.not_eq_true'] at hcancelled
      rcases hcancelled with (hstopping | hfailure) | hasync
      · exact .inl hstopping
      · exact .inr (.inl hfailure)
      · exact .inr (.inr (hopened.resolve_left (by rw [hasync]; decide)))
    · simp [FileRun.finishStore, hcomplete, store, howns, hcancelled, setDelivery, setOwner,
        setSink]
  | false =>
    refine .inr ⟨?_, ?_⟩
    · simp only [Bool.or_eq_false_iff, bne_eq_false_iff_eq, Bool.not_eq_false'] at hcancelled
      obtain ⟨⟨hstopping, hfailure⟩, hasync⟩ := hcancelled
      rintro (hstopping' | hfailure' | hclosed)
      · exact absurd (hstopping.symm.trans hstopping') (by decide)
      · exact hfailure' hfailure
      · exact absurd (hasync.symm.trans (h.close.closed hclosed)) (by decide)
    · simp [FileRun.finishStore, hcomplete, store, howns, hcancelled, setDelivery, setOwner]

theorem opened_init (bufferCount maximumRecordBytes : ℕ) (faults : FileFaultPlan) :
    (machine conv bufferCount maximumRecordBytes faults).init.Opened := by
  refine ⟨⟨by rintro ⟨⟩, by rintro ⟨⟩, by rintro ⟨⟩, by rintro _ ⟨⟩⟩, by rintro ⟨⟩, ?_⟩
  rintro (h | h) <;> exact absurd rfl h

end FileRun

end Ulog
