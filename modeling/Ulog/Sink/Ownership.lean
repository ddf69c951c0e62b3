import Ulog.Sink.WholeFrames

/-!
# Ownership of file buffers

A buffer has one owner at a time: the worker while it is reserved, the loop thread while it is
queued or being written, and after that the worker again, through the outcome of its delivery.
This file follows the frames of a run by their sequences. `StoreRaw` brings a frame to life, with a
sequence above all earlier ones; it dies when its outcome is retired, when it is cancelled, or when
in-flight deliveries are discarded. No two living frames have the same sequence and no living frame
has the sequence of one that was retired or cancelled, so that no sequence is retired twice.

The history of a run also has its events: the claims handed out, the writes and closes started, and
the signals sent to the loop thread.
-/

namespace Ulog

variable {c : FileSlotIdentity} {call : StoreCall} {submit : ℤ} {index j : ℕ}

inductive FileEvent where
  | claim (identity : FileSlotIdentity)
  | write (index : ℕ)
  | close
  | wake
  deriving DecidableEq, Repr

namespace FileSink

/-- `SendWakeLocked`. -/
def sendWake (s : FileSink) : List FileEvent := if s.asyncOpen then [.wake] else []

/-- The sequences of the frames that a step cancels. -/
def cancelledBy (s s' : FileSink) : List ℕ :=
  ((List.range s.bufferCount).filter fun i ↦
    (s.deliveries i).state != .cancelled && (s'.deliveries i).state == .cancelled).map
    fun i ↦ (s'.deliveries i).admissionSequence

end FileSink

/-- The events of a step. -/
def FileRun.events (r : FileRun) : FileAction → List FileEvent
  | .opened => if r.sink.closeRequested then { r.sink with asyncOpen := true }.sendWake else []
  | .tryClaimWrite => (r.sink.tryClaimWrite.2.map .claim).toList
  | .store =>
    match r.storing with
    | none => []
    | some call =>
      if ((r.finishStore call).sink.owners call.identity.index).state = .queued then
        r.sink.sendWake
      else []
  | .requestClose => r.sink.sendWake
  | .stop => r.sink.sendWake
  | .loop _ =>
    match r.sink.loop with
    | .startWrite index => [.write index]
    | .startClose => [.close]
    | _ => []
  | _ => []

/-- What `TryRetire` returns, with the sequence it was asked for. -/
def FileRun.retirement (r : FileRun) : FileAction → Option (ℕ × DeliveryRetirement)
  | .tryRetire sequence => (r.sink.tryRetire sequence).2.map (sequence, ·)
  | _ => none

/-- A run with its events, the outcomes that were retired, and the sequences that were
cancelled. -/
structure FileHistory where
  run : FileRun
  events : List FileEvent := []
  retired : List (ℕ × DeliveryRetirement) := []
  cancelled : List ℕ := []

namespace FileHistory

def step (conv : Charconv) (h : FileHistory) (a : FileAction) : Option FileHistory :=
  (h.run.step conv a).map fun run ↦
    { run := run
      events := h.events ++ h.run.events a
      retired := h.retired ++ (h.run.retirement a).toList
      cancelled := h.cancelled ++ h.run.sink.cancelledBy run.sink }

def machine (conv : Charconv) (bufferCount maximumRecordBytes : ℕ) (faults : FileFaultPlan) :
    Machine FileHistory FileAction where
  init := { run := (FileRun.machine conv bufferCount maximumRecordBytes faults).init }
  step := step conv

def Disciplined (h : FileHistory) (a : FileAction) : Prop := h.run.Disciplined a

instance (h : FileHistory) (a : FileAction) : Decidable (h.Disciplined a) :=
  inferInstanceAs (Decidable (h.run.Disciplined a))

end FileHistory

/-! ## Living frames -/

namespace FileSink

/-- The frame in the slot waits for its outcome, or has one that was not retired. -/
def Live (s : FileSink) (i : ℕ) : Prop :=
  (s.owners i).state = .queued ∨ (s.owners i).state = .writing ∨
    (s.deliveries i).state = .inFlight ∨ (s.deliveries i).state = .delivered ∨
    (s.deliveries i).state = .failed

/-- What a step that stores no frame does to a slot. -/
structure FrameStep (s s' : FileSink) (i : ℕ) : Prop where
  sequence : (s'.deliveries i).admissionSequence = (s.deliveries i).admissionSequence
  encodedBytes : (s'.deliveries i).encodedBytes = (s.deliveries i).encodedBytes
  live : s'.Live i → s.Live i
  cancelled : (s'.deliveries i).state = .cancelled →
    (s.deliveries i).state = .cancelled ∨ s.Live i ∧ ¬s'.Live i

variable {s s' : FileSink} {i : ℕ}

theorem Live.of_eq (howner : s'.owners i = s.owners i)
    (hdelivery : s'.deliveries i = s.deliveries i) (h : s'.Live i) : s.Live i := by
  rwa [Live, howner, hdelivery] at h

theorem FrameStep.of_eq (howner : s'.owners i = s.owners i)
    (hdelivery : s'.deliveries i = s.deliveries i) : FrameStep s s' i where
  sequence := by rw [hdelivery]
  encodedBytes := by rw [hdelivery]
  live := .of_eq howner hdelivery
  cancelled h := .inl (by rwa [hdelivery] at h)

theorem frameStep_setOwner {o : FileOwner} (h : o.state = .free ∨ o.state = .reserved) :
    FrameStep s (s.setOwner j o) i where
  sequence := rfl
  encodedBytes := rfl
  live hlive := by
    by_cases hij : i = j
    · subst hij
      have howner : (s.setOwner i o).owners i = o := Function.update_self ..
      rw [Live, howner] at hlive
      rcases h with h | h
      all_goals
        rw [h] at hlive
        simp only [reduceCtorEq, false_or] at hlive
        exact .inr (.inr hlive)
    · have howner : (s.setOwner j o).owners i = s.owners i := Function.update_of_ne hij ..
      exact Live.of_eq howner rfl hlive
  cancelled h := .inl h

theorem frameStep_tryClaimWrite : FrameStep s s.tryClaimWrite.1 i := by
  rw [tryClaimWrite]
  split
  · exact .of_eq rfl rfl
  · split
    · exact .of_eq rfl rfl
    · exact frameStep_setOwner (.inr rfl)

theorem frameStep_resetClaim : FrameStep s (s.resetClaim c) i := by
  rw [resetClaim]
  split
  · exact frameStep_setOwner (.inl rfl)
  · exact .of_eq rfl rfl

/-- Retiring a delivery takes its frame out of the living ones, unless its buffer is pending. -/
theorem frameStep_retired (howner : s'.owners i = s.owners i)
    (hdelivery : s'.deliveries i = { s.deliveries i with state := .retired }) :
    FrameStep s s' i where
  sequence := by rw [hdelivery]
  encodedBytes := by rw [hdelivery]
  live h := by
    rw [Live, howner, hdelivery] at h
    simp only [reduceCtorEq, or_false] at h
    exact h.elim .inl (.inr ∘ .inl)
  cancelled h := by
    rw [hdelivery] at h
    cases h

theorem frameStep_discardInFlight : FrameStep s s.discardInFlight i := by
  by_cases hi : i < s.bufferCount
  · exact frameStep_retired rfl (if_pos hi)
  · exact .of_eq rfl (if_neg hi)

theorem frameStep_tryRetire {sequence : ℕ} : FrameStep s (s.tryRetire sequence).1 i := by
  rw [tryRetire, Ulog.tryRetire]
  cases findCompleted s.deliveries s.bufferCount sequence with
  | none => exact .of_eq rfl rfl
  | some j =>
    by_cases hij : i = j
    · subst hij
      exact frameStep_retired rfl (Function.update_self ..)
    · exact .of_eq rfl (Function.update_of_ne hij ..)

theorem frameStep_cancelQueued : FrameStep s s.cancelQueued i := by
  by_cases hi : i < s.bufferCount ∧ (s.owners i).state = .queued
  · have howner : s.cancelQueued.owners i = { s.owners i with state := .free } := by
      simp [cancelQueued, hi.1, hi.2]
    have hdelivery :
        s.cancelQueued.deliveries i = { s.deliveries i with state := .cancelled } := by
      simp [cancelQueued, hi.1, hi.2]
    have hdead : ¬s.cancelQueued.Live i := by simp [Live, howner, hdelivery]
    exact ⟨by rw [hdelivery], by rw [hdelivery], fun h ↦ absurd h hdead,
      fun _ ↦ .inr ⟨.inl hi.2, hdead⟩⟩
  · have hi' : ¬(decide (i < s.bufferCount) && (s.owners i).state == .queued) = true := by
      simpa using hi
    exact .of_eq (if_neg hi') (if_neg hi')

theorem FrameStep.trans {t : FileSink} (h : FrameStep s s' i) (h' : FrameStep s' t i) :
    FrameStep s t i where
  sequence := h'.sequence.trans h.sequence
  encodedBytes := h'.encodedBytes.trans h.encodedBytes
  live hlive := h.live (h'.live hlive)
  cancelled hcancelled := by
    rcases h'.cancelled hcancelled with hbefore | ⟨hlive, hdead⟩
    · rcases h.cancelled hbefore with hbefore | ⟨hlive, hdead⟩
      · exact .inl hbefore
      · exact .inr ⟨hlive, fun hlive' ↦ hdead (h'.live hlive')⟩
    · exact .inr ⟨h.live hlive, hdead⟩

theorem frameStep_startWrite
    (hpending : (s.owners index).state = .queued ∨ (s.owners index).state = .writing) :
    FrameStep s (s.startWrite index submit) i := by
  have howner : i ≠ index → (s.startWrite index submit).owners i = s.owners i := fun hi ↦ by
    rcases startWrite_cases s index submit with ⟨_, _, heq⟩ | ⟨_, _, heq⟩ <;> rw [heq] <;>
      exact Function.update_of_ne hi ..
  have hdelivery := congrFun (startWrite_deliveries (s := s) (i := index) submit) i
  by_cases hi : i = index
  · subst hi
    exact ⟨by rw [hdelivery], by rw [hdelivery],
      fun _ ↦ hpending.elim .inl (.inr ∘ .inl), fun h ↦ .inl (by rwa [hdelivery] at h)⟩
  · exact .of_eq (howner hi) hdelivery

theorem frameStep_afterWrite {o : FileOwner} {outcome : DeliveryState}
    (howner : (s.owners s.writingSlot).state = .writing) (houtcome : outcome ≠ .cancelled) :
    FrameStep s (s.afterWrite o outcome) i := by
  by_cases hi : i = s.writingSlot
  · subst hi
    have hdelivery : (s.afterWrite o outcome).deliveries s.writingSlot =
        { s.deliveries s.writingSlot with state := outcome } := Function.update_self ..
    refine ⟨by rw [hdelivery], by rw [hdelivery], fun _ ↦ .inr (.inl howner), fun h ↦ ?_⟩
    rw [hdelivery] at h
    exact absurd h houtcome
  · exact .of_eq (afterWrite_owners_of_ne hi) (afterWrite_deliveries_of_ne hi)

theorem frameStep_finishWrite {result : ℤ}
    (howner : (s.owners s.writingSlot).state = .writing)
    (hle : (s.owners s.writingSlot).writtenBytes + result.toNat ≤
      (s.deliveries s.writingSlot).encodedBytes) : FrameStep s (s.finishWrite result) i := by
  rcases finishWrite_cases hle with ⟨o, e, -, -, heq⟩ | heq | ⟨-, o, -, heq⟩ <;> rw [heq]
  · have hfailed : FrameStep s (s.afterWrite o .failed) i := frameStep_afterWrite howner (by decide)
    have hmarked : FrameStep s { s.afterWrite o .failed with failureError := e } i :=
      hfailed.trans (.of_eq rfl rfl)
    exact (hmarked.trans frameStep_cancelQueued).trans (.of_eq rfl rfl)
  · by_cases hi : i = s.writingSlot
    · subst hi
      exact ⟨rfl, rfl, fun _ ↦ .inr (.inl howner), .inl⟩
    · exact .of_eq (Function.update_of_ne hi ..) rfl
  · have hdelivered : FrameStep s (s.afterWrite o .delivered) i :=
      frameStep_afterWrite howner (by decide)
    exact hdelivered.trans (.of_eq rfl rfl)

end FileSink

namespace FileRun

open FileSink

variable {r r' : FileRun} {conv : Charconv} {a : FileAction}

theorem Inv.frameStep (h : r.Inv) (hmove : Move conv r a r') (hstore : a ≠ .store) (i : ℕ) :
    FrameStep r.sink r'.sink i := by
  cases hmove with
  | opened _ _ | encode _ _ | requestClose _ | wake _ | executeWrite _ _ | writeComplete _ _
  | closeComplete _ _ | finishClose _ => exact .of_eq rfl rfl
  | tryClaimWrite _ => exact frameStep_tryClaimWrite
  | resetClaim _ _ => exact frameStep_resetClaim
  | store _ _ => exact absurd rfl hstore
  | tryRetire _ => exact frameStep_tryRetire
  | stop _ =>
    have hmarked : FrameStep r.sink { r.sink with stopping := true, closeRequested := true } i :=
      .of_eq rfl rfl
    exact hmarked.trans frameStep_cancelQueued
  | discardInFlight _ => exact frameStep_discardInFlight
  | pump _ =>
    refine .of_eq (congrFun (?_ : r.sink.pump.owners = _) i) (congrFun (pump_deliveries ..) i)
    rw [FileSink.pump]
    split
    · rfl
    · dsimp only
      split <;> rfl
  | startWrite hloop => exact frameStep_startWrite (h.startable hloop).pending
  | finishWrite hloop =>
    have hf := h.finishing hloop
    exact frameStep_finishWrite hf.owner hf.bytes
  | @startClose submit _ =>
    refine .of_eq (congrFun (?_ : (r.sink.startClose submit).owners = _) i)
      (congrFun (startClose_deliveries ..) i)
    rw [FileSink.startClose]
    dsimp only
    split
    · rfl
    · split <;> rfl

/-- Only an encoding writes to buffers, and only to one that the worker has reserved. -/
theorem Inv.buffer_eq (h : r.Inv) (hmove : Move conv r a r') {i : ℕ}
    (hi : (r.sink.owners i).state ≠ .reserved) : r'.sink.buffers i = r.sink.buffers i := by
  cases hmove with
  | opened _ _ | requestClose _ | stop _ | discardInFlight _ | tryRetire _ | wake _
  | executeWrite _ _ | writeComplete _ _ | closeComplete _ _ | finishClose _ => rfl
  | tryClaimWrite _ =>
    change r.sink.tryClaimWrite.1.buffers i = _
    rw [FileSink.tryClaimWrite]
    split
    · rfl
    · split <;> rfl
  | @resetClaim _ identity _ _ =>
    change (r.sink.resetClaim identity).buffers i = _
    rw [FileSink.resetClaim]
    split <;> rfl
  | @encode _ _ _ identity hclaim _ =>
    have howns := (h.claims_eraseIdx hclaim).owns identity List.mem_cons_self
    refine Function.update_of_ne ?_ ..
    rintro rfl
    exact hi (owns_iff.mp howns.2).1
  | store hcall _ =>
    rcases finishStore_cases h hcall with ⟨heq, -, -⟩ | ⟨o, d, -, -, heq⟩ <;> rw [heq] <;> rfl
  | pump _ =>
    change r.sink.pump.buffers i = _
    rw [FileSink.pump]
    split
    · rfl
    · dsimp only
      split <;> rfl
  | @startWrite submit index _ =>
    change (r.sink.startWrite index submit).buffers i = _
    rcases startWrite_cases r.sink index submit with ⟨_, _, heq⟩ | ⟨_, _, heq⟩ <;> rw [heq] <;> rfl
  | finishWrite hloop =>
    change (r.sink.finishWrite _).buffers i = _
    rcases finishWrite_cases (h.finishing hloop).bytes with
      ⟨o, e, -, -, heq⟩ | heq | ⟨-, o, -, heq⟩ <;> rw [heq] <;> rfl
  | @startClose submit _ =>
    change (r.sink.startClose submit).buffers i = _
    rw [FileSink.startClose]
    dsimp only
    split
    · rfl
    · split <;> rfl

/-- A slot that holds a frame: it is pending, or its delivery was not retired. -/
def Occupied (r : FileRun) (i : ℕ) : Prop :=
  (r.sink.deliveries i).state ≠ .retired ∨ (r.sink.owners i).state = .queued ∨
    (r.sink.owners i).state = .writing

/-- The bytes and the delivery of an occupied slot do not change. -/
theorem Inv.fixed (h : r.Inv) (hmove : Move conv r a r') {i : ℕ} (hi : r.Occupied i) :
    r'.sink.buffers i = r.sink.buffers i ∧
      (r'.sink.deliveries i).encodedBytes = (r.sink.deliveries i).encodedBytes ∧
      (r'.sink.deliveries i).admissionSequence = (r.sink.deliveries i).admissionSequence := by
  have hreserved : (r.sink.owners i).state ≠ .reserved := by
    intro hreserved
    rcases hi with hretired | hqueued | hwriting
    · exact hretired (h.reserved i hreserved)
    · exact absurd (hreserved.symm.trans hqueued) (by decide)
    · exact absurd (hreserved.symm.trans hwriting) (by decide)
  refine ⟨h.buffer_eq hmove hreserved, ?_⟩
  by_cases hstore : a = .store
  · subst hstore
    cases hmove with
    | @store call hcall _ =>
      have hheld := h.claims
      rw [held, hcall] at hheld
      have howns := (owns_iff.mp (hheld.owns call.identity List.mem_cons_self).2).1
      have hne : i ≠ call.identity.index := by
        rintro rfl
        exact hreserved howns
      have hdelivery : (r.finishStore call).sink.deliveries i = r.sink.deliveries i := by
        rcases finishStore_cases h hcall with ⟨heq, -, -⟩ | ⟨o, d, -, -, heq⟩ <;> rw [heq]
        · exact enqueue_deliveries_of_ne hne
        · exact Function.update_of_ne hne ..
      rw [hdelivery]
      exact ⟨rfl, rfl⟩
  · have hslot := h.frameStep hmove hstore i
    exact ⟨hslot.encodedBytes, hslot.sequence⟩

/-! ## Sequences -/

/-- A sequence that was given to `StoreRaw`, below that of a call that has not finished. -/
structure Issued (r : FileRun) (q : ℕ) : Prop where
  last : ∃ last ∈ r.lastSequence, q ≤ last
  storing : ∀ call ∈ r.storing, q < call.sequence

end FileRun

namespace FileHistory

open FileSink FileRun

/-- The sequence of the frame in a slot. -/
abbrev sequence (h : FileHistory) (i : ℕ) : ℕ := (h.run.sink.deliveries i).admissionSequence

/-- The sequences that were retired. -/
def retiredSequences (h : FileHistory) : List ℕ := h.retired.map (·.1)

/-- Where the sequences of a run are. -/
structure Accounts (h : FileHistory) : Prop where
  distinct : ∀ i j, h.run.sink.Live i → h.run.sink.Live j → h.sequence i = h.sequence j → i = j
  notRetired : ∀ i, h.run.sink.Live i → h.sequence i ∉ h.retiredSequences
  notCancelled : ∀ i, h.run.sink.Live i → h.sequence i ∉ h.cancelled
  live : ∀ i, h.run.sink.Live i → h.run.Issued (h.sequence i)
  retired : ∀ q ∈ h.retiredSequences, h.run.Issued q
  cancelled : ∀ q ∈ h.cancelled, h.run.Issued q
  once : h.retiredSequences.Nodup
  apart : ∀ q ∈ h.retiredSequences, q ∉ h.cancelled

variable {h : FileHistory} {r' : FileRun} {events : List FileEvent}

theorem mem_cancelledBy {s s' : FileSink} {q : ℕ} : q ∈ s.cancelledBy s' ↔
    ∃ i < s.bufferCount, (s.deliveries i).state ≠ .cancelled ∧
      (s'.deliveries i).state = .cancelled ∧ (s'.deliveries i).admissionSequence = q := by
  simp [cancelledBy, and_assoc]

theorem Accounts.quiet (ha : h.Accounts) (hslot : ∀ i, FrameStep h.run.sink r'.sink i)
    (hissued : ∀ q, h.run.Issued q → r'.Issued q) :
    Accounts ⟨r', events, h.retired, h.cancelled ++ h.run.sink.cancelledBy r'.sink⟩ := by
  have hlive : ∀ i, r'.sink.Live i → h.run.sink.Live i := fun i ↦ (hslot i).live
  -- a frame that is cancelled now was alive, and is not any more
  have hnew : ∀ q ∈ h.run.sink.cancelledBy r'.sink,
      ∃ j, h.run.sink.Live j ∧ ¬r'.sink.Live j ∧ h.sequence j = q := by
    intro q hq
    obtain ⟨j, -, hbefore, hafter, rfl⟩ := mem_cancelledBy.mp hq
    obtain ⟨hj, hdead⟩ := ((hslot j).cancelled hafter).resolve_left hbefore
    exact ⟨j, hj, hdead, (hslot j).sequence.symm⟩
  refine ⟨fun i j hi hj heq ↦ ?_, fun i hi ↦ ?_, fun i hi hmem ↦ ?_, fun i hi ↦ ?_,
    fun q hq ↦ hissued q (ha.retired q hq), fun q hq ↦ ?_, ha.once, fun q hq hmem ↦ ?_⟩
  · refine ha.distinct i j (hlive i hi) (hlive j hj) ?_
    rw [sequence, sequence, ← (hslot i).sequence, ← (hslot j).sequence]
    exact heq
  · rw [sequence, (hslot i).sequence]
    exact ha.notRetired i (hlive i hi)
  · rw [sequence, (hslot i).sequence] at hmem
    rcases List.mem_append.mp hmem with hmem | hmem
    · exact ha.notCancelled i (hlive i hi) hmem
    · obtain ⟨j, hj, hdead, heq⟩ := hnew _ hmem
      exact hdead (ha.distinct j i hj (hlive i hi) heq ▸ hi)
  · rw [sequence, (hslot i).sequence]
    exact hissued _ (ha.live i (hlive i hi))
  · rcases List.mem_append.mp hq with hq | hq
    · exact hissued q (ha.cancelled q hq)
    · obtain ⟨j, hj, -, rfl⟩ := hnew q hq
      exact hissued _ (ha.live j hj)
  · rcases List.mem_append.mp hmem with hmem | hmem
    · exact ha.apart q hq hmem
    · obtain ⟨j, hj, -, rfl⟩ := hnew q hmem
      exact ha.notRetired j hj hq

theorem Accounts.retire (ha : h.Accounts) (hslot : ∀ i, FrameStep h.run.sink r'.sink i)
    (hissued : ∀ q, h.run.Issued q → r'.Issued q) {i : ℕ} (hi : h.run.sink.Live i)
    (hdead : ¬r'.sink.Live i) (hcancelled : h.run.sink.cancelledBy r'.sink = [])
    (retirement : DeliveryRetirement) :
    Accounts ⟨r', events, h.retired ++ [(h.sequence i, retirement)],
      h.cancelled ++ h.run.sink.cancelledBy r'.sink⟩ := by
  have hquiet : Accounts ⟨r', events, h.retired,
      h.cancelled ++ h.run.sink.cancelledBy r'.sink⟩ := ha.quiet hslot hissued
  have hretired : retiredSequences ⟨r', events, h.retired ++ [(h.sequence i, retirement)],
      h.cancelled ++ h.run.sink.cancelledBy r'.sink⟩ = h.retiredSequences ++ [h.sequence i] :=
    List.map_append
  refine ⟨hquiet.distinct, fun j hj hmem ↦ ?_, hquiet.notCancelled, hquiet.live, fun q hq ↦ ?_,
    hquiet.cancelled, ?_, fun q hq hmem ↦ ?_⟩
  · rw [hretired] at hmem
    rcases List.mem_append.mp hmem with hmem | hmem
    · exact hquiet.notRetired j hj hmem
    · rw [List.mem_singleton, sequence, (hslot j).sequence] at hmem
      exact hdead (ha.distinct j i ((hslot j).live hj) hi hmem ▸ hj)
  · rw [hretired] at hq
    rcases List.mem_append.mp hq with hq | hq
    · exact hquiet.retired q hq
    · rw [List.mem_singleton.mp hq]
      exact hissued _ (ha.live i hi)
  · rw [hretired]
    refine List.nodup_append.mpr ⟨ha.once, List.nodup_singleton _, fun q hq q' hq' heq ↦ ?_⟩
    rw [heq, List.mem_singleton.mp hq'] at hq
    exact ha.notRetired i hi hq
  · rw [hretired] at hq
    rw [hcancelled, List.append_nil] at hmem
    rcases List.mem_append.mp hq with hq | hq
    · exact ha.apart q hq hmem
    · rw [List.mem_singleton.mp hq] at hmem
      exact ha.notCancelled i hi hmem

/-- `StoreRaw` ends: the slot it stores into holds the only frame that can come to life or be
cancelled, with the sequence of the call. -/
theorem Accounts.store (ha : h.Accounts) (hcall : h.run.storing = some call)
    (hlast : r'.lastSequence = some call.sequence) (hstoring : r'.storing = none)
    (hothers : ∀ i, i ≠ j → r'.sink.owners i = h.run.sink.owners i ∧
      r'.sink.deliveries i = h.run.sink.deliveries i)
    (hlive : r'.sink.Live j → (r'.sink.deliveries j).admissionSequence = call.sequence ∧
      (r'.sink.deliveries j).state ≠ .cancelled)
    (hcancelled : (r'.sink.deliveries j).state = .cancelled →
      (h.run.sink.deliveries j).state ≠ .cancelled →
      (r'.sink.deliveries j).admissionSequence = call.sequence) :
    Accounts ⟨r', events, h.retired, h.cancelled ++ h.run.sink.cancelledBy r'.sink⟩ := by
  have hold : ∀ i, i ≠ j → r'.sink.Live i → h.run.sink.Live i := fun i hi ↦
    Live.of_eq (hothers i hi).1 (hothers i hi).2
  have hsequence : ∀ i, i ≠ j → (r'.sink.deliveries i).admissionSequence = h.sequence i :=
    fun i hi ↦ by rw [(hothers i hi).2]
  have hbelow : ∀ q, h.run.Issued q → q < call.sequence := fun q hq ↦ hq.storing call hcall
  have hissued : ∀ q ≤ call.sequence, r'.Issued q := fun q hq ↦
    ⟨⟨call.sequence, hlast, hq⟩, by simp [hstoring]⟩
  have hnew : ∀ q ∈ h.run.sink.cancelledBy r'.sink,
      q = call.sequence ∧ (r'.sink.deliveries j).state = .cancelled := by
    intro q hq
    obtain ⟨i, -, hbefore, hafter, rfl⟩ := mem_cancelledBy.mp hq
    by_cases hij : i = j
    · subst hij
      exact ⟨hcancelled hafter hbefore, hafter⟩
    · rw [(hothers i hij).2] at hafter
      exact absurd hafter hbefore
  have hcases : ∀ i, r'.sink.Live i →
      i = j ∧ (r'.sink.deliveries i).admissionSequence = call.sequence ∨
        i ≠ j ∧ h.run.sink.Live i ∧
          (r'.sink.deliveries i).admissionSequence = h.sequence i := by
    intro i hi
    by_cases hij : i = j
    · subst hij
      exact .inl ⟨rfl, (hlive hi).1⟩
    · exact .inr ⟨hij, hold i hij hi, hsequence i hij⟩
  refine ⟨fun i k hi hk heq ↦ ?_, fun i hi hmem ↦ ?_, fun i hi hmem ↦ ?_, fun i hi ↦ ?_,
    fun q hq ↦ hissued q (hbelow q (ha.retired q hq)).le, fun q hq ↦ ?_, ha.once,
    fun q hq hmem ↦ ?_⟩
  · change (r'.sink.deliveries i).admissionSequence = (r'.sink.deliveries k).admissionSequence
      at heq
    rcases hcases i hi with ⟨rfl, hi'⟩ | ⟨-, hi', hsi⟩ <;>
      rcases hcases k hk with ⟨rfl, hk'⟩ | ⟨-, hk', hsk⟩
    · rfl
    · have := hbelow _ (ha.live k hk')
      omega
    · have := hbelow _ (ha.live i hi')
      omega
    · exact ha.distinct i k hi' hk' (by rw [← hsi, heq, hsk])
  · rcases hcases i hi with ⟨-, hi'⟩ | ⟨-, hi', hsi⟩
    · rw [sequence, hi'] at hmem
      exact absurd (hbelow _ (ha.retired _ hmem)) (lt_irrefl _)
    · rw [sequence, hsi] at hmem
      exact ha.notRetired i hi' hmem
  · rcases List.mem_append.mp hmem with hmem | hmem
    · rcases hcases i hi with ⟨-, hi'⟩ | ⟨-, hi', hsi⟩
      · rw [sequence, hi'] at hmem
        exact absurd (hbelow _ (ha.cancelled _ hmem)) (lt_irrefl _)
      · rw [sequence, hsi] at hmem
        exact ha.notCancelled i hi' hmem
    · obtain ⟨heq, hstate⟩ := hnew _ hmem
      rcases hcases i hi with ⟨rfl, -⟩ | ⟨-, hi', hsi⟩
      · exact (hlive hi).2 hstate
      · rw [sequence, hsi] at heq
        exact absurd (hbelow _ (ha.live i hi')) (heq ▸ lt_irrefl _)
  · rcases hcases i hi with ⟨-, hi'⟩ | ⟨-, hi', hsi⟩
    · exact hissued _ hi'.le
    · exact hissued _ (hsi.le.trans (hbelow _ (ha.live i hi')).le)
  · rcases List.mem_append.mp hq with hq | hq
    · exact hissued q (hbelow q (ha.cancelled q hq)).le
    · exact hissued q (hnew q hq).1.le
  · rcases List.mem_append.mp hmem with hmem | hmem
    · exact ha.apart q hq hmem
    · have := hbelow q (ha.retired q hq)
      have := (hnew q hmem).1
      omega

variable {conv : Charconv} {a : FileAction}

theorem Accounts.finishStore (ha : h.Accounts) (hinv : h.run.Inv)
    (hcall : h.run.storing = some call) :
    Accounts ⟨h.run.finishStore call, events, h.retired,
      h.cancelled ++ h.run.sink.cancelledBy (h.run.finishStore call).sink⟩ := by
  have hlast := (hinv.storing call hcall).2.1
  have hheld := hinv.claims
  rw [held, hcall] at hheld
  have hreserved := (owns_iff.mp (hheld.owns call.identity List.mem_cons_self).2).1
  have hretired := hinv.reserved _ hreserved
  rcases finishStore_cases hinv hcall with ⟨heq, -, -⟩ | ⟨o, d, hfree, hd, heq⟩ <;> rw [heq]
  · refine ha.store (j := call.identity.index) hcall hlast rfl
      (fun i hi ↦ ⟨enqueue_owners_of_ne hi, enqueue_deliveries_of_ne hi⟩) (fun _ ↦ ?_)
      (fun hcancelled _ ↦ ?_)
    · rw [enqueue_deliveries_self]
      exact ⟨rfl, (by rintro ⟨⟩)⟩
    · rw [enqueue_deliveries_self] at hcancelled
      cases hcancelled
  · have howner : ((h.run.sink.setOwner call.identity.index o).setDelivery
        call.identity.index d).owners call.identity.index = o := Function.update_self ..
    have hdelivery : ((h.run.sink.setOwner call.identity.index o).setDelivery
        call.identity.index d).deliveries call.identity.index = d := Function.update_self ..
    refine ha.store (j := call.identity.index) hcall hlast rfl
      (fun i hi ↦ ⟨Function.update_of_ne hi .., Function.update_of_ne hi ..⟩)
      (fun hlive ↦ ?_) (fun hcancelled _ ↦ ?_)
    · rw [Live, howner, hdelivery, hfree] at hlive
      rcases hd with rfl | ⟨hstate, -⟩
      · simp [hretired] at hlive
      · simp [hstate] at hlive
    · rw [hdelivery] at hcancelled ⊢
      rcases hd with rfl | ⟨-, hsequence⟩
      · rw [hretired] at hcancelled
        cases hcancelled
      · exact hsequence

theorem Accounts.tryRetire (ha : h.Accounts) (hinv : h.run.Inv) {sequence : ℕ}
    (hslot : ∀ i, FrameStep h.run.sink (h.run.setSink (h.run.sink.tryRetire sequence).1).sink i)
    (hfind : findCompleted h.run.sink.deliveries h.run.sink.bufferCount sequence = some j) :
    Accounts ⟨h.run.setSink (h.run.sink.tryRetire sequence).1, events,
      h.retired ++ (h.run.retirement (.tryRetire sequence)).toList,
      h.cancelled ++ h.run.sink.cancelledBy (h.run.sink.tryRetire sequence).1⟩ := by
  have hcompleted := List.find?_some hfind
  rw [Bool.and_eq_true, beq_iff_eq] at hcompleted
  obtain ⟨houtcome, rfl⟩ := hcompleted
  obtain ⟨outcome, houtcome⟩ := Option.isSome_iff_exists.mp houtcome
  have hdeliveries : (h.run.sink.tryRetire (h.sequence j)).1.deliveries =
      Function.update h.run.sink.deliveries j
        { h.run.sink.deliveries j with state := .retired } := by
    rw [FileSink.tryRetire, Ulog.tryRetire, hfind]
  have hstate : (h.run.sink.deliveries j).state = .delivered ∨
      (h.run.sink.deliveries j).state = .failed := by
    revert houtcome
    cases (h.run.sink.deliveries j).state <;> simp [DeliveryState.outcome]
  have hretirement : h.run.retirement (.tryRetire (h.sequence j)) =
      some (h.sequence j, ⟨outcome, (h.run.sink.deliveries j).encodedBytes⟩) := by
    rw [FileRun.retirement, FileSink.tryRetire, Ulog.tryRetire, hfind]
    simp [houtcome]
  rw [hretirement, Option.toList_some]
  refine ha.retire hslot (fun q hq ↦ ⟨hq.last, hq.storing⟩) (.inr (.inr (.inr hstate))) ?_ ?_ _
  · -- a completed frame is not pending
    change ¬(h.run.sink.tryRetire (h.sequence j)).1.Live j
    rw [Live, hdeliveries, Function.update_self]
    rintro (hqueued | hwriting | hstate' | hstate' | hstate')
    · rw [(hinv.queued j hqueued).2.2.2.1] at hstate
      simp at hstate
    · obtain ⟨-, hdelivered, hfailed, -⟩ := hinv.writing j hwriting
      exact hstate.elim hdelivered hfailed
    all_goals cases hstate'
  · rw [List.eq_nil_iff_forall_not_mem]
    intro q hq
    obtain ⟨i, -, hbefore, hafter, -⟩ := mem_cancelledBy.mp hq
    change ((h.run.sink.tryRetire (h.sequence j)).1.deliveries i).state = _ at hafter
    rw [hdeliveries] at hafter
    by_cases hij : i = j
    · rw [hij, Function.update_self] at hafter
      cases hafter
    · rw [Function.update_of_ne hij] at hafter
      exact hbefore hafter

theorem Accounts.step (ha : h.Accounts) (hinv : h.run.Inv) (hok : h.run.Disciplined a)
    (hmove : Move conv h.run a r') :
    Accounts ⟨r', h.events ++ h.run.events a, h.retired ++ (h.run.retirement a).toList,
      h.cancelled ++ h.run.sink.cancelledBy r'.sink⟩ := by
  have hquiet : h.run.retirement a = none → a ≠ .store → (∀ q, h.run.Issued q → r'.Issued q) →
      Accounts ⟨r', h.events ++ h.run.events a, h.retired ++ (h.run.retirement a).toList,
        h.cancelled ++ h.run.sink.cancelledBy r'.sink⟩ := by
    intro hnone hstore hissued
    rw [hnone, Option.toList_none, List.append_nil]
    exact ha.quiet (hinv.frameStep hmove hstore) hissued
  have hslot := hinv.frameStep hmove
  cases hmove with
  | opened _ _ | tryClaimWrite _ | resetClaim _ _ | requestClose _ | stop _ | discardInFlight _
  | wake _ | pump _ | startWrite _ | finishWrite _ | startClose _ | finishClose _
  | executeWrite _ _ | writeComplete _ _ | closeComplete _ _ =>
    exact hquiet rfl nofun fun q hq ↦ ⟨hq.last, hq.storing⟩
  | encode hclaim hstoring =>
    refine hquiet rfl nofun fun q hq ↦ ?_
    obtain ⟨last, hlast, hle⟩ := hq.last
    have hlt := hok last hlast
    refine ⟨⟨_, rfl, by omega⟩, ?_⟩
    rintro call ⟨⟩
    exact hle.trans_lt hlt
  | store hcall hidle =>
    rw [show h.run.retirement .store = none from rfl, Option.toList_none, List.append_nil]
    exact ha.finishStore hinv hcall
  | @tryRetire sequence hidle =>
    cases hfind : findCompleted h.run.sink.deliveries h.run.sink.bufferCount sequence with
    | none =>
      refine hquiet ?_ nofun fun q hq ↦ ⟨hq.last, hq.storing⟩
      simp [FileRun.retirement, FileSink.tryRetire, Ulog.tryRetire, hfind]
    | some j => exact ha.tryRetire hinv (hslot nofun) hfind

end FileHistory

/-! ## The close -/

namespace FileSink

/-- How far the close is. -/
structure CloseOk (s : FileSink) : Prop where
  closed : s.closed = true → s.asyncOpen = false
  requested : s.closing = true → s.closeRequested = true
  start : s.loop = .startClose → s.closing = false ∧ s.closed = false ∧ s.closeRequested = true ∧
    (s.stopping = true ∨ s.failureError ≠ 0 ∨ ∀ i < s.bufferCount, (s.owners i).state ≠ .queued)
  finish : ∀ result, s.loop = .finishClose result → s.closing = true

/-- A step that neither opens nor closes the file. -/
structure FileKept (s s' : FileSink) : Prop where
  closing : s'.closing = s.closing
  closed : s'.closed = s.closed
  asyncOpen : s'.asyncOpen = s.asyncOpen
  closeRequested : s.closeRequested = true → s'.closeRequested = true

variable {s s' : FileSink}

theorem CloseOk.kept (h : s.CloseOk) (hkept : FileKept s s') (hstart : s'.loop ≠ .startClose)
    (hfinish : ∀ result, s'.loop ≠ .finishClose result) : s'.CloseOk where
  closed hclosed := by
    rw [hkept.closed] at hclosed
    rw [hkept.asyncOpen, h.closed hclosed]
  requested hclosing := by
    rw [hkept.closing] at hclosing
    exact hkept.closeRequested (h.requested hclosing)
  start hloop := absurd hloop hstart
  finish result hloop := absurd hloop (hfinish result)

theorem CloseOk.pump (h : s.CloseOk) : FileKept s s.pump ∧ s.pump.CloseOk := by
  rw [FileSink.pump]
  split
  · exact ⟨⟨rfl, rfl, rfl, id⟩, h.kept ⟨rfl, rfl, rfl, id⟩ (by rintro ⟨⟩) (by rintro _ ⟨⟩)⟩
  · next hopen =>
    simp only [Bool.or_eq_true, not_or, Bool.not_eq_true] at hopen
    dsimp only
    split
    · exact ⟨⟨rfl, rfl, rfl, id⟩, h.kept ⟨rfl, rfl, rfl, id⟩ (by rintro ⟨⟩) (by rintro _ ⟨⟩)⟩
    · next hselect =>
      refine ⟨⟨rfl, rfl, rfl, id⟩, h.closed, h.requested, fun hloop ↦ ?_, fun result hloop ↦ ?_⟩
      · dsimp only at hloop ⊢
        refine ⟨hopen.1.2, hopen.2, ?_, ?_⟩
        · by_contra hrequested
          rw [if_neg hrequested] at hloop
          cases hloop
        · by_cases hselecting : s.failureError = 0 ∧ !s.stopping
          · rw [if_pos hselecting] at hselect
            have hspec := selectLowest_spec (fun i ↦ (s.owners i).state == .queued)
              (fun i ↦ (s.deliveries i).admissionSequence) s.bufferCount
            rw [show selectLowest _ _ _ = none from hselect] at hspec
            refine .inr (.inr fun i hi hqueued ↦ ?_)
            simpa [hqueued] using hspec i hi
          · by_cases hfailed : s.failureError = 0
            · exact .inl (by simpa [hfailed] using hselecting)
            · exact .inr (.inl hfailed)
      · dsimp only at hloop
        split at hloop <;> cases hloop

theorem tryClaimWrite_kept : FileKept s s.tryClaimWrite.1 := by
  rw [tryClaimWrite]
  split
  · exact ⟨rfl, rfl, rfl, id⟩
  · split <;> exact ⟨rfl, rfl, rfl, id⟩

theorem resetClaim_kept : FileKept s (s.resetClaim c) := by
  rw [resetClaim]
  split <;> exact ⟨rfl, rfl, rfl, id⟩

theorem startWrite_kept : FileKept s (s.startWrite index submit) := by
  rcases startWrite_cases s index submit with ⟨_, _, heq⟩ | ⟨_, _, heq⟩ <;> rw [heq] <;>
    exact ⟨rfl, rfl, rfl, id⟩

theorem startWrite_loop :
    (s.startWrite index submit).loop ≠ .startClose ∧
      ∀ result, (s.startWrite index submit).loop ≠ .finishClose result := by
  rcases startWrite_cases s index submit with ⟨_, _, heq⟩ | ⟨_, _, heq⟩ <;> rw [heq] <;>
    exact ⟨nofun, nofun⟩

theorem startClose_started (s : FileSink) (submit : ℤ) : (s.startClose submit).closing = true ∧
    (s.startClose submit).closed = s.closed ∧ (s.startClose submit).asyncOpen = s.asyncOpen ∧
    (s.startClose submit).closeRequested = s.closeRequested ∧
    (s.startClose submit).loop ≠ .startClose := by
  rw [startClose]
  dsimp only
  split
  · exact ⟨rfl, rfl, rfl, rfl, (by rintro ⟨⟩)⟩
  · split <;> exact ⟨rfl, rfl, rfl, rfl, (by simp)⟩

/-- One if the close was started. -/
def closes (s : FileSink) : ℕ := if s.closing || s.closed then 1 else 0

theorem FileKept.closes (h : FileKept s s') : s'.closes = s.closes := by
  rw [FileSink.closes, FileSink.closes, h.closing, h.closed]

theorem eq_wake_of_mem_sendWake {e : FileEvent} (he : e ∈ s.sendWake) : e = .wake := by
  rw [sendWake] at he
  split at he
  · exact List.mem_singleton.mp he
  · cases he

theorem count_sendWake : s.sendWake.count .close = 0 := by
  rw [sendWake]
  split <;> rfl

end FileSink

namespace FileRun

open FileSink

variable {r r' : FileRun} {conv : Charconv} {a : FileAction}

theorem Inv.finishStore_kept (h : r.Inv) (hcall : r.storing = some call) :
    FileKept r.sink (r.finishStore call).sink ∧ (r.finishStore call).sink.loop = r.sink.loop := by
  rcases finishStore_cases h hcall with ⟨heq, -, -⟩ | ⟨o, d, -, -, heq⟩ <;> rw [heq] <;>
    exact ⟨⟨rfl, rfl, rfl, id⟩, rfl⟩

theorem Inv.finishWrite_kept (h : r.Inv) {result : ℤ} (hloop : r.sink.loop = .finishWrite result) :
    FileKept r.sink (r.sink.finishWrite result) ∧
      (r.sink.finishWrite result).loop ≠ .startClose ∧
      ∀ code, (r.sink.finishWrite result).loop ≠ .finishClose code := by
  rcases finishWrite_cases (h.finishing hloop).bytes with
    ⟨o, e, -, -, heq⟩ | heq | ⟨-, o, -, heq⟩ <;> rw [heq] <;>
    exact ⟨⟨rfl, rfl, rfl, id⟩, nofun, nofun⟩

theorem Inv.closeStep (h : r.Inv) (hclose : r.sink.CloseOk) (hmove : Move conv r a r') :
    r'.sink.CloseOk ∧ r'.sink.closes = r.sink.closes + (r.events a).count .close := by
  -- steps that keep the file as it is and start no close
  have hkeep : FileKept r.sink r'.sink → r'.sink.loop ≠ .startClose →
      (∀ result, r'.sink.loop ≠ .finishClose result) → (r.events a).count .close = 0 →
      r'.sink.CloseOk ∧ r'.sink.closes = r.sink.closes + (r.events a).count .close := by
    intro hkept hstart hfinish hcount
    rw [hcount]
    exact ⟨hclose.kept hkept hstart hfinish, hkept.closes⟩
  cases hmove with
  | opened hclosed hidle =>
    refine ⟨⟨fun hclosed' ↦ ?_, hclose.requested, hclose.start, hclose.finish⟩, ?_⟩
    · exact absurd (hclosed.symm.trans hclosed') (by decide)
    · rw [events]
      split <;> rfl
  | tryClaimWrite hidle =>
    have hloop : r.sink.tryClaimWrite.1.loop = .idle := by
      rw [FileSink.tryClaimWrite]
      split
      · exact hidle
      · split <;> exact hidle
    refine hkeep tryClaimWrite_kept (hloop ▸ (by decide)) (hloop ▸ (by rintro _ ⟨⟩)) ?_
    rw [events]
    cases r.sink.tryClaimWrite.2 <;> rfl
  | @resetClaim _ identity _ hidle =>
    have hloop : (r.sink.resetClaim identity).loop = .idle := by
      rw [FileSink.resetClaim]
      split <;> exact hidle
    exact hkeep resetClaim_kept (hloop ▸ (by decide)) (hloop ▸ (by rintro _ ⟨⟩)) rfl
  | encode _ _ => exact ⟨{ hclose with }, rfl⟩
  | store hcall hidle =>
    obtain ⟨hkept, hloop⟩ := h.finishStore_kept hcall
    rw [hidle] at hloop
    refine hkeep hkept (hloop ▸ (by decide)) (hloop ▸ (by rintro _ ⟨⟩)) ?_
    simp only [events, hcall]
    split
    · exact count_sendWake
    · rfl
  | tryRetire hidle | discardInFlight hidle =>
    exact hkeep ⟨rfl, rfl, rfl, id⟩ (hidle ▸ (by decide)) (hidle ▸ (by rintro _ ⟨⟩)) rfl
  | requestClose hidle | stop hidle =>
    exact hkeep ⟨rfl, rfl, rfl, fun _ ↦ rfl⟩ (hidle ▸ (by decide))
      (hidle ▸ (by rintro _ ⟨⟩)) count_sendWake
  | wake _ => exact hkeep ⟨rfl, rfl, rfl, id⟩ (by rintro ⟨⟩) (by rintro _ ⟨⟩) rfl
  | pump hloop =>
    obtain ⟨hkept, hpump⟩ := hclose.pump
    refine ⟨hpump, ?_⟩
    simp only [events, hloop]
    exact hkept.closes
  | startWrite hloop =>
    refine hkeep startWrite_kept startWrite_loop.1 startWrite_loop.2 ?_
    simp only [events, hloop]
    rfl
  | finishWrite hloop =>
    obtain ⟨hkept, hstart, hfinish⟩ := h.finishWrite_kept hloop
    refine hkeep hkept hstart hfinish ?_
    simp only [events, hloop]
    rfl
  | @startClose submit hloop =>
    obtain ⟨hclosing, hclosed, hrequested, -⟩ := hclose.start hloop
    obtain ⟨hclosing', hclosed', hasync', hrequested', hloop'⟩ :=
      startClose_started r.sink submit
    refine ⟨⟨fun h' ↦ ?_, fun _ ↦ hrequested'.trans hrequested, fun h' ↦ absurd h' hloop',
      fun _ _ ↦ hclosing'⟩, ?_⟩
    · exact absurd (h'.symm.trans (hclosed'.trans hclosed)) (by decide)
    · change (r.sink.startClose submit).closes = _
      simp only [events, hloop]
      simp [closes, hclosing, hclosed, hclosing']
  | finishClose hloop =>
    have hclosing := hclose.finish _ hloop
    refine ⟨⟨fun _ ↦ rfl, (by rintro ⟨⟩), (by intros; contradiction), (by rintro _ ⟨⟩)⟩, ?_⟩
    simp only [events, hloop]
    simp [afterLoop, FileSink.finishClose, closes, hclosing]
  | executeWrite _ _ => exact ⟨{ hclose with }, rfl⟩
  | writeComplete _ _ => exact hkeep ⟨rfl, rfl, rfl, id⟩ (by rintro ⟨⟩) (by rintro _ ⟨⟩) rfl
  | closeComplete hsubmitted _ =>
    exact ⟨⟨hclose.closed, hclose.requested, (by rintro ⟨⟩), fun _ _ ↦ (h.close hsubmitted).1⟩, rfl⟩

/-- Once the close has begun, no claim is handed out and no write is started. -/
theorem Inv.events_closing (h : r.Inv) (hclose : r.sink.CloseOk) (hclosing : r.sink.closing = true)
    (hmove : Move conv r a r') : ∀ e ∈ r.events a, e = .wake := by
  cases hmove with
  | opened _ _ =>
    rw [events]
    split
    · exact fun _ ↦ eq_wake_of_mem_sendWake
    · decide
  | tryClaimWrite _ =>
    rw [events, FileSink.tryClaimWrite, hclose.requested hclosing]
    simp
  | resetClaim _ _ | encode _ _ | tryRetire _ | discardInFlight _ | wake _ | executeWrite _ _
  | writeComplete _ _ | closeComplete _ _ => rintro _ ⟨⟩
  | store hcall _ =>
    simp only [events, hcall]
    split
    · exact fun _ ↦ eq_wake_of_mem_sendWake
    · decide
  | requestClose _ | stop _ => exact fun _ ↦ eq_wake_of_mem_sendWake
  | pump hloop | finishWrite hloop | finishClose hloop =>
    simp only [events, hloop]
    decide
  | startWrite hloop =>
    exact absurd (hclosing.symm.trans (h.startable hloop).closing) (by decide)
  | startClose hloop =>
    exact absurd (hclosing.symm.trans (hclose.start hloop).1) (by decide)

/-- A closed file stays closed, and nothing is claimed, written or signalled any more. -/
theorem Inv.events_closed (h : r.Inv) (hclose : r.sink.CloseOk) (hclosed : r.sink.closed = true)
    (hmove : Move conv r a r') : r.events a = [] ∧ r'.sink.closed = true := by
  have hasync := hclose.closed hclosed
  have hwake : r.sink.sendWake = [] := by rw [sendWake, hasync]; rfl
  cases hmove with
  | opened hopen _ => exact absurd (hclosed.symm.trans hopen) (by decide)
  | tryClaimWrite _ =>
    refine ⟨?_, tryClaimWrite_kept.closed.trans hclosed⟩
    rw [events, FileSink.tryClaimWrite, hasync]
    simp
  | resetClaim _ _ => exact ⟨rfl, resetClaim_kept.closed.trans hclosed⟩
  | encode _ _ | tryRetire _ | discardInFlight _ | wake _ | executeWrite _ _ | writeComplete _ _
  | closeComplete _ _ => exact ⟨rfl, hclosed⟩
  | store hcall _ =>
    refine ⟨?_, (h.finishStore_kept hcall).1.closed.trans hclosed⟩
    simp only [events, hcall, hwake, ite_self]
  | requestClose _ | stop _ => exact ⟨hwake, hclosed⟩
  | pump hloop =>
    refine ⟨?_, hclose.pump.1.closed.trans hclosed⟩
    simp only [events, hloop]
  | startWrite hloop =>
    exact absurd (hclosed.symm.trans (h.startable hloop).closed) (by decide)
  | finishWrite hloop =>
    exact absurd (hclosed.symm.trans (h.finishing hloop).closed) (by decide)
  | startClose hloop =>
    exact absurd (hclosed.symm.trans (hclose.start hloop).2.1) (by decide)
  | finishClose hloop =>
    refine ⟨?_, rfl⟩
    simp only [events, hloop]

end FileRun

/-! ## Runs -/

namespace FileHistory

open FileSink FileRun

variable {h h' : FileHistory} {conv : Charconv} {a : FileAction}

/-- The invariant of a history. -/
structure Inv (h : FileHistory) : Prop where
  run : h.run.Inv
  accounts : h.Accounts
  close : h.run.sink.CloseOk
  closes : h.events.count .close = h.run.sink.closes

theorem exists_move (hstep : h.step conv a = some h') :
    Move conv h.run a h'.run ∧
      h' = ⟨h'.run, h.events ++ h.run.events a, h.retired ++ (h.run.retirement a).toList,
        h.cancelled ++ h.run.sink.cancelledBy h'.run.sink⟩ ∧
      h.run.step conv a = some h'.run := by
  obtain ⟨r', hr, rfl⟩ := Option.map_eq_some_iff.mp hstep
  exact ⟨.of_step hr, rfl, hr⟩

theorem Inv.step (hinv : h.Inv) (hok : h.Disciplined a) (hstep : h.step conv a = some h') :
    h'.Inv := by
  obtain ⟨hmove, heq, hr⟩ := exists_move hstep
  obtain ⟨hclose, hcloses⟩ := hinv.run.closeStep hinv.close hmove
  refine ⟨hinv.run.step hok hr, ?_, hclose, ?_⟩
  · rw [heq]
    exact hinv.accounts.step hinv.run hok hmove
  · rw [heq, List.count_append, hinv.closes, hcloses]

theorem inv_init (bufferCount maximumRecordBytes : ℕ) (faults : FileFaultPlan) :
    (machine conv bufferCount maximumRecordBytes faults).init.Inv where
  run := show (FileRun.machine conv bufferCount maximumRecordBytes faults).init.Inv from
    FileRun.inv_init ..
  accounts := by
    have hdead : ∀ i,
        ¬(machine conv bufferCount maximumRecordBytes faults).init.run.sink.Live i := by
      rintro i (h | h | h | h | h) <;> cases h
    exact ⟨fun i _ hi ↦ absurd hi (hdead i), fun i hi ↦ absurd hi (hdead i),
      fun i hi ↦ absurd hi (hdead i), fun i hi ↦ absurd hi (hdead i), nofun, nofun,
      List.nodup_nil, nofun⟩
  close := ⟨nofun, nofun, nofun, nofun⟩
  closes := rfl

/-- Who owns what in a state of a run, and what the next step may do. -/
structure Ownership (conv : Charconv) (h : FileHistory) : Prop where
  /-- A buffer is claimed only when it is free and its last delivery was retired. -/
  claim : ∀ c, h.run.sink.tryClaimWrite.2 = some c →
    (h.run.sink.owners c.index).state = .free ∧ (h.run.sink.deliveries c.index).state = .retired
  /-- A pending buffer holds the frame that `StoreRaw` encoded, with its sequence. -/
  stored : ∀ i, (h.run.sink.owners i).state = .queued ∨ (h.run.sink.owners i).state = .writing →
    h.run.Framed i
  /-- A frame stays as it is until its outcome is retired or discarded. -/
  fixed : ∀ i, h.run.Occupied i → ∀ a h', h.step conv a = some h' →
    h'.run.sink.buffers i = h.run.sink.buffers i ∧
      (h'.run.sink.deliveries i).encodedBytes = (h.run.sink.deliveries i).encodedBytes ∧
      (h'.run.sink.deliveries i).admissionSequence =
        (h.run.sink.deliveries i).admissionSequence
  /-- At most one buffer is being written. Whenever the mutex is free, that is `writingSlot` while
  `writing` is set. -/
  writing : (∀ i, (h.run.sink.owners i).state = .writing → i = h.run.sink.writingSlot) ∧
    (h.run.sink.writing = true →
      (h.run.sink.owners h.run.sink.writingSlot).state = .writing) ∧
    (h.run.sink.loop = .idle →
      (h.run.sink.owners h.run.sink.writingSlot).state = .writing → h.run.sink.writing = true)
  /-- An outcome is retired at most once, and never that of a cancelled frame. -/
  retired : (h.retired.map (·.1)).Nodup ∧ ∀ q ∈ h.retired.map (·.1), q ∉ h.cancelled
  /-- The close is started at most once, with no write active and, without a failure and before
  `Stop`, with no frame queued. -/
  close : h.events.count .close ≤ 1 ∧ ∀ a, .close ∈ h.run.events a →
    (∀ i, (h.run.sink.owners i).state ≠ .writing) ∧ h.run.sink.writing = false ∧
      h.run.sink.request = none ∧
      (h.run.sink.stopping = true ∨ h.run.sink.failureError ≠ 0 ∨
        ∀ i, (h.run.sink.owners i).state ≠ .queued)
  /-- While the file is being closed nothing is claimed or written; after that the loop thread is
  not signalled either. -/
  closing : h.run.sink.closing = true → ∀ a h', h.step conv a = some h' →
    ∀ e ∈ h.run.events a, e = .wake
  closed : h.run.sink.closed = true → ∀ a h', h.step conv a = some h' →
    h.run.events a = [] ∧ h'.run.sink.closed = true

theorem tryClaimWrite_free {s : FileSink} (hclaim : s.tryClaimWrite.2 = some c) :
    (s.owners c.index).state = .free ∧ (s.deliveries c.index).state = .retired := by
  rw [tryClaimWrite] at hclaim
  split at hclaim
  · cases hclaim
  · split at hclaim
    · cases hclaim
    · next hfind =>
      cases hclaim
      have hfound := List.find?_some hfind
      rwa [Bool.and_eq_true, beq_iff_eq, beq_iff_eq] at hfound

theorem Inv.close_start (hinv : h.Inv) (hclose : .close ∈ h.run.events a) :
    h.run.sink.loop = .startClose ∧ h.run.Between := by
  have hloop : h.run.sink.loop = .startClose := by
    cases a with
    | loop submit =>
      rw [FileRun.events] at hclose
      split at hclose
      · cases List.mem_singleton.mp hclose
      · assumption
      · cases hclose
    | opened =>
      rw [FileRun.events] at hclose
      split at hclose
      · cases eq_wake_of_mem_sendWake hclose
      · cases hclose
    | tryClaimWrite => simp [FileRun.events] at hclose
    | store =>
      simp only [FileRun.events] at hclose
      split at hclose
      · cases hclose
      · split at hclose
        · cases eq_wake_of_mem_sendWake hclose
        · cases hclose
    | requestClose | stop => cases eq_wake_of_mem_sendWake hclose
    | resetClaim | encode | tryRetire | discardInFlight | wake | executeWrite | writeComplete
    | closeComplete => cases hclose
  refine ⟨hloop, hinv.run.phase.resolve_right fun hw ↦ ?_⟩
  obtain ⟨n, hn, -⟩ := hw.file
  exact hn.not_closing_loop.1 hloop

theorem ownership {bufferCount maximumRecordBytes : ℕ} {faults : FileFaultPlan}
    (h : (machine conv bufferCount maximumRecordBytes faults).Reach Disciplined h') :
    h'.Ownership conv := by
  have hinv : h'.Inv := h.invariant (inv_init ..) fun _ _ _ hinv hok hstep ↦ hinv.step hok hstep
  have hrun := hinv.run
  refine
    { claim := fun c ↦ tryClaimWrite_free
      stored := fun i hi ↦ ?_
      fixed := fun i hi a h'' hstep ↦ hrun.fixed (exists_move hstep).1 hi
      writing := ⟨fun i hi ↦ (hrun.writing i hi).1, fun hwriting ↦ ?_, fun hidle howner ↦ ?_⟩
      retired := ⟨hinv.accounts.once, hinv.accounts.apart⟩
      close := ⟨?_, fun a hclose ↦ ?_⟩
      closing := fun hclosing a h'' hstep ↦
        hrun.events_closing hinv.close hclosing (exists_move hstep).1
      closed := fun hclosed a h'' hstep ↦
        hrun.events_closed hinv.close hclosed (exists_move hstep).1 }
  · rcases hi with hqueued | hwriting
    · exact (hrun.queued i hqueued).2.2.2.2.2
    · exact (hrun.writing i hwriting).2.2.2.1
  · rcases hrun.phase with hb | hw
    · exact absurd (hwriting.symm.trans hb.writing) (by decide)
    · exact hw.owner
  · obtain ⟨n, hn, -⟩ := (hrun.phase.resolve_left fun hb ↦ hb.owner _ howner).file
    exact hn.writing_of_loop (.inl hidle)
  · rw [hinv.closes, closes]
    split <;> decide
  · obtain ⟨hloop, hb⟩ := hinv.close_start hclose
    refine ⟨hb.owner, hb.writing, hb.request, ?_⟩
    refine (hinv.close.start hloop).2.2.2.imp_right (Or.imp_right fun hnone i hi ↦ ?_)
    exact hnone i (hrun.queued i hi).1 hi

/-- A run with two frames: the first one is written while `Stop` cancels the second, its outcome is
retired, and the file is closed. -/
theorem ownership_stopped : ∃ h,
    (machine .blank 2 8 {}).Reach Disciplined h ∧
      h.retired = [(0, ⟨.delivered, 11⟩)] ∧ h.cancelled = [1] ∧ h.run.sink.closed = true ∧
      h.events.count .close = 1 ∧ h.Ownership .blank := by
  have hrun : (machine .blank 2 8 {}).run Disciplined
      (machine .blank 2 8 {}).init
      [.opened, .tryClaimWrite, .encode 0 0 ⟨fun _ ↦ 0, 0, 0⟩, .store, .tryClaimWrite,
        .encode 0 1 ⟨fun _ ↦ 0, 0, 0⟩, .store, .wake, .loop 0, .loop 0, .executeWrite 11, .stop,
        .writeComplete, .loop 0, .loop 0, .loop 0, .tryRetire 0, .closeComplete 0, .loop 0] =
      some _ := rfl
  have hreach := Machine.Reach.of_run .init hrun
  exact ⟨_, hreach, rfl, rfl, rfl, rfl, ownership hreach⟩

end FileHistory

end Ulog
