import Mathlib.Data.List.Perm.Basic
import Ulog.Sink.FileSink

/-!
# The invariant of the file sink

A buffer is pending while it is queued or being written, and then it holds its frame. At most one
buffer is being written, the one named by `writingSlot`, and `Progress` says for each stage of the
write how many bytes of that frame are in the file. Sequences order the rest: delivered frames lie
below the frame being written, and that one below every queued frame, because the pump selects the
lowest and later stores are higher.
-/

namespace Ulog

open ByteMemory

namespace FileSink

variable {s s' : FileSink} {c : FileSlotIdentity} {held rest : List FileSlotIdentity} {j k : ℕ}

/-! ## Claims -/

/-- Every held claim owns its buffer, and no two of them name the same buffer. -/
structure ClaimsOk (s : FileSink) (held : List FileSlotIdentity) : Prop where
  owns : ∀ c ∈ held, c.index < s.bufferCount ∧ s.owns c
  nodup : (held.map (·.index)).Nodup

theorem owns_iff : s.owns c ↔ (s.owners c.index).state = .reserved ∧
    (s.owners c.index).generation = c.generation := by
  rw [owns, Bool.and_eq_true, beq_iff_eq, beq_iff_eq]

theorem ClaimsOk.perm (h : s.ClaimsOk held) {held' : List FileSlotIdentity}
    (hperm : held.Perm held') : s.ClaimsOk held' where
  owns c hc := h.owns c (hperm.mem_iff.mpr hc)
  nodup := (hperm.map _).nodup_iff.mp h.nodup

theorem ClaimsOk.keep (h : s.ClaimsOk held) (hcount : s'.bufferCount = s.bufferCount)
    (hkept : ∀ i, (s.owners i).state = .reserved → s'.owners i = s.owners i) :
    s'.ClaimsOk held where
  owns c hc := by
    obtain ⟨hlt, howns⟩ := h.owns c hc
    refine ⟨hcount ▸ hlt, ?_⟩
    rw [FileSink.owns, hkept _ (owns_iff.mp howns).1]
    exact howns
  nodup := h.nodup

theorem ClaimsOk.release (h : s.ClaimsOk (c :: rest)) (hcount : s'.bufferCount = s.bufferCount)
    (hkept : ∀ i, i ≠ c.index → s'.owners i = s.owners i) : s'.ClaimsOk rest where
  owns d hd := by
    obtain ⟨hlt, howns⟩ := h.owns d (List.mem_cons_of_mem _ hd)
    have hne : d.index ≠ c.index := fun heq ↦
      (List.nodup_cons.mp h.nodup).1 (List.mem_map.mpr ⟨d, hd, heq⟩)
    refine ⟨hcount ▸ hlt, ?_⟩
    rw [FileSink.owns, hkept _ hne]
    exact howns
  nodup := (List.nodup_cons.mp h.nodup).2

theorem ClaimsOk.claim (h : s.ClaimsOk held) (hcount : s'.bufferCount = s.bufferCount)
    (hlt : c.index < s.bufferCount) (hfree : (s.owners c.index).state = .free)
    (howns : s'.owns c) (hkept : ∀ i, i ≠ c.index → s'.owners i = s.owners i) :
    s'.ClaimsOk (c :: held) := by
  have hne : ∀ d ∈ held, d.index ≠ c.index := by
    intro d hd heq
    have hreserved := (owns_iff.mp (h.owns d hd).2).1
    rw [heq, hfree] at hreserved
    cases hreserved
  constructor
  · intro d hd
    rcases List.mem_cons.mp hd with rfl | hd
    · exact ⟨hcount ▸ hlt, howns⟩
    · obtain ⟨hlt', howns'⟩ := h.owns d hd
      refine ⟨hcount ▸ hlt', ?_⟩
      rw [FileSink.owns, hkept _ (hne d hd)]
      exact howns'
  · rw [List.map_cons, List.nodup_cons]
    refine ⟨fun hmem ↦ ?_, h.nodup⟩
    obtain ⟨d, hd, heq⟩ := List.mem_map.mp hmem
    exact hne d hd heq

/-! ## The write in progress -/

/-- How much of the frame in the writing slot is in the file. -/
inductive Progress (s : FileSink) : ℕ → Prop
  /-- a partial write is about to be resumed -/
  | resuming : s.loop = .startWrite s.writingSlot → s.writing = false → s.request = none →
      (s.owners s.writingSlot).writtenBytes ≤ (s.deliveries s.writingSlot).encodedBytes →
      Progress s (s.owners s.writingSlot).writtenBytes
  /-- the write is with the operating system -/
  | submitted {length : ℕ} : s.loop = .idle ∨ s.loop = .pump → s.writing = true →
      s.request = some ⟨s.writingSlot, (s.owners s.writingSlot).writtenBytes, length, none⟩ →
      (s.owners s.writingSlot).writtenBytes + length ≤
        (s.deliveries s.writingSlot).encodedBytes →
      Progress s (s.owners s.writingSlot).writtenBytes
  /-- the operating system has executed the write, the loop thread has not heard of it -/
  | executed {length : ℕ} {result : ℤ} : s.loop = .idle ∨ s.loop = .pump → s.writing = true →
      s.request =
        some ⟨s.writingSlot, (s.owners s.writingSlot).writtenBytes, length, some result⟩ →
      (s.owners s.writingSlot).writtenBytes + result.toNat ≤
        (s.deliveries s.writingSlot).encodedBytes →
      Progress s ((s.owners s.writingSlot).writtenBytes + result.toNat)
  /-- the result is about to be handled -/
  | finishing {result : ℤ} : s.loop = .finishWrite result → s.writing = true →
      s.request = none →
      (s.owners s.writingSlot).writtenBytes + result.toNat ≤
        (s.deliveries s.writingSlot).encodedBytes →
      Progress s ((s.owners s.writingSlot).writtenBytes + result.toNat)

theorem Progress.congr {n : ℕ} (h : s.Progress n) (hloop : s'.loop = s.loop)
    (hrequest : s'.request = s.request) (hwriting : s'.writing = s.writing)
    (hslot : s'.writingSlot = s.writingSlot)
    (howner : s'.owners s.writingSlot = s.owners s.writingSlot)
    (hbytes : (s'.deliveries s.writingSlot).encodedBytes =
      (s.deliveries s.writingSlot).encodedBytes) : s'.Progress n := by
  rw [← hslot] at howner hbytes
  have heq := congrArg s.owners hslot
  have heq' := congrArg s.deliveries hslot
  rcases h with ⟨hl, hw, hr, hle⟩ | ⟨hl, hw, hr, hle⟩ | ⟨hl, hw, hr, hle⟩ | ⟨hl, hw, hr, hle⟩
  all_goals
    rw [← heq, ← howner]
    rw [← hwriting] at hw
    rw [← hloop] at hl
    rw [← hrequest] at hr
  · exact .resuming (hl.trans (by rw [hslot])) hw hr (by rwa [howner, hbytes, heq, heq'])
  · exact .submitted hl hw (hr.trans (by rw [← heq, ← howner, hslot]))
      (by rwa [howner, hbytes, heq, heq'])
  · exact .executed hl hw (hr.trans (by rw [← heq, ← howner, hslot]))
      (by rwa [howner, hbytes, heq, heq'])
  · exact .finishing hl hw hr (by rwa [howner, hbytes, heq, heq'])

/-- No write is in progress; one may be about to start, with the lowest queued frame. -/
structure Quiet (s : FileSink) : Prop where
  owner : ∀ i, (s.owners i).state ≠ .writing
  writing : s.writing = false
  request : s.request = none
  loop : ∀ result, s.loop ≠ .finishWrite result
  start : ∀ i, s.loop = .startWrite i →
    (s.owners i).state = .queued ∧ s.closing = false ∧ s.closed = false ∧
      ∀ j, (s.owners j).state = .queued →
        (s.deliveries i).admissionSequence ≤ (s.deliveries j).admissionSequence

end FileSink

namespace FileRun

/-- The claims the worker holds, with the one being stored. -/
def held (r : FileRun) : List FileSlotIdentity := (r.storing.map (·.identity)).toList ++ r.claims

/-- The bytes of the delivered frames. -/
def deliveredBytes (r : FileRun) : Bytes := r.delivered.flatMap (·.2)

/-- A pending buffer holds its frame. -/
structure Framed (r : FileRun) (i : ℕ) : Prop where
  buffer : ByteMemory.read (r.sink.buffers i) 0 (r.sink.deliveries i).encodedBytes = r.frames i
  stored : r.frame i ∈ r.stored
  delivered : ∀ d ∈ r.delivered, d.1 < (r.sink.deliveries i).admissionSequence

/-- A frame is being written. -/
structure Writing (r : FileRun) : Prop where
  owner : (r.sink.owners r.sink.writingSlot).state = .writing
  closing : r.sink.closing = false
  closed : r.sink.closed = false
  failed : r.failed = none
  file : ∃ n, r.sink.Progress n ∧
    r.sink.file = r.deliveredBytes ++ (r.frames r.sink.writingSlot).take n

/-- Between two frames, or after a failure. -/
structure Between (r : FileRun) : Prop extends r.sink.Quiet where
  file : ∃ tail, r.sink.file = r.deliveredBytes ++ tail ∧ (r.failed = none → tail = []) ∧
    ∀ d ∈ r.failed, tail <+: d.2

/-- The invariant of a run. -/
structure Inv (r : FileRun) : Prop where
  claims : r.sink.ClaimsOk r.held
  storing : ∀ c ∈ r.storing,
    ByteMemory.read (r.sink.buffers c.identity.index) 0 c.result.encodedBytes = c.frame ∧
      r.lastSequence = some c.sequence ∧ ∀ d ∈ r.stored, d.1 < c.sequence
  stored : ∀ d ∈ r.stored, ∃ last ∈ r.lastSequence, d.1 ≤ last
  storedSorted : r.stored.Pairwise (·.1 < ·.1)
  reserved : ∀ i, (r.sink.owners i).state = .reserved → (r.sink.deliveries i).state = .retired
  queued : ∀ i, (r.sink.owners i).state = .queued →
    i < r.sink.bufferCount ∧ r.sink.stopping = false ∧ r.failed = none ∧
      (r.sink.deliveries i).state = .inFlight ∧ (r.sink.owners i).writtenBytes = 0 ∧ r.Framed i
  queued_ne : ∀ i j, (r.sink.owners i).state = .queued → (r.sink.owners j).state = .queued →
    i ≠ j → (r.sink.deliveries i).admissionSequence ≠ (r.sink.deliveries j).admissionSequence
  writing : ∀ i, (r.sink.owners i).state = .writing →
    i = r.sink.writingSlot ∧ (r.sink.deliveries i).state ≠ .delivered ∧
      (r.sink.deliveries i).state ≠ .failed ∧ r.Framed i ∧
      ∀ j, (r.sink.owners j).state = .queued →
        (r.sink.deliveries i).admissionSequence < (r.sink.deliveries j).admissionSequence
  failure : r.sink.failureError = 0 ↔ r.failed = none
  failed : ∀ d ∈ r.failed, d ∈ r.stored ∧ ∀ e ∈ r.delivered, e.1 < d.1
  delivered : ∀ d ∈ r.delivered, d ∈ r.stored
  sorted : r.delivered.Pairwise (·.1 < ·.1)
  close : r.sink.closeSubmitted = true →
    r.sink.closing = true ∧ (r.sink.loop = .idle ∨ r.sink.loop = .pump)
  phase : r.Between ∨ r.Writing

end FileRun

/-! ## Steps of the worker -/

namespace FileSink

variable {s s' : FileSink} {i : ℕ}

/-- The buffer is as it was; its delivery may have been retired if it was not queued. -/
structure SlotKept (s s' : FileSink) (i : ℕ) : Prop where
  owner : s'.owners i = s.owners i
  buffer : s'.buffers i = s.buffers i
  sequence : (s'.deliveries i).admissionSequence = (s.deliveries i).admissionSequence
  encodedBytes : (s'.deliveries i).encodedBytes = (s.deliveries i).encodedBytes
  state : (s'.deliveries i).state = (s.deliveries i).state ∨
    (s.owners i).state ≠ .queued ∧ (s'.deliveries i).state = .retired

/-- The buffer was not being written and is not pending afterwards. -/
structure SlotIdle (s s' : FileSink) (i : ℕ) : Prop where
  before : (s.owners i).state ≠ .writing
  after : (s'.owners i).state = .free ∨
    (s'.owners i).state = .reserved ∧ (s'.deliveries i).state = .retired

theorem SlotKept.of_eq (howner : s'.owners i = s.owners i) (hbuffer : s'.buffers i = s.buffers i)
    (hdelivery : s'.deliveries i = s.deliveries i) : SlotKept s s' i :=
  ⟨howner, hbuffer, by rw [hdelivery], by rw [hdelivery], .inl (by rw [hdelivery])⟩

/-- What a step of the worker leaves alone, unless it queues a frame. -/
structure WorkerStep (s s' : FileSink) : Prop where
  bufferCount : s'.bufferCount = s.bufferCount
  loop : s'.loop = s.loop
  request : s'.request = s.request
  writing : s'.writing = s.writing
  writingSlot : s'.writingSlot = s.writingSlot
  file : s'.file = s.file
  failureError : s'.failureError = s.failureError
  closing : s'.closing = s.closing
  closed : s'.closed = s.closed
  closeSubmitted : s'.closeSubmitted = s.closeSubmitted
  queued : ∀ i, (s'.owners i).state = .queued → s.stopping = s'.stopping
  slot : ∀ i, SlotKept s s' i ∨ SlotIdle s s' i

theorem WorkerStep.kept (h : WorkerStep s s')
    (hi : (s'.owners i).state = .queued ∨ (s'.owners i).state = .writing) : SlotKept s s' i := by
  refine (h.slot i).resolve_right fun hidle ↦ ?_
  rcases hidle.after with hfree | ⟨hreserved, -⟩
  · rw [hfree] at hi
    simp at hi
  · rw [hreserved] at hi
    simp at hi

theorem WorkerStep.kept_of_writing (h : WorkerStep s s') (hi : (s.owners i).state = .writing) :
    SlotKept s s' i :=
  (h.slot i).resolve_right fun hidle ↦ hidle.before hi

theorem WorkerStep.progress (h : WorkerStep s s') (hw : (s.owners s.writingSlot).state = .writing)
    {n : ℕ} (hn : s.Progress n) : s'.Progress n :=
  have hkept := h.kept_of_writing hw
  hn.congr h.loop h.request h.writing h.writingSlot hkept.owner hkept.encodedBytes

theorem WorkerStep.quiet (h : WorkerStep s s') (hq : s.Quiet) (hidle : s.loop = .idle ∨
    s'.owners = s.owners ∧ s'.deliveries = s.deliveries) : s'.Quiet where
  owner i hi := hq.owner i ((h.kept (.inr hi)).owner ▸ hi)
  writing := by rw [h.writing, hq.writing]
  request := by rw [h.request, hq.request]
  loop result := by
    rw [h.loop]
    exact hq.loop result
  start i hi := by
    rw [h.loop] at hi
    rcases hidle with hidle | ⟨howners, hdeliveries⟩
    · rw [hidle] at hi
      cases hi
    · rw [howners, hdeliveries, h.closing, h.closed]
      exact hq.start i hi

end FileSink

namespace FileRun

variable {r : FileRun} {s' : FileSink}

/-- The run after a step of the worker that queues nothing. -/
def afterWorker (r : FileRun) (s' : FileSink) (claims : List FileSlotIdentity)
    (storing : Option StoreCall) (lastSequence : Option ℕ) : FileRun :=
  { r with sink := s', claims := claims, storing := storing, lastSequence := lastSequence }

theorem Framed.worker {i : ℕ} (h : r.Framed i) (hkept : FileSink.SlotKept r.sink s' i)
    (claims : List FileSlotIdentity) (storing : Option StoreCall) (lastSequence : Option ℕ) :
    (r.afterWorker s' claims storing lastSequence).Framed i where
  buffer := by
    change ByteMemory.read (s'.buffers i) 0 (s'.deliveries i).encodedBytes = r.frames i
    rw [hkept.buffer, hkept.encodedBytes, h.buffer]
  stored := by
    change ((s'.deliveries i).admissionSequence, r.frames i) ∈ r.stored
    rw [hkept.sequence]
    exact h.stored
  delivered d hd := hkept.sequence ▸ h.delivered d hd

theorem Inv.worker (h : r.Inv) (hs : FileSink.WorkerStep r.sink s')
    {claims : List FileSlotIdentity} {storing : Option StoreCall} {lastSequence : Option ℕ}
    (hidle : r.sink.loop = .idle ∨
      s'.owners = r.sink.owners ∧ s'.deliveries = r.sink.deliveries)
    (hclaims : s'.ClaimsOk (r.afterWorker s' claims storing lastSequence).held)
    (hstoring : ∀ c ∈ storing,
      ByteMemory.read (s'.buffers c.identity.index) 0 c.result.encodedBytes = c.frame ∧
        lastSequence = some c.sequence ∧ ∀ d ∈ r.stored, d.1 < c.sequence)
    (hstored : ∀ d ∈ r.stored, ∃ last ∈ lastSequence, d.1 ≤ last) :
    (r.afterWorker s' claims storing lastSequence).Inv where
  claims := hclaims
  storing := hstoring
  stored := hstored
  storedSorted := h.storedSorted
  reserved i hi := by
    rcases hs.slot i with hkept | hslot
    · rcases hkept.state with hstate | ⟨-, hretired⟩
      · exact hstate.trans (h.reserved i (hkept.owner ▸ hi))
      · exact hretired
    · rcases hslot.after with hfree | ⟨-, hretired⟩
      · exact absurd (hfree.symm.trans hi) (by decide)
      · exact hretired
  queued i hi := by
    have hkept := hs.kept (.inl hi)
    have hi' : (r.sink.owners i).state = .queued := hkept.owner ▸ hi
    obtain ⟨hlt, hstopping, hfailed, hstate, hwritten, hframed⟩ := h.queued i hi'
    refine ⟨hs.bufferCount ▸ hlt, (hs.queued i hi).symm.trans hstopping, hfailed, ?_,
      hkept.owner ▸ hwritten, hframed.worker hkept ..⟩
    exact (hkept.state.resolve_right fun hne ↦ hne.1 hi').trans hstate
  queued_ne i j hi hj hne := by
    have hkept := hs.kept (.inl hi)
    have hkept' := hs.kept (.inl hj)
    change (s'.deliveries i).admissionSequence ≠ (s'.deliveries j).admissionSequence
    rw [hkept.sequence, hkept'.sequence]
    exact h.queued_ne i j (hkept.owner ▸ hi) (hkept'.owner ▸ hj) hne
  writing i hi := by
    have hkept := hs.kept (.inr hi)
    obtain ⟨heq, hdelivered, hfailed, hframed, hafter⟩ := h.writing i (hkept.owner ▸ hi)
    have hstate : ∀ outcome, (r.sink.deliveries i).state ≠ outcome → outcome ≠ .retired →
        (s'.deliveries i).state ≠ outcome := by
      intro outcome hne hretired
      rcases hkept.state with hstate | ⟨-, hstate⟩
      · exact hstate ▸ hne
      · exact hstate ▸ hretired.symm
    refine ⟨heq.trans hs.writingSlot.symm, hstate _ hdelivered (by decide),
      hstate _ hfailed (by decide), hframed.worker hkept .., fun j hj ↦ ?_⟩
    have hkept' := hs.kept (.inl hj)
    change (s'.deliveries i).admissionSequence < (s'.deliveries j).admissionSequence
    rw [hkept.sequence, hkept'.sequence]
    exact hafter j (hkept'.owner ▸ hj)
  failure := by
    change s'.failureError = 0 ↔ _
    rw [hs.failureError]
    exact h.failure
  failed := h.failed
  delivered := h.delivered
  sorted := h.sorted
  close hclose := by
    change s'.closing = true ∧ (s'.loop = .idle ∨ s'.loop = .pump)
    rw [hs.closing, hs.loop]
    exact h.close (hs.closeSubmitted.symm.trans hclose)
  phase := by
    rcases h.phase with hb | hw
    · obtain ⟨tail, hfile, htail⟩ := hb.file
      exact .inl ⟨hs.quiet hb.toQuiet hidle, tail, hs.file.trans hfile, htail⟩
    · have hkept := hs.kept_of_writing hw.owner
      obtain ⟨n, hn, hfile⟩ := hw.file
      refine .inr ⟨?_, hs.closing.trans hw.closing, hs.closed.trans hw.closed, hw.failed, n,
        hs.progress hw.owner hn, ?_⟩
      · change (s'.owners s'.writingSlot).state = .writing
        rw [hs.writingSlot, hkept.owner, hw.owner]
      · change s'.file = r.deliveredBytes ++ (r.frames s'.writingSlot).take n
        rw [hs.file, hfile, hs.writingSlot]

end FileRun

namespace FileSink

variable {s : FileSink}

theorem workerStep_of_slots {asyncOpen closeRequested : Bool} :
    WorkerStep s { s with asyncOpen := asyncOpen, closeRequested := closeRequested } :=
  ⟨rfl, rfl, rfl, rfl, rfl, rfl, rfl, rfl, rfl, rfl, fun _ _ ↦ rfl,
    fun _ ↦ .inl (.of_eq rfl rfl rfl)⟩

/-- A buffer that is not being written is released or reserved. -/
theorem workerStep_update {o : FileOwner} {d : Delivery} (hbefore : (s.owners j).state ≠ .writing)
    (hafter : o.state = .free ∨ o.state = .reserved ∧ d.state = .retired) :
    WorkerStep s ((s.setOwner j o).setDelivery j d) := by
  refine ⟨rfl, rfl, rfl, rfl, rfl, rfl, rfl, rfl, rfl, rfl, fun _ _ ↦ rfl, fun i ↦ ?_⟩
  by_cases hij : i = j
  · subst hij
    refine .inr ⟨hbefore, ?_⟩
    simpa only [setDelivery, setOwner, Function.update_self] using hafter
  · exact .inl (.of_eq (Function.update_of_ne hij ..) rfl (Function.update_of_ne hij ..))

theorem workerStep_setOwner {o : FileOwner} (hbefore : (s.owners j).state ≠ .writing)
    (hafter : o.state = .free ∨ o.state = .reserved ∧ (s.deliveries j).state = .retired) :
    WorkerStep s (s.setOwner j o) := by
  have hstep := workerStep_update hbefore hafter
  rwa [setDelivery, Function.update_eq_self_iff.mpr (by rfl)] at hstep

theorem workerStep_tryRetire {sequence : ℕ}
    (hqueued : ∀ i, (s.owners i).state = .queued → (s.deliveries i).state = .inFlight) :
    WorkerStep s (s.tryRetire sequence).1 := by
  rw [tryRetire, Ulog.tryRetire]
  cases hfind : findCompleted s.deliveries s.bufferCount sequence with
  | none => exact workerStep_of_slots
  | some j =>
    have hcompleted := List.find?_some hfind
    refine ⟨rfl, rfl, rfl, rfl, rfl, rfl, rfl, rfl, rfl, rfl, fun _ _ ↦ rfl, fun i ↦ .inl ?_⟩
    by_cases hij : i = j
    · subst hij
      have hne : (s.owners i).state ≠ .queued := fun hi ↦ by
        rw [hqueued i hi] at hcompleted
        cases hcompleted
      refine ⟨rfl, rfl, ?_, ?_, .inr ⟨hne, ?_⟩⟩ <;> simp only [Function.update_self]
    · exact .of_eq rfl rfl (Function.update_of_ne hij ..)

theorem cancelQueued_owners (hlt : ∀ i, (s.owners i).state = .queued → i < s.bufferCount) (i : ℕ) :
    (s.cancelQueued.owners i).state ≠ .queued ∧
      ((s.owners i).state ≠ .queued →
        s.cancelQueued.owners i = s.owners i ∧ s.cancelQueued.deliveries i = s.deliveries i) ∧
      ((s.owners i).state = .queued → (s.cancelQueued.owners i).state = .free) := by
  by_cases hi : (s.owners i).state = .queued
  · simp [cancelQueued, hi, hlt i hi]
  · simp [cancelQueued, hi]

theorem workerStep_stop (hlt : ∀ i, (s.owners i).state = .queued → i < s.bufferCount) :
    WorkerStep s s.stop := by
  have hcancel := cancelQueued_owners
    (s := { s with stopping := true, closeRequested := true }) hlt
  refine ⟨rfl, rfl, rfl, rfl, rfl, rfl, rfl, rfl, rfl, rfl, ?_, fun i ↦ ?_⟩
  · intro i hi
    exact absurd hi (hcancel i).1
  · by_cases hi : (s.owners i).state = .queued
    · refine .inr ⟨?_, .inl ((hcancel i).2.2 hi)⟩
      rw [hi]
      decide
    · obtain ⟨howner, hdelivery⟩ := (hcancel i).2.1 hi
      exact .inl (.of_eq howner rfl hdelivery)

theorem workerStep_discardInFlight (hqueued : ∀ i, (s.owners i).state ≠ .queued) :
    WorkerStep s s.discardInFlight := by
  refine ⟨rfl, rfl, rfl, rfl, rfl, rfl, rfl, rfl, rfl, rfl, fun _ _ ↦ rfl, fun i ↦ .inl ?_⟩
  by_cases hi : i < s.bufferCount
  · refine ⟨rfl, rfl, ?_, ?_, .inr ⟨hqueued i, ?_⟩⟩ <;>
      simp only [discardInFlight, Ulog.discardInFlight, if_pos hi]
  · exact .of_eq rfl rfl (if_neg hi)

theorem workerStep_encode {conv : Charconv} {record : RecordView}
    (hj : (s.owners j).state = .reserved) (hretired : (s.deliveries j).state = .retired) :
    WorkerStep s (s.encode conv j record).1 := by
  refine ⟨rfl, rfl, rfl, rfl, rfl, rfl, rfl, rfl, rfl, rfl, fun _ _ ↦ rfl, fun i ↦ ?_⟩
  by_cases hij : i = j
  · subst hij
    refine .inr ⟨?_, .inr ⟨hj, hretired⟩⟩
    rw [hj]
    decide
  · exact .inl (.of_eq rfl (Function.update_of_ne hij ..) rfl)

theorem resetClaim_of_owns {c : FileSlotIdentity} (h : s.owns c) :
    s.resetClaim c = s.setOwner c.index { s.owners c.index with state := .free } := if_pos h

end FileSink

namespace FileRun

open FileSink

variable {r r' : FileRun} {s' : FileSink} {conv : Charconv}

theorem Inv.locked (h : r.Inv) (hs : WorkerStep r.sink s')
    (hidle : r.sink.loop = .idle) (hbuffers : s'.buffers = r.sink.buffers)
    (hreserved : ∀ i, (r.sink.owners i).state = .reserved → s'.owners i = r.sink.owners i) :
    (r.setSink s').Inv := by
  refine h.worker hs (.inl hidle) (h.claims.keep hs.bufferCount hreserved) ?_ h.stored
  rw [hbuffers]
  exact h.storing

theorem Inv.tryClaimWrite (h : r.Inv) (hidle : r.sink.loop = .idle) :
    Inv { r with
      sink := r.sink.tryClaimWrite.1, claims := r.sink.tryClaimWrite.2.toList ++ r.claims } := by
  rw [FileSink.tryClaimWrite]
  split
  · exact h
  · split
    · exact h
    · next index hfind =>
      have hlt := List.mem_range.mp (List.mem_of_find?_eq_some hfind)
      have hfound := List.find?_some hfind
      rw [Bool.and_eq_true, beq_iff_eq, beq_iff_eq] at hfound
      obtain ⟨hfree, hretired⟩ := hfound
      have hstep : WorkerStep r.sink (r.sink.setOwner index
          { r.sink.owners index with
            generation := nextGeneration (r.sink.owners index).generation, state := .reserved }) :=
        workerStep_setOwner (by rw [hfree]; decide) (.inr ⟨rfl, hretired⟩)
      refine h.worker hstep (.inl hidle) ?_ h.storing h.stored
      refine (h.claims.claim (c := ⟨index, nextGeneration (r.sink.owners index).generation⟩)
        hstep.bufferCount hlt hfree (owns_iff.mpr ?_)
        fun i hi ↦ Function.update_of_ne hi ..).perm List.perm_middle.symm
      simp [setOwner]

theorem Inv.claims_eraseIdx (h : r.Inv) {c : FileSlotIdentity} (hc : r.claims[k]? = some c) :
    r.sink.ClaimsOk (c :: ((r.storing.map (·.identity)).toList ++ r.claims.eraseIdx k)) := by
  obtain ⟨hk, rfl⟩ := List.getElem?_eq_some_iff.mp hc
  refine h.claims.perm (List.Perm.trans ?_ List.perm_middle)
  exact (List.getElem_cons_eraseIdx_perm hk).symm.append_left _

theorem Inv.resetClaim (h : r.Inv) (hidle : r.sink.loop = .idle) {c : FileSlotIdentity}
    (hc : r.claims[k]? = some c) :
    Inv { r with sink := r.sink.resetClaim c, claims := r.claims.eraseIdx k } := by
  have hclaims := h.claims_eraseIdx hc
  have howns := (hclaims.owns c List.mem_cons_self).2
  rw [resetClaim_of_owns howns]
  have hstep : WorkerStep r.sink
      (r.sink.setOwner c.index { r.sink.owners c.index with state := .free }) :=
    workerStep_setOwner (by rw [(owns_iff.mp howns).1]; decide) (.inl rfl)
  refine h.worker hstep (.inl hidle) ?_ h.storing h.stored
  exact hclaims.release hstep.bufferCount fun i hi ↦ Function.update_of_ne hi ..

theorem Inv.encode (h : r.Inv) {sequence : ℕ} {c : FileSlotIdentity} {record : RecordView}
    (hc : r.claims[k]? = some c) (hstoring : r.storing = none)
    (hlast : ∀ last ∈ r.lastSequence, last < sequence) :
    Inv { r with
      sink := (r.sink.encode conv c.index record).1
      claims := r.claims.eraseIdx k
      storing := some ⟨c, sequence, (r.sink.encode conv c.index record).2,
        encodedFrame conv record (r.sink.buffers c.index) r.sink.bufferBytes⟩
      lastSequence := some sequence } := by
  have hclaims := h.claims_eraseIdx hc
  rw [hstoring] at hclaims
  obtain ⟨hreserved, -⟩ := owns_iff.mp (hclaims.owns c List.mem_cons_self).2
  have hstored : ∀ d ∈ r.stored, d.1 < sequence := by
    intro d hd
    obtain ⟨last, hlast', hle⟩ := h.stored d hd
    exact hle.trans_lt (hlast last hlast')
  refine h.worker (workerStep_encode hreserved (h.reserved _ hreserved)) (.inr ⟨rfl, rfl⟩)
    (hclaims.keep rfl fun _ _ ↦ rfl) ?_ fun d hd ↦ ⟨sequence, rfl, (hstored d hd).le⟩
  rintro call ⟨⟩
  refine ⟨?_, rfl, hstored⟩
  simp only [FileSink.encode, Function.update_self]
  rfl

end FileRun

namespace FileRun

open FileSink

variable {r : FileRun}

/-- The frame of a store call is queued. -/
def enqueue (r : FileRun) (call : StoreCall) : FileRun :=
  let j := call.identity.index
  { r with
    sink := (r.sink.setOwner j
        { r.sink.owners j with writtenBytes := 0, state := .queued }).setDelivery j
        ⟨.inFlight, call.sequence, call.result.encodedBytes⟩
    storing := none
    frames := Function.update r.frames j call.frame
    stored := r.stored ++ [(call.sequence, call.frame)] }

section Enqueue

variable {call : StoreCall} {i : ℕ}

theorem enqueue_owners_of_ne (h : i ≠ call.identity.index) :
    (r.enqueue call).sink.owners i = r.sink.owners i := Function.update_of_ne h ..

theorem enqueue_deliveries_of_ne (h : i ≠ call.identity.index) :
    (r.enqueue call).sink.deliveries i = r.sink.deliveries i := Function.update_of_ne h ..

theorem enqueue_owners_self :
    (r.enqueue call).sink.owners call.identity.index =
      { r.sink.owners call.identity.index with writtenBytes := 0, state := .queued } :=
  Function.update_self ..

theorem enqueue_deliveries_self :
    (r.enqueue call).sink.deliveries call.identity.index =
      ⟨.inFlight, call.sequence, call.result.encodedBytes⟩ := Function.update_self ..

theorem enqueue_frames_of_ne (h : i ≠ call.identity.index) :
    (r.enqueue call).frames i = r.frames i := Function.update_of_ne h ..

theorem enqueue_frames_self : (r.enqueue call).frames call.identity.index = call.frame :=
  Function.update_self ..

theorem Framed.enqueue (h : r.Framed i) (hi : i ≠ call.identity.index) :
    (r.enqueue call).Framed i where
  buffer := by
    rw [enqueue_deliveries_of_ne hi, enqueue_frames_of_ne hi]
    exact h.buffer
  stored := by
    refine List.mem_append_left _ ?_
    rw [frame, enqueue_deliveries_of_ne hi, enqueue_frames_of_ne hi]
    exact h.stored
  delivered d hd := by
    rw [enqueue_deliveries_of_ne hi]
    exact h.delivered d hd

theorem Inv.enqueue (h : r.Inv) (hidle : r.sink.loop = .idle) (hcall : r.storing = some call)
    (hstopping : r.sink.stopping = false) (hfailed : r.failed = none) :
    (r.enqueue call).Inv := by
  have hheld := h.claims
  rw [held, hcall] at hheld
  obtain ⟨hlt, howns⟩ := hheld.owns call.identity List.mem_cons_self
  have hreserved := (owns_iff.mp howns).1
  obtain ⟨hbuffer, hlast, hbelow⟩ := h.storing call hcall
  -- every frame stored before lies below the new one
  have hframed : ∀ i, r.Framed i → (r.sink.deliveries i).admissionSequence < call.sequence :=
    fun i hi ↦ hbelow _ hi.stored
  have hwslot : ∀ i, (r.sink.owners i).state = .writing → i ≠ call.identity.index := by
    rintro i hi rfl
    exact absurd (hi.symm.trans hreserved) (by decide)
  have hold : ∀ i, (r.sink.owners i).state = .queued ∨ (r.sink.owners i).state = .writing →
      i ≠ call.identity.index := by
    rintro i hi rfl
    rw [hreserved] at hi
    simp at hi
  have hcase : ∀ i, ((r.enqueue call).sink.owners i).state = .queued →
      i = call.identity.index ∨ i ≠ call.identity.index ∧ (r.sink.owners i).state = .queued := by
    intro i hi
    by_cases hij : i = call.identity.index
    · exact .inl hij
    · rw [enqueue_owners_of_ne hij] at hi
      exact .inr ⟨hij, hi⟩
  have hne : ∀ i, ((r.enqueue call).sink.owners i).state ≠ .queued → i ≠ call.identity.index := by
    rintro i hi rfl
    exact hi (by rw [enqueue_owners_self])
  refine { h with
    claims := ?_, storing := ?_, stored := ?_, storedSorted := ?_, reserved := ?_, queued := ?_
    queued_ne := ?_, writing := ?_, failed := ?_, delivered := ?_, phase := ?_ }
  · exact hheld.release rfl fun i hi ↦ enqueue_owners_of_ne hi
  · rintro c ⟨⟩
  · intro d hd
    rcases List.mem_append.mp hd with hd | hd
    · exact h.stored d hd
    · rw [List.mem_singleton.mp hd]
      exact ⟨call.sequence, hlast, le_rfl⟩
  · refine List.pairwise_append.mpr ⟨h.storedSorted, List.pairwise_singleton .., ?_⟩
    intro d hd e he
    rw [List.mem_singleton.mp he]
    exact hbelow d hd
  · intro i hi
    have hij := hne i (by rw [hi]; decide)
    rw [enqueue_deliveries_of_ne hij]
    exact h.reserved i (enqueue_owners_of_ne hij ▸ hi)
  · intro i hi
    rcases hcase i hi with rfl | ⟨hij, hi⟩
    · rw [enqueue_deliveries_self, enqueue_owners_self]
      refine ⟨hlt, hstopping, hfailed, rfl, rfl, ?_, ?_, ?_⟩
      · rw [enqueue_deliveries_self, enqueue_frames_self]
        exact hbuffer
      · refine List.mem_append_right _ (List.mem_singleton.mpr ?_)
        rw [frame, enqueue_deliveries_self, enqueue_frames_self]
      · intro d hd
        rw [enqueue_deliveries_self]
        exact hbelow d (h.delivered d hd)
    · obtain ⟨hlt, hstopping, hfailed, hstate, hwritten, hframe⟩ := h.queued i hi
      rw [enqueue_deliveries_of_ne hij, enqueue_owners_of_ne hij]
      exact ⟨hlt, hstopping, hfailed, hstate, hwritten, hframe.enqueue hij⟩
  · intro i j hi hj hij
    rcases hcase i hi with rfl | ⟨hic, hi⟩ <;> rcases hcase j hj with rfl | ⟨hjc, hj⟩
    · exact absurd rfl hij
    · rw [enqueue_deliveries_self, enqueue_deliveries_of_ne hjc]
      exact (hframed j (h.queued j hj).2.2.2.2.2).ne'
    · rw [enqueue_deliveries_self, enqueue_deliveries_of_ne hic]
      exact (hframed i (h.queued i hi).2.2.2.2.2).ne
    · rw [enqueue_deliveries_of_ne hic, enqueue_deliveries_of_ne hjc]
      exact h.queued_ne i j hi hj hij
  · intro i hi
    have hij := hne i (by rw [hi]; decide)
    rw [enqueue_owners_of_ne hij] at hi
    obtain ⟨heq, hdelivered, hfailed, hframe, hafter⟩ := h.writing i hi
    rw [enqueue_deliveries_of_ne hij]
    refine ⟨heq, hdelivered, hfailed, hframe.enqueue hij, fun j hj ↦ ?_⟩
    rcases hcase j hj with rfl | ⟨hjc, hj⟩
    · rw [enqueue_deliveries_self]
      exact hframed i hframe
    · rw [enqueue_deliveries_of_ne hjc]
      exact hafter j hj
  · intro d hd
    exact absurd (hfailed.symm.trans hd) (by simp)
  · intro d hd
    exact List.mem_append_left _ (h.delivered d hd)
  · rcases h.phase with hb | hw
    · refine .inl ⟨⟨fun i hi ↦ ?_, hb.writing, hb.request, hb.loop, fun i hi ↦ ?_⟩, hb.file⟩
      · exact hb.owner i (enqueue_owners_of_ne (hne i (by rw [hi]; decide)) ▸ hi)
      · exact absurd (hidle.symm.trans hi) (by simp)
    · have hwc := hwslot _ hw.owner
      obtain ⟨n, hn, hfile⟩ := hw.file
      refine .inr ⟨?_, hw.closing, hw.closed, hw.failed, n, ?_, ?_⟩
      · rw [← hw.owner]
        exact congrArg _ (enqueue_owners_of_ne hwc)
      · exact hn.congr rfl rfl rfl rfl (enqueue_owners_of_ne hwc)
          (congrArg _ (enqueue_deliveries_of_ne hwc))
      · exact hfile.trans (congrArg (r.deliveredBytes ++ List.take n ·)
          (enqueue_frames_of_ne hwc).symm)

end Enqueue

/-- `StoreRaw` queues its frame, or releases the buffer. -/
theorem finishStore_cases (h : r.Inv) {call : StoreCall} (hcall : r.storing = some call) :
    r.finishStore call = r.enqueue call ∧ r.sink.stopping = false ∧ r.failed = none ∨
      ∃ o d, o.state = .free ∧
        (d = r.sink.deliveries call.identity.index ∨
          d.state = .cancelled ∧ d.admissionSequence = call.sequence) ∧
        r.finishStore call =
        { r with
          storing := none
          sink := (r.sink.setOwner call.identity.index o).setDelivery call.identity.index d } := by
  have hheld := h.claims
  rw [held, hcall] at hheld
  obtain ⟨-, howns⟩ := hheld.owns call.identity List.mem_cons_self
  cases hcomplete : call.result.complete with
  | false =>
    refine .inr ⟨{ r.sink.owners call.identity.index with state := .free },
      r.sink.deliveries call.identity.index, rfl, .inl rfl, ?_⟩
    simp [finishStore, hcomplete, resetClaim_of_owns howns, setSink, setDelivery, setOwner]
  | true =>
    cases hcancelled : r.sink.stopping || r.sink.failureError != 0 || !r.sink.asyncOpen with
    | false =>
      refine .inl ?_
      have hcancelled' := hcancelled
      simp only [Bool.or_eq_false_iff, bne_eq_false_iff_eq] at hcancelled'
      refine ⟨?_, hcancelled'.1.1, h.failure.mp hcancelled'.1.2⟩
      simp [finishStore, hcomplete, store, howns, hcancelled, setDelivery, setOwner, enqueue]
    | true =>
      refine .inr ⟨{ r.sink.owners call.identity.index with writtenBytes := 0, state := .free },
        ⟨.cancelled, call.sequence, call.result.encodedBytes⟩, rfl, .inr ⟨rfl, rfl⟩, ?_⟩
      simp [finishStore, hcomplete, store, howns, hcancelled, setDelivery, setOwner, setSink]

theorem Inv.finishStore (h : r.Inv) (hidle : r.sink.loop = .idle) {call : StoreCall}
    (hcall : r.storing = some call) : (r.finishStore call).Inv := by
  rcases finishStore_cases h hcall with ⟨heq, hstopping, hfailed⟩ | ⟨o, d, hfree, -, heq⟩
  · rw [heq]
    exact h.enqueue hidle hcall hstopping hfailed
  · rw [heq]
    have hheld := h.claims
    rw [held, hcall] at hheld
    have hreserved := (owns_iff.mp (hheld.owns call.identity List.mem_cons_self).2).1
    have hstep : WorkerStep r.sink
        ((r.sink.setOwner call.identity.index o).setDelivery call.identity.index d) :=
      workerStep_update (by rw [hreserved]; decide) (.inl hfree)
    refine h.worker hstep (.inl hidle) ?_ (by rintro c ⟨⟩) h.stored
    exact hheld.release rfl fun i hi ↦ Function.update_of_ne hi ..

end FileRun

end Ulog
