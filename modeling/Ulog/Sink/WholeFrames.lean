import Ulog.Sink.Invariant

/-!
# The file holds whole frames

In every run the file is the concatenation of the delivered frames, in increasing sequence,
followed by a part of at most one more frame: the one being written, or the one that failed.

Only the loop thread moves a write along, and only the operating system appends; both keep the
invariant of `Ulog.Sink.Invariant`. A failure cancels everything that was queued, and neither a
failure nor a close lets another write start.
-/

namespace Ulog

open ByteMemory

/-! ## Steps of the loop thread and of the operating system -/

namespace FileSink

variable {s : FileSink} {n : ℕ} {pc : LoopPc}

theorem Progress.writing_of_loop (h : s.Progress n) (hloop : s.loop = .idle ∨ s.loop = .pump) :
    s.writing = true := by
  rcases h with ⟨hl, -, -, -⟩ | ⟨-, hw, -, -⟩ | ⟨-, hw, -, -⟩ | ⟨hl, -, -, -⟩
  · rw [hl] at hloop
    simp at hloop
  · exact hw
  · exact hw
  · rw [hl] at hloop
    simp at hloop

/-- A write that is with the operating system does not care whether the pump is due. -/
theorem Progress.setLoop (h : s.Progress n) (hloop : s.loop = .idle ∨ s.loop = .pump)
    (hpc : pc = .idle ∨ pc = .pump) : { s with loop := pc }.Progress n := by
  rcases h with ⟨hl, -, -, -⟩ | ⟨-, hw, hr, hle⟩ | ⟨-, hw, hr, hle⟩ | ⟨hl, -, -, -⟩
  · rw [hl] at hloop
    simp at hloop
  · exact .submitted hpc hw hr hle
  · exact .executed hpc hw hr hle
  · rw [hl] at hloop
    simp at hloop

theorem Progress.not_closing_loop (h : s.Progress n) : s.loop ≠ .startClose ∧
    ∀ result, s.loop ≠ .finishClose result := by
  rcases h with ⟨hl, -, -, -⟩ | ⟨hl, -, -, -⟩ | ⟨hl, -, -, -⟩ | ⟨hl, -, -, -⟩
  · rw [hl]
    simp
  · rcases hl with hl | hl <;> simp [hl]
  · rcases hl with hl | hl <;> simp [hl]
  · rw [hl]
    simp

theorem Quiet.setLoop (h : s.Quiet) {closing closed asyncOpen closeSubmitted : Bool}
    {closeResult : ℤ} (hfinish : ∀ result, pc ≠ .finishWrite result)
    (hstart : ∀ i, pc ≠ .startWrite i) :
    Quiet { s with
      loop := pc, closing := closing, closed := closed, asyncOpen := asyncOpen
      closeSubmitted := closeSubmitted, closeResult := closeResult } :=
  ⟨h.owner, h.writing, h.request, hfinish, fun i hi ↦ absurd hi (hstart i)⟩

end FileSink

namespace FileRun

open FileSink

variable {r : FileRun} {s' : FileSink}

section

variable (h : r.Inv)

include h

theorem Inv.setPhase (hcount : s'.bufferCount = r.sink.bufferCount)
    (howners : s'.owners = r.sink.owners) (hdeliveries : s'.deliveries = r.sink.deliveries)
    (hbuffers : s'.buffers = r.sink.buffers) (hstopping : s'.stopping = r.sink.stopping)
    (hslot : s'.writingSlot = r.sink.writingSlot) (hfailure : s'.failureError = r.sink.failureError)
    (hclose : s'.closeSubmitted = true → s'.closing = true ∧ (s'.loop = .idle ∨ s'.loop = .pump))
    (hphase : (r.setSink s').Between ∨ (r.setSink s').Writing) : (r.setSink s').Inv := by
  have hframed : ∀ i, r.Framed i → (r.setSink s').Framed i := fun i hi ↦
    hi.worker ⟨by rw [howners], by rw [hbuffers], by rw [hdeliveries], by rw [hdeliveries],
      .inl (by rw [hdeliveries])⟩ r.claims r.storing r.lastSequence
  constructor
  case claims => exact h.claims.keep hcount fun i _ ↦ congrFun howners i
  case storing =>
    change ∀ c ∈ r.storing, ByteMemory.read (s'.buffers _) 0 _ = _ ∧ _
    rw [hbuffers]
    exact h.storing
  case stored => exact h.stored
  case storedSorted => exact h.storedSorted
  case reserved =>
    change ∀ i, (s'.owners i).state = _ → (s'.deliveries i).state = _
    rw [howners, hdeliveries]
    exact h.reserved
  case queued =>
    intro i hi
    change (s'.owners i).state = _ at hi
    rw [howners] at hi
    obtain ⟨hlt, hstop, hfailed, hstate, hwritten, hframe⟩ := h.queued i hi
    exact ⟨hcount ▸ hlt, hstopping.trans hstop, hfailed, hdeliveries ▸ hstate,
      howners ▸ hwritten, hframed i hframe⟩
  case queued_ne =>
    change ∀ i j, (s'.owners i).state = _ → (s'.owners j).state = _ → i ≠ j →
      (s'.deliveries i).admissionSequence ≠ (s'.deliveries j).admissionSequence
    rw [howners, hdeliveries]
    exact h.queued_ne
  case writing =>
    intro i hi
    change (s'.owners i).state = _ at hi
    rw [howners] at hi
    obtain ⟨heq, hdelivered, hfailed, hframe, hafter⟩ := h.writing i hi
    refine ⟨heq.trans hslot.symm, hdeliveries ▸ hdelivered, hdeliveries ▸ hfailed,
      hframed i hframe, ?_⟩
    change ∀ j, (s'.owners j).state = _ →
      (s'.deliveries i).admissionSequence < (s'.deliveries j).admissionSequence
    rw [howners, hdeliveries]
    exact hafter
  case failure =>
    change s'.failureError = 0 ↔ _
    rw [hfailure]
    exact h.failure
  case failed => exact h.failed
  case delivered => exact h.delivered
  case sorted => exact h.sorted
  case close => exact hclose
  case phase => exact hphase

theorem Inv.setLoop (hloop : r.sink.loop = .idle ∨ r.sink.loop = .pump)
    (hpc : pc = .idle ∨ pc = .pump) : (r.setSink { r.sink with loop := pc }).Inv := by
  refine h.setPhase rfl rfl rfl rfl rfl rfl rfl (fun hclose ↦ ⟨(h.close hclose).1, hpc⟩)
    (h.phase.imp (fun hb ↦ ?_) fun hw ↦ ?_)
  · refine ⟨hb.toQuiet.setLoop ?_ ?_, hb.file⟩ <;> rcases hpc with rfl | rfl <;> simp
  · obtain ⟨n, hn, hfile⟩ := hw.file
    exact ⟨hw.owner, hw.closing, hw.closed, hw.failed, n, hn.setLoop hloop hpc, hfile⟩

theorem Inv.pump (hloop : r.sink.loop = .pump) : (r.setSink r.sink.pump).Inv := by
  rw [FileSink.pump]
  split
  · exact h.setLoop (.inr hloop) (.inl rfl)
  · next hbusy =>
    simp only [Bool.or_eq_true, not_or, Bool.not_eq_true] at hbusy
    obtain ⟨⟨hwriting, hclosing⟩, hclosed⟩ := hbusy
    have hb : r.Between := h.phase.resolve_right fun hw ↦ by
      obtain ⟨n, hn, -⟩ := hw.file
      rw [hn.writing_of_loop (.inr hloop)] at hwriting
      cases hwriting
    have hopen : ¬r.sink.closeSubmitted = true := fun hclose ↦
      absurd (h.close hclose).1 (by rw [hclosing]; decide)
    dsimp only
    split
    · next index hselected =>
      refine h.setPhase rfl rfl rfl rfl rfl rfl rfl (absurd · hopen) (.inl ⟨?_, hb.file⟩)
      refine ⟨hb.owner, hb.writing, hb.request, nofun, ?_⟩
      rintro i ⟨⟩
      split at hselected
      · have hspec := selectLowest_spec (fun i ↦ (r.sink.owners i).state == .queued)
          (fun i ↦ (r.sink.deliveries i).admissionSequence) r.sink.bufferCount
        rw [FileSink.selectQueued] at hselected
        rw [hselected] at hspec
        refine ⟨beq_iff_eq.mp hspec.2.1, hclosing, hclosed, fun j hj ↦ ?_⟩
        exact hspec.2.2 j (h.queued j hj).1 (beq_iff_eq.mpr hj)
      · cases hselected
    · refine h.setPhase rfl rfl rfl rfl rfl rfl rfl (absurd · hopen)
        (.inl ⟨hb.toQuiet.setLoop ?_ ?_, hb.file⟩) <;> intro x <;> split <;> simp

theorem Inv.startClose (hloop : r.sink.loop = .startClose) (submit : ℤ) :
    (r.setSink (r.sink.startClose submit)).Inv := by
  have hb : r.Between := h.phase.resolve_right fun hw ↦ by
    obtain ⟨n, hn, -⟩ := hw.file
    exact hn.not_closing_loop.1 hloop
  have hopen : ¬r.sink.closeSubmitted = true := fun hclose ↦ by
    have := (h.close hclose).2
    rw [hloop] at this
    simp at this
  rw [FileSink.startClose]
  dsimp only
  split
  · exact h.setPhase rfl rfl rfl rfl rfl rfl rfl (absurd · hopen)
      (.inl ⟨hb.toQuiet.setLoop nofun nofun, hb.file⟩)
  · split
    · exact h.setPhase rfl rfl rfl rfl rfl rfl rfl (absurd · hopen)
        (.inl ⟨hb.toQuiet.setLoop nofun nofun, hb.file⟩)
    · exact h.setPhase rfl rfl rfl rfl rfl rfl rfl (fun _ ↦ ⟨rfl, .inl rfl⟩)
        (.inl ⟨hb.toQuiet.setLoop nofun nofun, hb.file⟩)

theorem Inv.finishClose {result : ℤ} (hloop : r.sink.loop = .finishClose result) :
    (r.setSink (r.sink.finishClose result)).Inv := by
  have hb : r.Between := h.phase.resolve_right fun hw ↦ by
    obtain ⟨n, hn, -⟩ := hw.file
    exact hn.not_closing_loop.2 result hloop
  have hopen : ¬r.sink.closeSubmitted = true := fun hclose ↦ by
    have := (h.close hclose).2
    rw [hloop] at this
    simp at this
  exact h.setPhase rfl rfl rfl rfl rfl rfl rfl (absurd · hopen)
    (.inl ⟨hb.toQuiet.setLoop nofun nofun, hb.file⟩)

/-- While a frame is being written no close has been submitted. -/
theorem Inv.not_closeSubmitted (hclosing : r.sink.closing = false) :
    ¬r.sink.closeSubmitted = true := fun hclose ↦ by
  rw [(h.close hclose).1] at hclosing
  cases hclosing

/-- The operating system appends what it reports. -/
theorem Inv.writing_of_request {q : WriteRequest} (hq : r.sink.request = some q) : r.Writing := by
  refine h.phase.resolve_left fun hb ↦ ?_
  rw [hb.request] at hq
  cases hq

theorem Inv.executeWrite {result : ℤ} {index offset length : ℕ}
    (hrequest : r.sink.request = some ⟨index, offset, length, none⟩) (hresult : result ≤ length) :
    (r.setSink
      { r.sink with
        file := r.sink.file ++ ByteMemory.read (r.sink.buffers index) offset result.toNat
        request := some ⟨index, offset, length, some result⟩ }).Inv := by
  have hw := h.writing_of_request hrequest
  obtain ⟨n, hn, hfile⟩ := hw.file
  refine h.setPhase rfl rfl rfl rfl rfl rfl rfl (absurd · (h.not_closeSubmitted hw.closing))
    (.inr ⟨hw.owner, hw.closing, hw.closed, hw.failed, ?_⟩)
  rcases hn with ⟨-, -, hr, -⟩ | ⟨hl, hwr, hr, hle⟩ | ⟨-, -, hr, -⟩ | ⟨-, -, hr, -⟩
  · rw [hr] at hrequest
    cases hrequest
  · -- the submitted bytes are the next ones of the frame
    rw [hr] at hrequest
    cases hrequest
    have hbuffer := (h.writing _ hw.owner).2.2.2.1.buffer
    have hle' : (r.sink.owners r.sink.writingSlot).writtenBytes + result.toNat ≤
        (r.sink.deliveries r.sink.writingSlot).encodedBytes := by omega
    have happended : r.sink.file ++ ByteMemory.read (r.sink.buffers r.sink.writingSlot)
        (r.sink.owners r.sink.writingSlot).writtenBytes result.toNat =
        r.deliveredBytes ++ (r.frames r.sink.writingSlot).take
          ((r.sink.owners r.sink.writingSlot).writtenBytes + result.toNat) := by
      rw [hfile, List.append_assoc, ← hbuffer, take_read _ _ (by omega), take_read _ _ hle',
        read_add, Nat.zero_add]
    exact ⟨_, .executed hl hwr rfl hle', happended⟩
  · rw [hr] at hrequest
    cases hrequest
  · rw [hr] at hrequest
    cases hrequest

theorem Inv.onWriteComplete {result : ℤ} {index offset length : ℕ}
    (hrequest : r.sink.request = some ⟨index, offset, length, some result⟩) :
    (r.setSink { r.sink with request := none, loop := .finishWrite result }).Inv := by
  have hw := h.writing_of_request hrequest
  obtain ⟨n, hn, hfile⟩ := hw.file
  refine h.setPhase rfl rfl rfl rfl rfl rfl rfl (absurd · (h.not_closeSubmitted hw.closing))
    (.inr ⟨hw.owner, hw.closing, hw.closed, hw.failed, ?_⟩)
  rcases hn with ⟨-, -, hr, -⟩ | ⟨hl, hwr, hr, hle⟩ | ⟨-, hwr, hr, hle⟩ | ⟨-, -, hr, -⟩
  · rw [hr] at hrequest
    cases hrequest
  · rw [hr] at hrequest
    cases hrequest
  · rw [hr] at hrequest
    cases hrequest
    exact ⟨_, .finishing rfl hwr rfl hle, hfile⟩
  · rw [hr] at hrequest
    cases hrequest

end

end FileRun

namespace FileSink

/-- The first half of `StartWriteLocked`: the buffer becomes the one being written. -/
def markWriting (s : FileSink) (index : ℕ) : FileSink :=
  { s.setOwner index { s.owners index with state := .writing } with
    writing := true
    writingSlot := index
    writeCalls := s.writeCalls + 1 }

theorem startWrite_cases (s : FileSink) (index : ℕ) (submit : ℤ) :
    (∃ result ≤ 0, s.startWrite index submit =
      { s.markWriting index with loop := .finishWrite result }) ∨
    ∃ length ≤ (s.deliveries index).encodedBytes - (s.owners index).writtenBytes,
      s.startWrite index submit =
        { s.markWriting index with
          request := some ⟨index, (s.owners index).writtenBytes, length, none⟩
          loop := .idle } := by
  by_cases hcall : s.writeCalls = s.faults.failingWriteCall
  · exact .inl ⟨_, s.faults.writeError_nonpos, if_pos hcall⟩
  · by_cases hsubmit : submit < 0
    · exact .inl ⟨submit, hsubmit.le, (if_neg hcall).trans (if_pos hsubmit)⟩
    · refine .inr ⟨_, ?_, (if_neg hcall).trans (if_neg hsubmit)⟩
      split
      · next hcap => exact hcap.2.le
      · exact le_rfl

end FileSink

namespace FileRun

open FileSink

variable {r : FileRun} {s' : FileSink} {index : ℕ}

/-- A frame that may be started or resumed: a part of it is at the end of the file, and every other
queued frame comes later. -/
structure Startable (r : FileRun) (index : ℕ) : Prop where
  pending : (r.sink.owners index).state = .queued ∨ (r.sink.owners index).state = .writing
  alone : ∀ i, i ≠ index → (r.sink.owners i).state ≠ .writing
  delivered : (r.sink.deliveries index).state ≠ .delivered
  failed : (r.sink.deliveries index).state ≠ .failed
  framed : r.Framed index
  lowest : ∀ j, j ≠ index → (r.sink.owners j).state = .queued →
    (r.sink.deliveries index).admissionSequence < (r.sink.deliveries j).admissionSequence
  request : r.sink.request = none
  closing : r.sink.closing = false
  closed : r.sink.closed = false
  noFailure : r.failed = none
  file : r.sink.file =
    r.deliveredBytes ++ (r.frames index).take (r.sink.owners index).writtenBytes
  bytes : (r.sink.owners index).writtenBytes ≤ (r.sink.deliveries index).encodedBytes

theorem Inv.startable (h : r.Inv) (hloop : r.sink.loop = .startWrite index) :
    r.Startable index := by
  rcases h.phase with hb | hw
  · obtain ⟨hqueued, hclosing, hclosed, hlowest⟩ := hb.start index hloop
    obtain ⟨-, -, hfailed, hstate, hwritten, hframed⟩ := h.queued index hqueued
    obtain ⟨tail, hfile, htail, -⟩ := hb.file
    refine ⟨.inl hqueued, fun i _ ↦ hb.owner i, by rw [hstate]; decide, by rw [hstate]; decide,
      hframed, fun j hj hqueued' ↦ ?_, hb.request, hclosing, hclosed, hfailed, ?_,
      hwritten ▸ Nat.zero_le _⟩
    · exact (hlowest j hqueued').lt_of_ne (h.queued_ne index j hqueued hqueued' hj.symm)
    · rw [hwritten, hfile, htail hfailed, List.take_zero]
  · obtain ⟨n, hn, hfile⟩ := hw.file
    rcases hn with ⟨hl, -, hr, hle⟩ | ⟨hl, -, -, -⟩ | ⟨hl, -, -, -⟩ | ⟨hl, -, -, -⟩
    · rw [hl] at hloop
      cases hloop
      obtain ⟨-, hdelivered, hfailed, hframed, hlowest⟩ := h.writing _ hw.owner
      refine ⟨.inr hw.owner, fun i hi hwriting ↦ hi (h.writing i hwriting).1, hdelivered, hfailed,
        hframed, fun j _ ↦ hlowest j, hr, hw.closing, hw.closed, hw.failed, hfile, hle⟩
    · rw [hloop] at hl
      simp at hl
    · rw [hloop] at hl
      simp at hl
    · rw [hloop] at hl
      cases hl

theorem Inv.markWriting (h : r.Inv) (hs : r.Startable index) {request : Option WriteRequest}
    (hprogress : Progress { r.sink.markWriting index with request := request, loop := pc }
      (r.sink.owners index).writtenBytes) :
    (r.setSink { r.sink.markWriting index with request := request, loop := pc }).Inv := by
  have hother : ∀ i, i ≠ index → (r.sink.markWriting index).owners i = r.sink.owners i :=
    fun i hi ↦ Function.update_of_ne hi ..
  have hself : ((r.sink.markWriting index).owners index).state = .writing := by
    simp [FileSink.markWriting, setOwner]
  have hne : ∀ i, ((r.sink.markWriting index).owners i).state ≠ .writing → i ≠ index := by
    rintro i hi rfl
    exact hi hself
  have hqueued : ∀ i, ((r.sink.markWriting index).owners i).state = .queued →
      i ≠ index ∧ (r.sink.owners i).state = .queued := by
    intro i hi
    have hi' := hne i (by rw [hi]; decide)
    exact ⟨hi', hother i hi' ▸ hi⟩
  refine { h with
    claims := ?_, reserved := ?_, queued := ?_, queued_ne := ?_, writing := ?_
    close := (absurd · (h.not_closeSubmitted hs.closing)), phase := .inr ?_ }
  · refine h.claims.keep rfl fun i hi ↦ hother i ?_
    rintro rfl
    have hpending := hs.pending
    rw [hi] at hpending
    simp at hpending
  · intro i hi
    change ((r.sink.markWriting index).owners i).state = .reserved at hi
    have hi' := hne i (by rw [hi]; decide)
    exact h.reserved i (hother i hi' ▸ hi)
  · intro i hi
    obtain ⟨hi', hold⟩ := hqueued i hi
    obtain ⟨hlt, hstopping, hfailed, hstate, hwritten, hframed⟩ := h.queued i hold
    exact ⟨hlt, hstopping, hfailed, hstate, (hother i hi').symm ▸ hwritten,
      hframed.buffer, hframed.stored, hframed.delivered⟩
  · intro i j hi hj
    exact h.queued_ne i j (hqueued i hi).2 (hqueued j hj).2
  · intro i hi
    have hi' : i = index := by
      by_contra hne'
      exact hs.alone i hne' (hother i hne' ▸ hi)
    subst hi'
    refine ⟨rfl, hs.delivered, hs.failed,
      ⟨hs.framed.buffer, hs.framed.stored, hs.framed.delivered⟩, fun j hj ↦ ?_⟩
    obtain ⟨hj', hold⟩ := hqueued j hj
    exact hs.lowest j hj' hold
  · exact ⟨hself, hs.closing, hs.closed, hs.noFailure, _, hprogress, hs.file⟩

theorem Inv.startWrite (h : r.Inv) (hloop : r.sink.loop = .startWrite index) (submit : ℤ) :
    (r.setSink (r.sink.startWrite index submit)).Inv := by
  have hs := h.startable hloop
  have hbytes := hs.bytes
  have hwritten : ((r.sink.markWriting index).owners index).writtenBytes =
      (r.sink.owners index).writtenBytes := by
    simp [FileSink.markWriting, setOwner]
  rcases startWrite_cases r.sink index submit with ⟨result, hresult, heq⟩ | ⟨length, hlength, heq⟩
  · have hnone : result.toNat = 0 := Int.toNat_of_nonpos hresult
    have hprogress :
        ∀ n, n = ((r.sink.markWriting index).owners index).writtenBytes + result.toNat →
          Progress { r.sink.markWriting index with loop := .finishWrite result } n := by
      rintro _ rfl
      refine .finishing rfl rfl hs.request ?_
      change ((r.sink.markWriting index).owners index).writtenBytes + result.toNat ≤
        (r.sink.deliveries index).encodedBytes
      omega
    rw [heq]
    exact h.markWriting hs (hprogress _ (by omega))
  · have hprogress : ∀ n, n = ((r.sink.markWriting index).owners index).writtenBytes →
        Progress { r.sink.markWriting index with
          request := some ⟨index, (r.sink.owners index).writtenBytes, length, none⟩
          loop := .idle } n := by
      rintro _ rfl
      refine .submitted (.inl rfl) rfl
        (congrArg (fun n ↦ some (WriteRequest.mk index n length none)) hwritten.symm) ?_
      change ((r.sink.markWriting index).owners index).writtenBytes + length ≤
        (r.sink.deliveries index).encodedBytes
      omega
    rw [heq]
    exact h.markWriting hs (hprogress _ hwritten.symm)

end FileRun

namespace FileSink

/-- The frame being written reaches its outcome, and its buffer is free. -/
def afterWrite (s : FileSink) (o : FileOwner) (outcome : DeliveryState) : FileSink :=
  { (s.setOwner s.writingSlot o).setDelivery s.writingSlot
      { s.deliveries s.writingSlot with state := outcome } with writing := false }

variable {s : FileSink} {o : FileOwner} {outcome : DeliveryState} {i : ℕ}

theorem afterWrite_owners_of_ne (hi : i ≠ s.writingSlot) :
    (s.afterWrite o outcome).owners i = s.owners i := Function.update_of_ne hi ..

theorem afterWrite_deliveries_of_ne (hi : i ≠ s.writingSlot) :
    (s.afterWrite o outcome).deliveries i = s.deliveries i := Function.update_of_ne hi ..

theorem afterWrite_owners_self : (s.afterWrite o outcome).owners s.writingSlot = o :=
  Function.update_self ..

theorem pump_deliveries : s.pump.deliveries = s.deliveries := by
  rw [pump]
  split
  · rfl
  · dsimp only
    split <;> rfl

theorem startWrite_deliveries (submit : ℤ) : (s.startWrite i submit).deliveries = s.deliveries := by
  rcases startWrite_cases s i submit with ⟨_, _, heq⟩ | ⟨_, _, heq⟩ <;> rw [heq] <;> rfl

theorem startClose_deliveries (submit : ℤ) : (s.startClose submit).deliveries = s.deliveries := by
  rw [startClose]
  dsimp only
  split
  · rfl
  · split <;> rfl

/-- The three ways a write ends: the frame fails, is resumed, or is complete. -/
theorem finishWrite_cases {result : ℤ}
    (hle : (s.owners s.writingSlot).writtenBytes + result.toNat ≤
      (s.deliveries s.writingSlot).encodedBytes) :
    (∃ o e, o.state = .free ∧ e ≠ 0 ∧ s.finishWrite result =
      { { s.afterWrite o .failed with failureError := e }.cancelQueued with loop := .pump }) ∨
    s.finishWrite result =
      { s.setOwner s.writingSlot
          { s.owners s.writingSlot with
            writtenBytes := (s.owners s.writingSlot).writtenBytes + result.toNat } with
        writing := false, loop := .startWrite s.writingSlot } ∨
    (s.owners s.writingSlot).writtenBytes + result.toNat =
        (s.deliveries s.writingSlot).encodedBytes ∧
      ∃ o, o.state = .free ∧
        s.finishWrite result = { s.afterWrite o .delivered with loop := .pump } := by
  have hmin : min result.toNat ((s.deliveries s.writingSlot).encodedBytes -
      (s.owners s.writingSlot).writtenBytes) = result.toNat := by omega
  rw [finishWrite]
  dsimp only
  split
  · next hfailed =>
    refine .inl ⟨{ s.owners s.writingSlot with state := .free },
      if result < 0 then result else uvEio, rfl, ?_, rfl⟩
    split
    · next hneg => exact hneg.ne
    · decide
  · rw [hmin]
    refine .inr ?_
    by_cases hlt : (s.owners s.writingSlot).writtenBytes + result.toNat <
        (s.deliveries s.writingSlot).encodedBytes
    · exact .inl (if_pos hlt)
    · refine .inr ⟨by omega, { s.owners s.writingSlot with
        writtenBytes := (s.owners s.writingSlot).writtenBytes + result.toNat
        state := .free }, rfl, (if_neg hlt).trans ?_⟩
      simp only [complete, afterWrite, setOwner, setDelivery, Function.update_self,
        Function.update_idem]

end FileSink

namespace FileRun

open FileSink

variable {r : FileRun} {s' : FileSink} {o : FileOwner} {result : ℤ}

theorem afterLoop_eq_setSink (h : s'.deliveries = r.sink.deliveries) :
    r.afterLoop s' = r.setSink s' := by
  have hreached : ∀ outcome, r.reached s' outcome = none := by
    intro outcome
    rw [reached, h, if_neg fun hne ↦ hne.1 hne.2]
  rw [afterLoop, hreached, hreached, Option.toList_none, List.append_nil, Option.none_or]
  rfl

/-- The frame being written, with what is known of it when its result is handled. -/
structure Finishing (r : FileRun) (result : ℤ) : Prop where
  owner : (r.sink.owners r.sink.writingSlot).state = .writing
  request : r.sink.request = none
  closing : r.sink.closing = false
  closed : r.sink.closed = false
  noFailure : r.failed = none
  bytes : (r.sink.owners r.sink.writingSlot).writtenBytes + result.toNat ≤
    (r.sink.deliveries r.sink.writingSlot).encodedBytes
  file : r.sink.file = r.deliveredBytes ++ (r.frames r.sink.writingSlot).take
    ((r.sink.owners r.sink.writingSlot).writtenBytes + result.toNat)

theorem Inv.finishing (h : r.Inv) (hloop : r.sink.loop = .finishWrite result) :
    r.Finishing result := by
  have hw : r.Writing := h.phase.resolve_left fun hb ↦ hb.loop result hloop
  obtain ⟨n, hn, hfile⟩ := hw.file
  rcases hn with ⟨hl, -, -, -⟩ | ⟨hl, -, -, -⟩ | ⟨hl, -, -, -⟩ | ⟨hl, -, hr, hle⟩
  · rw [hloop] at hl
    cases hl
  · rw [hloop] at hl
    simp at hl
  · rw [hloop] at hl
    simp at hl
  · rw [hloop] at hl
    cases hl
    exact ⟨hw.owner, hr, hw.closing, hw.closed, hw.failed, hle, hfile⟩

theorem Inv.resume (h : r.Inv) (hf : r.Finishing result) :
    (r.setSink { r.sink.setOwner r.sink.writingSlot
        { r.sink.owners r.sink.writingSlot with
          writtenBytes := (r.sink.owners r.sink.writingSlot).writtenBytes + result.toNat } with
      writing := false, loop := .startWrite r.sink.writingSlot }).Inv := by
  set w := r.sink.writingSlot with hw
  set o : FileOwner := { r.sink.owners w with
    writtenBytes := (r.sink.owners w).writtenBytes + result.toNat } with ho
  have hself : (r.sink.setOwner w o).owners w = o := Function.update_self ..
  have hother : ∀ i, i ≠ w → (r.sink.setOwner w o).owners i = r.sink.owners i :=
    fun i hi ↦ Function.update_of_ne hi ..
  have hstate : ∀ i, ((r.sink.setOwner w o).owners i).state = (r.sink.owners i).state := by
    intro i
    by_cases hi : i = w
    · rw [hi, hself]
    · rw [hother i hi]
  have hne : ∀ i, (r.sink.owners i).state ≠ .writing → i ≠ w := by
    rintro i hi rfl
    exact hi hf.owner
  refine { h with
    claims := ?_, reserved := ?_, queued := ?_, queued_ne := ?_, writing := ?_
    close := (absurd · (h.not_closeSubmitted hf.closing)), phase := .inr ?_ }
  · exact h.claims.keep rfl fun i hi ↦ hother i (hne i (by rw [hi]; decide))
  · exact fun i hi ↦ h.reserved i (hstate i ▸ hi)
  · intro i hi
    have hi' : (r.sink.owners i).state = .queued := hstate i ▸ hi
    obtain ⟨hlt, hstopping, hfailed, hinFlight, hwritten, hframed⟩ := h.queued i hi'
    refine ⟨hlt, hstopping, hfailed, hinFlight, ?_, hframed.buffer, hframed.stored,
      hframed.delivered⟩
    exact (congrArg _ (hother i (hne i (by rw [hi']; decide)))).trans hwritten
  · exact fun i j hi hj ↦ h.queued_ne i j (hstate i ▸ hi) (hstate j ▸ hj)
  · intro i hi
    obtain ⟨heq, hdelivered, hfailed, hframed, hafter⟩ := h.writing i (hstate i ▸ hi)
    exact ⟨heq, hdelivered, hfailed, ⟨hframed.buffer, hframed.stored, hframed.delivered⟩,
      fun j hj ↦ hafter j (hstate j ▸ hj)⟩
  · have hprogress : ∀ n, n = ((r.sink.setOwner w o).owners w).writtenBytes →
        Progress { r.sink.setOwner w o with writing := false, loop := .startWrite w } n := by
      rintro _ rfl
      refine .resuming rfl rfl hf.request ?_
      change ((r.sink.setOwner w o).owners w).writtenBytes ≤ (r.sink.deliveries w).encodedBytes
      rw [hself]
      exact hf.bytes
    exact ⟨(hstate w).trans hf.owner, hf.closing, hf.closed, hf.noFailure, _,
      hprogress _ (by rw [hself]), hf.file⟩

theorem Inv.deliver (h : r.Inv) (hf : r.Finishing result)
    (hall : (r.sink.owners r.sink.writingSlot).writtenBytes + result.toNat =
      (r.sink.deliveries r.sink.writingSlot).encodedBytes) (hfree : o.state = .free) :
    Inv { r with
      sink := { r.sink.afterWrite o .delivered with loop := .pump }
      delivered := r.delivered ++ [r.frame r.sink.writingSlot] } := by
  obtain ⟨-, hdelivered, hfailed, hframed, hafter⟩ := h.writing _ hf.owner
  have hne : ∀ i, ((r.sink.afterWrite o .delivered).owners i).state ≠ .free →
      i ≠ r.sink.writingSlot := by
    rintro i hi rfl
    rw [afterWrite_owners_self] at hi
    exact hi hfree
  have hkept : ∀ i, ((r.sink.afterWrite o .delivered).owners i).state ≠ .free →
      (r.sink.afterWrite o .delivered).owners i = r.sink.owners i ∧
        (r.sink.afterWrite o .delivered).deliveries i = r.sink.deliveries i := fun i hi ↦
    ⟨afterWrite_owners_of_ne (hne i hi), afterWrite_deliveries_of_ne (hne i hi)⟩
  have hnone : ∀ i, ((r.sink.afterWrite o .delivered).owners i).state ≠ .writing := by
    intro i hi
    have hfree' : ((r.sink.afterWrite o .delivered).owners i).state ≠ .free := by
      rw [hi]
      decide
    exact hne i hfree' (h.writing i ((hkept i hfree').1 ▸ hi)).1
  refine { h with
    claims := ?_, reserved := ?_, queued := ?_, queued_ne := ?_, writing := ?_, failed := ?_
    delivered := ?_, sorted := ?_
    close := (absurd · (h.not_closeSubmitted hf.closing)), phase := .inl ?_ }
  · refine h.claims.keep rfl fun i hi ↦ ?_
    have hi' : i ≠ r.sink.writingSlot := by
      rintro rfl
      exact absurd (hi.symm.trans hf.owner) (by decide)
    exact Function.update_of_ne hi' ..
  · intro i (hi : ((r.sink.afterWrite o .delivered).owners i).state = .reserved)
    obtain ⟨howner, hdelivery⟩ := hkept i (by rw [hi]; decide)
    change ((r.sink.afterWrite o .delivered).deliveries i).state = _
    rw [hdelivery]
    exact h.reserved i (howner ▸ hi)
  · intro i (hi : ((r.sink.afterWrite o .delivered).owners i).state = .queued)
    obtain ⟨howner, hdelivery⟩ := hkept i (by rw [hi]; decide)
    rw [howner] at hi
    obtain ⟨hlt, hstopping, hnone, hinFlight, hwritten, hframe⟩ := h.queued i hi
    refine ⟨hlt, hstopping, hnone, hdelivery.symm ▸ hinFlight, howner.symm ▸ hwritten, ?_, ?_, ?_⟩
    · change ByteMemory.read (r.sink.buffers i) 0
        ((r.sink.afterWrite o .delivered).deliveries i).encodedBytes = _
      rw [hdelivery]
      exact hframe.buffer
    · change (((r.sink.afterWrite o .delivered).deliveries i).admissionSequence, _) ∈ _
      rw [hdelivery]
      exact hframe.stored
    · intro d hd
      change d.1 < ((r.sink.afterWrite o .delivered).deliveries i).admissionSequence
      rw [hdelivery]
      rcases List.mem_append.mp hd with hd | hd
      · exact hframe.delivered d hd
      · rw [List.mem_singleton.mp hd]
        exact hafter i hi
  · intro i j (hi : ((r.sink.afterWrite o .delivered).owners i).state = .queued)
      (hj : ((r.sink.afterWrite o .delivered).owners j).state = .queued) hij
    obtain ⟨howner, hdelivery⟩ := hkept i (by rw [hi]; decide)
    obtain ⟨howner', hdelivery'⟩ := hkept j (by rw [hj]; decide)
    change ((r.sink.afterWrite o .delivered).deliveries i).admissionSequence ≠
      ((r.sink.afterWrite o .delivered).deliveries j).admissionSequence
    rw [hdelivery, hdelivery']
    exact h.queued_ne i j (howner ▸ hi) (howner' ▸ hj) hij
  · exact fun i hi ↦ absurd hi (hnone i)
  · intro d hd
    exact absurd (hf.noFailure.symm.trans hd) (by simp)
  · intro d hd
    rcases List.mem_append.mp hd with hd | hd
    · exact h.delivered d hd
    · exact List.mem_singleton.mp hd ▸ hframed.stored
  · refine List.pairwise_append.mpr ⟨h.sorted, List.pairwise_singleton .., ?_⟩
    intro d hd e he
    rw [List.mem_singleton.mp he]
    exact hframed.delivered d hd
  · refine ⟨⟨hnone, rfl, hf.request, nofun, nofun⟩, [], ?_, fun _ ↦ rfl, fun d hd ↦ ?_⟩
    · have hlength : (r.frames r.sink.writingSlot).length =
          (r.sink.deliveries r.sink.writingSlot).encodedBytes := by
        rw [← hframed.buffer, length_read]
      have hfile := hf.file
      rw [hall, ← hlength, List.take_length] at hfile
      change r.sink.file = (r.delivered ++ [r.frame r.sink.writingSlot]).flatMap (·.2) ++ []
      rw [hfile, List.flatMap_append, List.append_nil, List.flatMap_singleton]
      rfl
    · exact absurd (hf.noFailure.symm.trans hd) (by simp)

end FileRun

namespace FileRun

open FileSink

variable {r r' : FileRun} {o : FileOwner} {result : ℤ} {conv : Charconv}

/-- The frame fails: what is in the file of it stays, and everything queued is cancelled. -/
theorem Inv.fail (h : r.Inv) (hf : r.Finishing result) {e : ℤ} (he : e ≠ 0)
    (hfree : o.state = .free) :
    Inv { r with
      sink := { { r.sink.afterWrite o .failed with failureError := e }.cancelQueued with
        loop := .pump }
      failed := some (r.frame r.sink.writingSlot) } := by
  obtain ⟨-, -, -, hframed, -⟩ := h.writing _ hf.owner
  set s : FileSink := { r.sink.afterWrite o .failed with failureError := e } with hs
  have hwslot : s.owners r.sink.writingSlot = o := Function.update_self ..
  have hother : ∀ i, i ≠ r.sink.writingSlot →
      s.owners i = r.sink.owners i ∧ s.deliveries i = r.sink.deliveries i :=
    fun i hi ↦ ⟨Function.update_of_ne hi .., Function.update_of_ne hi ..⟩
  have hlt : ∀ i, (s.owners i).state = .queued → i < s.bufferCount := by
    intro i hi
    have hi' : i ≠ r.sink.writingSlot := by
      rintro rfl
      rw [hwslot, hfree] at hi
      cases hi
    exact (h.queued i ((hother i hi').1 ▸ hi)).1
  have hcancel := cancelQueued_owners hlt
  -- a reserved buffer is neither the one being written nor a cancelled one
  have hreserved : ∀ i, (r.sink.owners i).state = .reserved →
      s.cancelQueued.owners i = r.sink.owners i ∧
        s.cancelQueued.deliveries i = r.sink.deliveries i := by
    intro i hi
    have hi' : i ≠ r.sink.writingSlot := by
      rintro rfl
      exact absurd (hi.symm.trans hf.owner) (by decide)
    obtain ⟨howner, hdelivery⟩ := hother i hi'
    obtain ⟨hsame, hsame'⟩ := (hcancel i).2.1 (by rw [howner, hi]; decide)
    exact ⟨hsame.trans howner, hsame'.trans hdelivery⟩
  have hstate : ∀ i, (s.cancelQueued.owners i).state = .free ∨
      i ≠ r.sink.writingSlot ∧ s.cancelQueued.owners i = r.sink.owners i ∧
        (r.sink.owners i).state ≠ .queued := by
    intro i
    by_cases hq : (s.owners i).state = .queued
    · exact .inl ((hcancel i).2.2 hq)
    · obtain ⟨hsame, -⟩ := (hcancel i).2.1 hq
      by_cases hi : i = r.sink.writingSlot
      · refine .inl ?_
        rw [hsame, hi, hwslot, hfree]
      · exact .inr ⟨hi, hsame.trans (hother i hi).1, (hother i hi).1 ▸ hq⟩
  have hnone : ∀ i, (s.cancelQueued.owners i).state ≠ .writing := by
    intro i hi
    rcases hstate i with hfree' | ⟨hne, heq, -⟩
    · exact absurd (hfree'.symm.trans hi) (by decide)
    · exact hne (h.writing i (heq ▸ hi)).1
  refine { h with
    claims := ?_, reserved := ?_, queued := ?_, queued_ne := ?_, writing := ?_, failure := ?_
    failed := ?_, close := (absurd · (h.not_closeSubmitted hf.closing)), phase := .inl ?_ }
  · exact h.claims.keep rfl fun i hi ↦ (hreserved i hi).1
  · intro i (hi : (s.cancelQueued.owners i).state = .reserved)
    rcases hstate i with hfree' | ⟨-, heq, -⟩
    · exact absurd (hfree'.symm.trans hi) (by decide)
    · rw [heq] at hi
      exact (congrArg _ (hreserved i hi).2).trans (h.reserved i hi)
  · exact fun i hi ↦ absurd hi (hcancel i).1
  · exact fun i j hi ↦ absurd hi (hcancel i).1
  · exact fun i hi ↦ absurd hi (hnone i)
  · exact iff_of_false he (by simp)
  · rintro d ⟨⟩
    exact ⟨hframed.stored, hframed.delivered⟩
  · refine ⟨⟨hnone, rfl, hf.request, nofun, nofun⟩, _, hf.file, nofun, ?_⟩
    rintro d ⟨⟩
    exact List.take_prefix ..

/-- The three ends of a write, with the frame that is delivered or has failed. -/
theorem Inv.afterLoop_finishWrite (h : r.Inv) (hloop : r.sink.loop = .finishWrite result) :
    (∃ o e, o.state = .free ∧ e ≠ 0 ∧ r.afterLoop (r.sink.finishWrite result) =
      { r with
        sink := { { r.sink.afterWrite o .failed with failureError := e }.cancelQueued with
          loop := .pump }
        failed := some (r.frame r.sink.writingSlot) }) ∨
    r.afterLoop (r.sink.finishWrite result) =
      r.setSink { r.sink.setOwner r.sink.writingSlot
          { r.sink.owners r.sink.writingSlot with
            writtenBytes := (r.sink.owners r.sink.writingSlot).writtenBytes + result.toNat } with
        writing := false, loop := .startWrite r.sink.writingSlot } ∨
    (r.sink.owners r.sink.writingSlot).writtenBytes + result.toNat =
        (r.sink.deliveries r.sink.writingSlot).encodedBytes ∧
      ∃ o, o.state = .free ∧ r.afterLoop (r.sink.finishWrite result) =
        { r with
          sink := { r.sink.afterWrite o .delivered with loop := .pump }
          delivered := r.delivered ++ [r.frame r.sink.writingSlot] } := by
  have hf := h.finishing hloop
  obtain ⟨-, hdelivered, hfailed, -, -⟩ := h.writing _ hf.owner
  rcases finishWrite_cases hf.bytes with ⟨o, e, hfree, he, heq⟩ | heq | ⟨hall, o, hfree, heq⟩
  · refine .inl ⟨o, e, hfree, he, ?_⟩
    have hstate : ((r.sink.finishWrite result).deliveries r.sink.writingSlot).state = .failed := by
      rw [heq]
      simp [cancelQueued, afterWrite, setOwner, setDelivery, hfree]
    rw [afterLoop, reached, reached, hstate, if_neg (by simp), if_pos ⟨hfailed, rfl⟩, heq,
      Option.toList_none, List.append_nil, Option.some_or]
  · refine .inr (.inl ?_)
    rw [afterLoop_eq_setSink (by rw [heq]; rfl), heq]
  · refine .inr (.inr ⟨hall, o, hfree, ?_⟩)
    have hstate :
        ((r.sink.finishWrite result).deliveries r.sink.writingSlot).state = .delivered := by
      rw [heq]
      simp [afterWrite, setOwner, setDelivery]
    rw [afterLoop, reached, reached, hstate, if_pos ⟨hdelivered, rfl⟩, if_neg (by simp), heq,
      Option.toList_some, Option.none_or]

theorem Inv.finishWrite (h : r.Inv) (hloop : r.sink.loop = .finishWrite result) :
    (r.afterLoop (r.sink.finishWrite result)).Inv := by
  have hf := h.finishing hloop
  rcases h.afterLoop_finishWrite hloop with ⟨o, e, hfree, he, heq⟩ | heq | ⟨hall, o, hfree, heq⟩ <;>
    rw [heq]
  · exact h.fail hf he hfree
  · exact h.resume hf
  · exact h.deliver hf hall hfree

/-! ## Runs -/

theorem inv_init (bufferCount maximumRecordBytes : ℕ) (faults : FileFaultPlan) :
    (machine conv bufferCount maximumRecordBytes faults).init.Inv := by
  refine
    { claims := ⟨nofun, List.nodup_nil⟩
      storing := nofun
      stored := nofun
      storedSorted := List.Pairwise.nil
      reserved := nofun
      queued := nofun
      queued_ne := nofun
      writing := nofun
      failure := ⟨fun _ ↦ rfl, fun _ ↦ rfl⟩
      failed := nofun
      delivered := nofun
      sorted := List.Pairwise.nil
      close := nofun
      phase := .inl ?_ }
  exact ⟨⟨nofun, rfl, rfl, nofun, nofun⟩, [], rfl, fun _ ↦ rfl, nofun⟩

theorem Inv.step (h : r.Inv) {a : FileAction} (hok : r.Disciplined a)
    (hstep : r.step conv a = some r') : r'.Inv := by
  have hqueued : ∀ i, (r.sink.owners i).state = .queued → i < r.sink.bufferCount :=
    fun i hi ↦ (h.queued i hi).1
  cases Move.of_step hstep with
  | opened _ hidle => exact h.locked workerStep_of_slots hidle rfl fun _ _ ↦ rfl
  | tryClaimWrite hidle => exact h.tryClaimWrite hidle
  | resetClaim hclaim hidle => exact h.resetClaim hidle hclaim
  | encode hclaim hstoring => exact h.encode hclaim hstoring hok
  | store hcall hidle => exact h.finishStore hidle hcall
  | tryRetire hidle =>
    exact h.locked (workerStep_tryRetire fun i hi ↦ (h.queued i hi).2.2.2.1) hidle rfl
      fun _ _ ↦ rfl
  | requestClose hidle => exact h.locked workerStep_of_slots hidle rfl fun _ _ ↦ rfl
  | stop hidle =>
    refine h.locked (workerStep_stop hqueued) hidle rfl fun i hi ↦ ?_
    exact ((cancelQueued_owners hqueued i).2.1 (by rw [hi]; decide)).1
  | discardInFlight hidle =>
    refine h.locked (workerStep_discardInFlight fun i hi ↦ ?_) hidle rfl fun _ _ ↦ rfl
    exact absurd hok (by rw [Disciplined, (h.queued i hi).2.1]; decide)
  | wake hidle => exact h.setLoop (.inl hidle) (.inr rfl)
  | pump hloop =>
    rw [afterLoop_eq_setSink (pump_deliveries ..)]
    exact h.pump hloop
  | @startWrite submit _ hloop =>
    rw [afterLoop_eq_setSink (startWrite_deliveries ..)]
    exact h.startWrite hloop submit
  | finishWrite hloop => exact h.finishWrite hloop
  | @startClose submit hloop =>
    rw [afterLoop_eq_setSink (startClose_deliveries ..)]
    exact h.startClose hloop submit
  | finishClose hloop =>
    rw [afterLoop_eq_setSink (by rfl)]
    exact h.finishClose hloop
  | executeWrite hrequest hle => exact h.executeWrite hrequest hle
  | writeComplete hrequest _ => exact h.onWriteComplete hrequest
  | closeComplete hsubmitted _ =>
    have hb : r.Between := h.phase.resolve_right fun hw ↦
      h.not_closeSubmitted hw.closing hsubmitted
    exact h.setPhase rfl rfl rfl rfl rfl rfl rfl nofun
      (.inl ⟨hb.toQuiet.setLoop nofun nofun, hb.file⟩)

end FileRun

/-! ## The contents of the file -/

namespace FileSink

/-- A write has failed, or the file is being closed or is closed. -/
def Ended (s : FileSink) : Prop := s.failureError ≠ 0 ∨ s.closing = true ∨ s.closed = true

end FileSink

namespace FileRun

open FileSink

variable {r r' : FileRun} {conv : Charconv}

theorem Inv.not_ended_of_writing (h : r.Inv) (hw : r.Writing) : ¬r.sink.Ended := by
  rintro (hfailure | hclosing | hclosed)
  · exact hfailure (h.failure.mpr hw.failed)
  · exact absurd (hclosing.symm.trans hw.closing) (by decide)
  · exact absurd (hclosed.symm.trans hw.closed) (by decide)

/-- After a failure, and once the close has begun, the file does not change any more. -/
theorem Inv.ended_step (h : r.Inv) (hended : r.sink.Ended) {a : FileAction}
    (hstep : r.step conv a = some r') : r'.sink.file = r.sink.file ∧ r'.sink.Ended := by
  cases Move.of_step hstep with
  | tryClaimWrite _ =>
    change r.sink.tryClaimWrite.1.file = _ ∧ r.sink.tryClaimWrite.1.Ended
    rw [FileSink.tryClaimWrite]
    split
    · exact ⟨rfl, hended⟩
    · split <;> exact ⟨rfl, hended⟩
  | @resetClaim _ identity _ _ =>
    change (r.sink.resetClaim identity).file = _ ∧ (r.sink.resetClaim identity).Ended
    rw [FileSink.resetClaim]
    split <;> exact ⟨rfl, hended⟩
  | store hcall _ =>
    rcases finishStore_cases h hcall with ⟨heq, -, -⟩ | ⟨o, d, -, -, heq⟩ <;> rw [heq] <;>
      exact ⟨rfl, hended⟩
  | opened _ _ | encode _ _ | tryRetire _ | requestClose _ | stop _ | discardInFlight _ | wake _
  | closeComplete _ _ => exact ⟨rfl, hended⟩
  | pump _ =>
    change r.sink.pump.file = _ ∧ r.sink.pump.Ended
    rw [FileSink.pump]
    split
    · exact ⟨rfl, hended⟩
    · dsimp only
      split <;> exact ⟨rfl, hended⟩
  | startWrite hloop =>
    have hs := h.startable hloop
    refine absurd hended ?_
    rintro (hfailure | hclosing | hclosed)
    · exact hfailure (h.failure.mpr hs.noFailure)
    · exact absurd (hclosing.symm.trans hs.closing) (by decide)
    · exact absurd (hclosed.symm.trans hs.closed) (by decide)
  | finishWrite hloop =>
    exact absurd hended
      (h.not_ended_of_writing (h.phase.resolve_left fun hb ↦ hb.loop _ hloop))
  | @startClose submit _ =>
    change (r.sink.startClose submit).file = _ ∧ (r.sink.startClose submit).Ended
    rw [FileSink.startClose]
    dsimp only
    split
    · exact ⟨rfl, .inr (.inl rfl)⟩
    · split <;> exact ⟨rfl, .inr (.inl rfl)⟩
  | finishClose _ => exact ⟨rfl, .inr (.inr rfl)⟩
  | executeWrite hrequest _ =>
    exact absurd hended (h.not_ended_of_writing (h.writing_of_request hrequest))
  | writeComplete hrequest _ =>
    exact absurd hended (h.not_ended_of_writing (h.writing_of_request hrequest))

/-- What the file holds in a state of a run, and after it. -/
structure WholeFrames (conv : Charconv) (r : FileRun) : Prop where
  /-- The delivered frames come in increasing sequence, each of them as it was stored. -/
  sorted : r.delivered.Pairwise (·.1 < ·.1)
  stored : r.stored.Pairwise (·.1 < ·.1) ∧ ∀ d ∈ r.delivered, d ∈ r.stored
  /-- They fill the file up to a part of one later frame, being written or failed. Without a failure
  and with no active write, in particular after `Stop`, there is no such part. -/
  file : ∃ tail, r.sink.file = r.delivered.flatMap (·.2) ++ tail ∧
    (tail = [] ∨ ∃ d ∈ r.stored, (r.writingFrame = some d ∨ r.failed = some d) ∧ tail <+: d.2 ∧
      ∀ e ∈ r.delivered, e.1 < d.1) ∧
    (r.sink.failureError = 0 → r.sink.writing = false → r.sink.loop = .idle → tail = [])
  /-- Nothing is appended after a failure or after the close. -/
  ended : r.sink.Ended → ∀ a r', r.step conv a = some r' →
    r'.sink.file = r.sink.file ∧ r'.sink.Ended

theorem wholeFrames {bufferCount maximumRecordBytes : ℕ} {faults : FileFaultPlan}
    (h : (machine conv bufferCount maximumRecordBytes faults).Reach Disciplined r) :
    r.WholeFrames conv := by
  have hinv : r.Inv := h.invariant (inv_init ..) fun _ _ _ hinv hok hstep ↦ hinv.step hok hstep
  refine ⟨hinv.sorted, ⟨hinv.storedSorted, hinv.delivered⟩, ?_,
    fun hended _ _ hstep ↦ hinv.ended_step hended hstep⟩
  rcases hinv.phase with hb | hw
  · obtain ⟨tail, hfile, hnone, hsome⟩ := hb.file
    refine ⟨tail, hfile, ?_, fun hfailure _ _ ↦ hnone (hinv.failure.mp hfailure)⟩
    cases hfailed : r.failed with
    | none => exact .inl (hnone hfailed)
    | some d =>
      obtain ⟨hstored, hbelow⟩ := hinv.failed d hfailed
      exact .inr ⟨d, hstored, .inr rfl, hsome d hfailed, hbelow⟩
  · obtain ⟨n, hn, hfile⟩ := hw.file
    obtain ⟨-, -, -, hframed, -⟩ := hinv.writing _ hw.owner
    refine ⟨_, hfile, .inr ⟨r.frame r.sink.writingSlot, hframed.stored, .inl ?_,
      List.take_prefix .., hframed.delivered⟩, fun _ hidle hloop ↦ ?_⟩
    · rw [writingFrame, if_pos hw.owner]
    · rw [hn.writing_of_loop (.inl hloop)] at hidle
      cases hidle

/-- A run in which the first of two frames is delivered after a partial write and the second one is
cut short by an error. -/
theorem wholeFrames_partial : ∃ r,
    (machine .blank 2 8 {}).Reach Disciplined r ∧ r.delivered.length = 1 ∧
      r.failed.isSome ∧ r.sink.file.length = 15 ∧
      r.WholeFrames .blank := by
  have hrun : (machine .blank 2 8 {}).run Disciplined
      (machine .blank 2 8 {}).init
      [.opened, .tryClaimWrite, .encode 0 0 ⟨fun _ ↦ 0, 0, 0⟩, .store, .tryClaimWrite,
        .encode 0 1 ⟨fun _ ↦ 0, 0, 0⟩, .store, .wake, .loop 0, .loop 0, .executeWrite 3,
        .writeComplete, .loop 0, .loop 0, .executeWrite 8, .writeComplete, .loop 0, .loop 0,
        .loop 0, .executeWrite 4, .writeComplete, .loop 0, .loop 0, .executeWrite (-5),
        .writeComplete, .loop 0] = some _ := rfl
  have hreach := Machine.Reach.of_run .init hrun
  exact ⟨_, hreach, rfl, rfl, rfl, wholeFrames hreach⟩

end FileRun

end Ulog
