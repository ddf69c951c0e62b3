import Ulog.Runtime.Drains
import Ulog.Runtime.Retirement

/-!
# From accepted Records to the bytes of a file

The file of a Runtime is at every moment a prefix of the Raw frames of the accepted Records, in the
order of acceptance. A Drain that succeeds reports what was retired below its watermark, and if it
reports no failure, the frames of all Records that were accepted before it was started are complete
in the file. After a Shutdown that succeeded the file is closed and nothing is missing.
-/

namespace Ulog

namespace RuntimeDomain

variable {conv : Charconv} {setup : RuntimeSetup} {d : RuntimeDomain} {r : FileRun}
  {ok : RuntimeDomain → DomainAction → Prop} {writeBuffers : ℕ} {faults : FileFaultPlan}
  {result : OperationResult}

theorem bounded_empty : Charconv.Bounded .blank := fun _ ↦ Nat.zero_le _

/-! ## The contents of the file -/

/-- The contents of frames, if each of them is the frame of something. -/
theorem exists_contents {P : ℕ → RecordContent → Prop} (frames : List (ℕ × Bytes))
    (h : ∀ n e, frames[n]? = some e → ∃ c, P n c ∧ e.2 = rawFrame conv c) :
    ∃ contents : List RecordContent, contents.length = frames.length ∧
      (∀ n c, contents[n]? = some c → P n c) ∧
      frames.flatMap (·.2) = contents.flatMap (rawFrame conv) := by
  induction frames using List.reverseRecOn with
  | nil => exact ⟨[], rfl, by rintro _ _ ⟨⟩, rfl⟩
  | append_singleton frames e ih =>
    obtain ⟨contents, hlength, hcontents, hframes⟩ := ih fun n e' he' ↦
      h n e' (getElem?_mono (List.prefix_append ..) he')
    obtain ⟨c, hc, hframe⟩ := h frames.length e List.getElem?_concat_length
    refine ⟨contents ++ [c], by rw [List.length_append, List.length_append, hlength]; rfl,
      fun n c' hc' ↦ ?_, ?_⟩
    · rcases Nat.lt_or_ge n contents.length with hlt | hge
      · rw [List.getElem?_append_left hlt] at hc'
        exact hcontents n c' hc'
      · rw [List.getElem?_append_right hge, List.getElem?_singleton] at hc'
        obtain ⟨hn, heq⟩ := Option.ite_none_right_eq_some.mp hc'
        cases heq
        have hn : n = frames.length := by omega
        exact hn ▸ hc
    · rw [List.flatMap_append, List.flatMap_append, hframes, List.flatMap_singleton,
        List.flatMap_singleton, hframe]

/-- The file is the Raw frames of the first accepted Records, in the order of acceptance. Behind
them is at most a part of the frame of the next. -/
structure FileHolds (conv : Charconv) (setup : RuntimeSetup) (d : RuntimeDomain) (file : Bytes)
    (contents : List RecordContent) (tail : Bytes) : Prop where
  accepted : ∀ n c, contents[n]? = some c → d.Accepted conv setup n c
  file : file = contents.flatMap (rawFrame conv) ++ tail
  tail : tail = [] ∨ ∃ c, d.Accepted conv setup contents.length c ∧ tail <+: rawFrame conv c

/-- Records that were retired as delivered are complete in the file. -/
theorem Accounted.holds (h : Accounted conv setup d r) :
    ∃ contents tail, d.FileHolds conv setup r.sink.file contents tail ∧
      ∀ n, (n, .delivered) ∈ d.retirements → n < contents.length := by
  have hfiled := h.filing.filed
  obtain ⟨tail, hfile, htail⟩ := hfiled.streamed.file hfiled.inv
  have hstored : ∀ (n : ℕ) (e : ℕ × Bytes), r.delivered[n]? = some e →
      e.1 = n ∧ d.IsFrame conv setup n e.2 := fun n e he ↦
    hfiled.stored n e (getElem?_mono hfiled.streamed.delivered he)
  obtain ⟨contents, hlength, hcontents, hframes⟩ := exists_contents r.delivered fun n e he ↦
    (hstored n e he).2
  refine ⟨contents, tail, ⟨hcontents, by rw [hfile, hframes], ?_⟩, fun n hn ↦ ?_⟩
  · rcases htail with rfl | ⟨e, he, hpart⟩
    · exact .inl rfl
    · obtain ⟨-, c, haccepted, hframe⟩ := hfiled.stored _ e he
      rw [hlength]
      exact .inr ⟨c, haccepted, hframe ▸ hpart⟩
  · obtain ⟨e, he, rfl⟩ := List.mem_map.mp (h.retired.bears _ hn)
    obtain ⟨m, hm⟩ := List.mem_iff_getElem?.mp he
    rw [(hstored m e hm).1, hlength]
    exact (List.getElem?_eq_some_iff.mp hm).1

theorem file_holds (h : (machine conv setup).Reach ok d) (hconv : conv.Bounded)
    (hroute : setup.route = .file writeBuffers faults) :
    ∃ r contents tail, d.route = .file r ∧ d.FileHolds conv setup r.sink.file contents tail ∧
      ∀ n, (n, .delivered) ∈ d.retirements → n < contents.length := by
  obtain ⟨r, hr⟩ := exists_accounted h hconv hroute
  obtain ⟨contents, tail, hholds⟩ := hr.holds
  exact ⟨r, contents, tail, hr.filing.route, hholds⟩

theorem file_holds_one : ∃ d r contents tail, oneBuffer.Reachable d ∧ d.route = .file r ∧
    d.FileHolds .blank .oneBuffer r.sink.file contents tail := by
  obtain ⟨d, -, -, hreach, -⟩ := exists_succeeded .drain
  obtain ⟨r, contents, tail, hroute, hholds, -⟩ := file_holds hreach bounded_empty rfl
  exact ⟨d, r, contents, tail, hreach, hroute, hholds⟩

/-- No Record of a file is lost to its encoding, and no failure goes unnoticed: with a failed Record
the sink has an error, the Runtime keeps the error that it reports, and it never finishes a Shutdown
behind a failed Record. -/
theorem failure_noticed (h : (machine conv setup).Reach ok d) (hconv : conv.Bounded)
    (hroute : setup.route = .file writeBuffers faults) :
    ∃ r, d.route = .file r ∧
      (∀ n, d.worker ≠ .recordEncodingFailure n) ∧ d.ledger.encodingFailedSequence = none ∧
      (∀ n, (n, .failed) ∈ d.retirements → r.sink.failureError ≠ 0) ∧
      (d.routeFailed = true → d.routeIoError ≠ 0) ∧
      (d.shutdownOutcome ≠ none → ∀ e ∈ d.retirements, e.2 = .delivered) := by
  obtain ⟨r, hr⟩ := exists_accounted h hconv hroute
  refine ⟨r, hr.filing.route, fun n hpc ↦ ?_, hr.retired.encoding, fun n hn ↦ hr.retired.bears _ hn,
    hr.vouched.failed, fun hne ↦ ?_⟩
  · have hsubmits := hr.filing.submits
    rw [hpc] at hsubmits
    exact hsubmits
  · obtain ⟨outcome, hsome⟩ := Option.ne_none_iff_exists'.mp hne
    exact (hr.vouched.ended outcome hsome).1

/-- Behind the retirement of a Record that could not be written. -/
def failedStored : List DomainAction :=
  List.flatten [oneStored,
    [.executeWrite (-28), .writeComplete, .loop 0, .loop 0].map (.route ∘ .file),
    List.replicate 3 .worker]

theorem failure_noticed_one : ∃ d r, oneBuffer.Reachable d ∧ d.route = .file r ∧
    (0, .failed) ∈ d.retirements ∧ r.sink.failureError ≠ 0 ∧ d.routeFailed = true ∧
    d.routeIoError ≠ 0 := by
  obtain ⟨d, hreach, htest⟩ := Machine.Reach.exists_of_run oneBuffer (fun _ _ ↦ True)
    (fun d ↦ d.retirements == [(0, .failed)] && d.routeFailed)
    (failedStored ++ List.replicate 3 .worker) (by decide +kernel)
  rw [Bool.and_eq_true, beq_iff_eq] at htest
  obtain ⟨r, hroute, -, -, hfailed, herror, -⟩ := failure_noticed hreach bounded_empty rfl
  have hmem : (0, .failed) ∈ d.retirements := htest.1 ▸ .head _
  exact ⟨d, r, hreach, hroute, hmem, hfailed 0 hmem, htest.2, herror htest.2⟩

theorem exists_outcome {retirements : List (ℕ × DeliveryOutcome)} {m n : ℕ}
    (horder : retirements.map (·.1) = List.range m) (hn : n < m) : ∃ o, (n, o) ∈ retirements := by
  rw [← List.mem_range, ← horder] at hn
  obtain ⟨⟨n, o⟩, he, rfl⟩ := List.mem_map.mp hn
  exact ⟨o, he⟩

/-! ## Barriers -/

/-- On a file such an action reports the retirements, and if none has failed, the Records below the
watermark are complete in the file. -/
theorem drain_file (h : (machine conv setup).Reach ok d) (hconv : conv.Bounded)
    (hroute : setup.route = .file writeBuffers faults) {s : Start} (hs : s ∈ d.started)
    (hpublished : (s.ref, result) ∈ d.control.published)
    (hsucceeded : result.outcome = .succeeded) :
    s.accepted ≤ result.report.watermarkRecords ∧
      result.report.Reports (d.retirements.take result.report.watermarkRecords) ∧
      ∃ r contents tail, d.route = .file r ∧
        d.FileHolds conv setup r.sink.file contents tail ∧
        (result.report.failedRecords = 0 → result.report.watermarkRecords ≤ contents.length) := by
  obtain ⟨dec, hdec, -, -, houtcome, hreport, hcovers⟩ := publishes h s hs result hpublished
  have hreports := reports_of_reach h hdec (houtcome.trans hsucceeded)
  rw [hreport] at hreports
  obtain ⟨r, hr⟩ := exists_accounted h hconv hroute
  obtain ⟨contents, tail, hholds, hdelivered⟩ := hr.holds
  refine ⟨hcovers, hreports, r, contents, tail, hr.filing.route, hholds, fun hnone ↦ ?_⟩
  by_contra hlt
  obtain ⟨o, he⟩ := exists_outcome hreports.order (Nat.not_le.mp hlt)
  cases o with
  | delivered => exact Nat.lt_irrefl _ (hdelivered _ (List.mem_of_mem_take he))
  | failed =>
    rw [hreports.failed, List.countP_eq_zero] at hnone
    exact hnone _ he (by simp)

theorem drain_file_one : ∃ d s result r contents tail, oneBuffer.Reachable d ∧ s ∈ d.started ∧
    s.kind = .drain ∧ (s.ref, result) ∈ d.control.published ∧
    1 ≤ result.report.watermarkRecords ∧ d.route = .file r ∧
    d.FileHolds .blank .oneBuffer r.sink.file contents tail := by
  obtain ⟨d, s, result, hreach, hs, hkind, haccepted, hpublished, hsucceeded, -⟩ :=
    exists_succeeded .drain
  obtain ⟨hcovers, -, r, contents, tail, hroute, hholds, -⟩ :=
    drain_file hreach bounded_empty rfl hs hpublished hsucceeded
  exact ⟨d, s, result, r, contents, tail, hreach, hs, hkind, hpublished, haccepted ▸ hcovers,
    hroute, hholds⟩

/-! ## Failures -/

/-- `StartAction` finds a Drain done at once only while nothing has failed. -/
def drainsInTime (d : RuntimeDomain) : DomainAction → Bool
  | .caller t =>
    match d.callers t with
    | .watermark .drain _ none =>
      d.acceptedRecords != d.ledger.retiredRecords || d.ledger.failedRecords == 0
    | _ => true
  | _ => true

theorem Decides.failed {action : DomainAction} {kind : ControlActionKind} {c watermark : ℕ}
    (h : d.Decides setup action kind c .succeeded watermark)
    (hreach : (machine conv setup).Reach ok d) (hok : d.drainsInTime action = true)
    (hconv : conv.Bounded) (hroute : setup.route = .file writeBuffers faults) :
    d.retirements.countP (·.2 = .failed) = 0 := by
  obtain ⟨-, hsettled, -⟩ := h.succeeded hreach
  obtain ⟨r, hr⟩ := exists_accounted hreach hconv hroute
  suffices hall : d.Delivers ∨ d.ledger.failedRecords = 0 by
    rcases hall with hdelivers | hnone
    · exact List.countP_eq_zero.mpr fun e he ↦ by simp [hdelivers e he]
    · exact ((Counted.of_reach hreach).counts.outcomes hsettled).2.symm.trans hnone
  generalize houtcome : OperationOutcome.succeeded = outcome at h
  cases h with
  | ready hpc => exact .inl (hr.vouched.going (by rw [hpc]; rfl))
  | @leaving exit _ _ hpc =>
    have hstage : d.StageOk d.worker.stage := .of_reach hreach
    rw [hpc] at hstage
    cases exit with
    | destruction | routeFailure => cases houtcome
    | shutdown => exact .inl (hr.vouched.ended _ hstage.2.2.1).1
  | @refused t _ _ _ _ hpc =>
    have hself := (Backed.of_reach hreach).callers t
    rw [hpc, ← houtcome] at hself
    exact .inl (hr.vouched.ended _ hself.2.1).1
  | drained hpc hretired =>
    rw [drainsInTime, hpc] at hok
    exact .inr (by simpa [hretired] using hok)

/-- Without such a Drain no Drain or Shutdown of a file succeeds over a failed Record. -/
theorem outcome_ne_succeeded (h : (machine conv setup).Reach (fun d a ↦ d.drainsInTime a = true) d)
    (hconv : conv.Bounded) (hroute : setup.route = .file writeBuffers faults) {s : Start}
    (hs : s ∈ d.started) (hpublished : (s.ref, result) ∈ d.control.published) {n : ℕ}
    (hfailed : (n, .failed) ∈ d.retirements) (hn : n < result.report.watermarkRecords) :
    result.outcome ≠ .succeeded := by
  intro hsucceeded
  obtain ⟨dec, hdec, -, -, houtcome, hreport, -⟩ := publishes h s hs result hpublished
  rw [← houtcome] at hsucceeded
  have hreports := reports_of_reach h hdec hsucceeded
  have hnone := forall_decisions
    (P := fun _ dec ↦ dec.outcome = .succeeded → dec.report.failedRecords = 0) h
    (fun _ _ _ _ _ _ ↦ id) (fun d action kind c outcome watermark hd hok hdecides houtcome ↦ ?_)
    dec hdec hsucceeded
  · rw [hreports.failed, List.countP_eq_zero] at hnone
    obtain ⟨o, he⟩ := exists_outcome hreports.order (hreport ▸ hn)
    have hnodup : (d.retirements.map (·.1)).Nodup :=
      (Counted.of_reach h).counts.order ▸ List.nodup_range
    cases List.inj_on_of_nodup_map hnodup (List.mem_of_mem_take he) hfailed rfl
    exact hnone _ he (by simp)
  · obtain rfl : outcome = .succeeded := houtcome
    obtain ⟨rfl, hsettled, hretired⟩ := hdecides.succeeded hd
    exact (reports hd hsettled hretired).failed.trans
      (hdecides.failed hd hok hconv hroute)

theorem outcome_ne_succeeded_one : ∃ d s result, oneBuffer.Reachable d ∧ s ∈ d.started ∧
    (s.ref, result) ∈ d.control.published ∧ (0, .failed) ∈ d.retirements ∧
    0 < result.report.watermarkRecords ∧ result.outcome ≠ .succeeded := by
  obtain ⟨d, hreach, htest⟩ := Machine.Reach.exists_of_run oneBuffer
    (fun d a ↦ d.drainsInTime a = true)
    (fun d ↦ d.retirements == [(0, .failed)] && d.started.any fun s ↦
      d.control.published.any fun e ↦ e.1 == s.ref && e.2.report.watermarkRecords == 1)
    (List.flatten [failedStored, List.replicate 5 .worker, (advances 0 12).map .kernel,
      List.replicate 37 .worker, List.replicate 2 (.control (.advance 1))])
    (by decide +kernel)
  simp only [Bool.and_eq_true, List.any_eq_true, beq_iff_eq] at htest
  obtain ⟨hretirements, s, hs, ⟨ref, result⟩, hpublished, rfl, hwatermark⟩ := htest
  have hfailed : (0, .failed) ∈ d.retirements := hretirements ▸ .head _
  have hlt : 0 < result.report.watermarkRecords := by rw [hwatermark]; exact Nat.one_pos
  exact ⟨d, s, result, hreach.mono fun _ _ _ ↦ trivial, hs, hpublished, hfailed, hlt,
    outcome_ne_succeeded hreach bounded_empty rfl hs hpublished hfailed hlt⟩

/-- A Drain that is started when the worker has retired a failed Record, but has not looked for the
error, succeeds. -/
theorem succeeded_over_failure : ∃ d s result, oneBuffer.Reachable d ∧ s ∈ d.started ∧
    s.kind = .drain ∧ (s.ref, result) ∈ d.control.published ∧ d.retirements = [(0, .failed)] ∧
    result.report.watermarkRecords = 1 ∧ result.report.failedRecords = 1 ∧
    result.outcome = .succeeded := by
  obtain ⟨d, hreach, htest⟩ := Machine.Reach.exists_of_run oneBuffer (fun _ _ ↦ True)
    (fun d ↦ d.retirements == [(0, .failed)] && d.started.any fun s ↦ s.kind == .drain &&
      d.control.published.any fun e ↦ e.1 == s.ref && e.2.report.watermarkRecords == 1 &&
        e.2.report.failedRecords == 1 && e.2.outcome == .succeeded)
    (List.flatten [failedStored, [.startAction 2 .drain 1], List.replicate 3 (.caller 2),
      [.control (.advance 2)]])
    (by decide +kernel)
  simp only [Bool.and_eq_true, List.any_eq_true, beq_iff_eq] at htest
  obtain ⟨hretirements, s, hs, hkind, ⟨ref, result⟩, hpublished, ⟨⟨rfl, hwatermark⟩, hcount⟩,
    hsucceeded⟩ := htest
  exact ⟨d, s, result, hreach, hs, hkind, hpublished, hretirements, hwatermark, hcount, hsucceeded⟩

/-! ## The end -/

theorem FileHolds.decode {file : Bytes} {contents : List RecordContent}
    (h : d.FileHolds conv setup file contents []) (hconv : conv.Plain) :
    decodeFrames file = some (contents.map (rawPairs conv)) := by
  have hframes : contents.flatMap (rawFrame conv) =
      contents.flatMap fun c ↦ frameBody conv c ++ [recordTerminator] :=
    List.flatMap_congr fun c _ ↦ rawFrame_eq hconv c
  rw [h.file, List.append_nil, hframes]
  exact decodeFrames_frames contents

/-- After a Shutdown of a file that succeeded the file is closed, and it is the Raw frames of all
Records that were ever accepted. It decodes to their contents, and the report counts all of them as
delivered. -/
theorem shutdown_file (h : (machine conv setup).Reach ok d) (hconv : conv.Bounded)
    (hroute : setup.route = .file writeBuffers faults) {s : Start} (hs : s ∈ d.started)
    (hkind : s.kind = .shutdown) (hpublished : (s.ref, result) ∈ d.control.published)
    (hsucceeded : result.outcome = .succeeded) :
    ∃ r contents, d.route = .file r ∧ r.sink.closeOutcome = some 0 ∧
      d.FileHolds conv setup r.sink.file contents [] ∧ contents.length = d.acceptedRecords ∧
      (conv.Plain → decodeFrames r.sink.file = some (contents.map (rawPairs conv))) ∧
      result.report.deliveredRecords = d.acceptedRecords ∧ result.report.failedRecords = 0 ∧
      result.report.unfinishedRecords = 0 := by
  have hinv : d.kernel.Inv conv setup.kernel := .of_reach (kernel_reachable h)
  obtain ⟨hgrounds, hreports⟩ := shutdown_grounds h hs hkind hpublished hsucceeded
  have horder := hreports.order
  rw [hgrounds.2] at horder
  obtain ⟨r, hr⟩ := exists_accounted h hconv hroute
  obtain ⟨hdelivers, hclosed⟩ := hr.vouched.ended _ hgrounds.1
  obtain ⟨contents, tail, hholds, hwhole⟩ := hr.holds
  have hle : d.acceptedRecords ≤ contents.length := by
    by_contra hlt
    obtain ⟨o, he⟩ := exists_outcome horder (Nat.not_le.mp hlt)
    have ho : o = .delivered := hdelivers _ he
    exact Nat.lt_irrefl _ (hwhole _ (ho ▸ he))
  -- nothing else was accepted, so nothing else is in the file
  have hge : contents.length ≤ d.acceptedRecords := by
    by_contra hlt
    have haccepted := hholds.accepted d.acceptedRecords _ (List.getElem?_eq_getElem (by omega))
    exact Nat.lt_irrefl _ (haccepted.lt hinv)
  have htail : tail = [] := hholds.tail.resolve_right fun htail ↦ by
    obtain ⟨c, haccepted, -⟩ := htail
    have hlt := haccepted.lt hinv
    omega
  subst htail
  have hlength := congrArg List.length horder
  rw [List.length_map, List.length_range] at hlength
  refine ⟨r, contents, hr.filing.route, hclosed rfl, hholds, Nat.le_antisymm hge hle, hholds.decode,
    ?_, ?_, hreports.unfinished⟩
  · rw [hreports.delivered, ← hlength, List.countP_eq_length]
    exact fun e he ↦ decide_eq_true (hdelivers e he)
  · rw [hreports.failed, List.countP_eq_zero]
    intro e he hfailed
    cases (of_decide_eq_true hfailed).symm.trans (hdelivers e he)

theorem shutdown_file_one : ∃ d s result r contents, oneBuffer.Reachable d ∧ s ∈ d.started ∧
    s.kind = .shutdown ∧ (s.ref, result) ∈ d.control.published ∧ d.route = .file r ∧
    r.sink.closeOutcome = some 0 ∧ contents.length = 1 ∧
    d.FileHolds .blank .oneBuffer r.sink.file contents [] := by
  obtain ⟨d, s, result, hreach, hs, hkind, -, hpublished, hsucceeded, haccepted⟩ :=
    exists_succeeded .shutdown
  obtain ⟨r, contents, hroute, hclosed, hholds, hlength, -⟩ :=
    shutdown_file hreach bounded_empty rfl hs hkind hpublished hsucceeded
  exact ⟨d, s, result, r, contents, hreach, hs, hkind, hpublished, hroute, hclosed,
    hlength.trans haccepted, hholds⟩

end RuntimeDomain

end Ulog
