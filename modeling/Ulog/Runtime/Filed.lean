import Ulog.Encoding.Decode
import Ulog.Encoding.Reserve
import Ulog.Runtime.Handoff
import Ulog.Sink.Stream

/-!
# The worker and its file

A Runtime with a file route hands every accepted Record to the sink in the order of acceptance, and
the sink writes what it stored in that order. `FileMove` is what a step of the Runtime does to its
sink. The sink may refuse a frame, but then it refuses all later ones too, and this is why no Record
is missing before a Record that is there.

A Record always fits its buffer, so `StoreRaw` never fails for its encoding.
-/

namespace Ulog

namespace WorkerPc

/-- The worker has stopped the route. -/
def isStopped : WorkerPc → Bool
  | .nextAction exit | .buildReport exit .. | .completeAction exit .. | .completingAction exit =>
    exit.shutdownOutcome.isNone
  | .settle _ | .discardInFlight _ => true
  | _ => false

/-- What the worker took was submitted, and is not retired yet. -/
def Submits : WorkerPc → Prop
  | .consuming (some taken) | .dropClaim _ (some taken) => taken.result.submitted = true
  | .recordProcessed delivery => delivery.retired = false
  | .recordEncodingFailure _ => False
  | _ => True

end WorkerPc

/-- The function neither encodes nor stores. -/
def FileAction.isPassive : FileAction → Bool
  | .encode .. | .store => false
  | _ => true

theorem FileRun.Move.passive {conv : Charconv} {r r' : FileRun} {a : FileAction}
    (h : FileRun.Move conv r a r') (ha : a.isPassive = true) :
    r'.storing = r.storing ∧ r'.lastSequence = r.lastSequence ∧ r'.stored = r.stored := by
  cases h with
  | encode | store => cases ha
  | _ => exact ⟨rfl, rfl, rfl⟩

namespace RuntimeDomain

variable {conv : Charconv} {setup : RuntimeSetup} {d d' : RuntimeDomain} {pc pc' : WorkerPc}
  {action : DomainAction} {ok : RuntimeDomain → DomainAction → Prop} {route : RuntimeRoute}
  {r r' : FileRun} {n : ℕ} {c : RecordContent} {frame : Bytes}

/-! ## Accepted Records -/

theorem acceptedRecords_eq (hinv : d.kernel.Inv conv setup.kernel) :
    d.acceptedRecords = d.kernel.admissions.length := hinv.admissions.symm

theorem Move.admissions_prefix (h : d.Move conv setup action d') :
    d.kernel.admissions <+: d'.kernel.admissions := by
  rcases h.kernel_cases with heq | ⟨a, hstep⟩
  · rw [heq]
  · exact Kernel.admissions_grow hstep

/-- A Record with this content was accepted with the sequence. -/
def Accepted (conv : Charconv) (setup : RuntimeSetup) (d : RuntimeDomain) (n : ℕ)
    (c : RecordContent) : Prop :=
  ∃ a, d.kernel.admissions[n]? = some a ∧ a.Contains conv setup.kernel c

theorem Accepted.lt (h : d.Accepted conv setup n c) (hinv : d.kernel.Inv conv setup.kernel) :
    n < d.acceptedRecords := by
  obtain ⟨a, ha, -⟩ := h
  rw [acceptedRecords_eq hinv]
  exact (List.getElem?_eq_some_iff.mp ha).1

/-- The frame is that of the Record that was accepted with the sequence. -/
def IsFrame (conv : Charconv) (setup : RuntimeSetup) (d : RuntimeDomain) (n : ℕ) (frame : Bytes) :
    Prop :=
  ∃ c, d.Accepted conv setup n c ∧ frame = rawFrame conv c

theorem IsFrame.step (h : d.IsFrame conv setup n frame) (hmove : d.Move conv setup action d') :
    d'.IsFrame conv setup n frame := by
  obtain ⟨c, ⟨a, ha, hcontains⟩, hframe⟩ := h
  exact ⟨c, ⟨a, getElem?_mono hmove.admissions_prefix ha, hcontains⟩, hframe⟩

/-! ## How the Runtime uses the sink -/

/-- What a step of the Runtime does to its sink. -/
inductive FileMove (conv : Charconv) (setup : RuntimeSetup) (d : RuntimeDomain) (r : FileRun)
    (d' : RuntimeDomain) : Prop
  | unused (hroute : d'.route = .file r) (htaken : d'.taken = d.taken)
  | used {a : FileAction} {r' : FileRun} (hroute : d'.route = .file r')
      (htaken : d'.taken = d.taken) (hstep : r.step conv a = some r') (ha : a.isPassive = true)
      (hok : r.Disciplined a)
  | encoded {r' : FileRun} {p : PublishedRecord conv} (hroute : d'.route = .file r')
      (htaken : d'.taken = d.taken) (hstep : r.step conv (.encode 0 d.taken p.view) = some r')
      (hlimit : p.limit = setup.config.maximumRecordBytes)
      (haccepted : d.Accepted conv setup d.taken p.content)
  | stored {r' : FileRun} (hroute : d'.route = .file r') (htaken : d'.taken = d.taken + 1)
      (hstep : r.step conv .store = some r')

theorem UsesRoute.file (huses : d.UsesRoute conv route pc pc') (hpc : d.worker = pc)
    (hfile : d.route = .file r) (hstopped : d.worker.isStopped = true → r.sink.stopping = true)
    (hs : d.Synced) (hinv : d.kernel.Inv conv setup.kernel) (hover : d.kernel.HandsOver)
    (hstage : d.StageOk d.worker.stage) :
    FileMove conv setup d r ((d.setRoute route).goto pc') := by
  cases huses with
  | retire _ hroute | notCompleted hroute | claim hroute | noClaim hroute =>
    rw [hfile] at hroute
    obtain ⟨r', hr', heq⟩ := Option.map_eq_some_iff.mp hroute
    obtain ⟨rfl, -⟩ := Prod.mk.inj heq
    exact .used rfl rfl hr' rfl trivial
  | stopRoute hroute | requestClose hroute =>
    rw [hfile] at hroute
    obtain ⟨r', hr', rfl⟩ := Option.map_eq_some_iff.mp hroute
    exact .used rfl rfl hr' rfl trivial
  | discardInFlight hroute =>
    rw [hfile] at hroute
    obtain ⟨r', hr', rfl⟩ := Option.map_eq_some_iff.mp hroute
    exact .used rfl rfl hr' rfl (hstopped (by rw [hpc]; rfl))
  | submitted hroute | notSubmitted hroute | noRecord _ hroute =>
    rw [hfile, RuntimeRoute.dropClaim] at hroute
    split at hroute
    · cases hroute
      exact .unused rfl rfl
    · obtain ⟨r', hr', rfl⟩ := Option.map_eq_some_iff.mp hroute
      exact .used rfl rfl hr' rfl trivial
  | encode hcall hroute =>
    obtain ⟨hnext, a, p, ha, hcontains, hlimit, rfl⟩ := hs.handsOver hinv hover hstage hpc hcall
    rw [hnext] at ha
    rw [hfile, hnext] at hroute
    obtain ⟨r', hr', rfl⟩ := Option.map_eq_some_iff.mp hroute
    exact .encoded rfl rfl hr' hlimit ⟨a, ha, hcontains⟩

theorem Move.file (hmove : d.Move conv setup action d') (hfile : d.route = .file r)
    (hstopped : d.worker.isStopped = true → r.sink.stopping = true) (hs : d.Synced)
    (hinv : d.kernel.Inv conv setup.kernel) (hover : d.kernel.HandsOver)
    (hstage : d.StageOk d.worker.stage) : FileMove conv setup d r d' := by
  cases hmove with
  | worker hpc hworker =>
    cases hworker with
    | usesRoute huses => exact huses.file hpc hfile hstopped hs hinv hover hstage
    | store hroute =>
      rw [hfile] at hroute
      obtain ⟨r', hr', rfl⟩ := Option.map_eq_some_iff.mp hroute
      exact .stored rfl rfl hr'
    | _ => exact .unused hfile rfl
  | caller _ hcaller => cases hcaller <;> exact .unused hfile rfl
  | stopRoute hpc hroute =>
    rw [hfile] at hroute
    obtain ⟨r', hr', rfl⟩ := Option.map_eq_some_iff.mp hroute
    exact .used rfl rfl hr' rfl trivial
  | @route a _ houtside hroute =>
    rw [hfile] at hroute
    cases a with
    | structured | encoded => cases hroute
    | file a =>
      obtain ⟨r', hr', rfl⟩ := Option.map_eq_some_iff.mp hroute
      cases a with
      | opened | wake | loop | executeWrite | writeComplete | closeComplete =>
        exact .used rfl rfl hr' rfl trivial
      | _ => cases houtside
  | _ => exact .unused hfile rfl

/-! ## What the sink stores -/

/-- The sink stores the frames of the accepted Records in their order. -/
structure Filed (conv : Charconv) (setup : RuntimeSetup) (d : RuntimeDomain) (r : FileRun) :
    Prop where
  inv : r.Inv
  streamed : r.Streamed
  opened : r.Opened
  answered : r.Answered
  bytes : r.sink.bufferBytes = maximumRawEncodedBytes setup.config.maximumRecordBytes
  last : ∀ last ∈ r.lastSequence, last < d.taken + if r.storing = none then 0 else 1
  storing : ∀ call ∈ r.storing, call.sequence = d.taken ∧ call.result.complete = true ∧
    d.IsFrame conv setup call.sequence call.frame
  stored : ∀ n e, r.stored[n]? = some e → e.1 = n ∧ d.IsFrame conv setup n e.2
  count : r.stored.length = d.taken ∨ r.sink.Refusing

namespace Filed

section

variable (h : Filed conv setup d r)

include h

theorem uses {a : FileAction} (hok : r.Disciplined a) (hstep : r.step conv a = some r')
    (hlast : ∀ last ∈ r'.lastSequence, last < d'.taken + if r'.storing = none then 0 else 1)
    (hstoring : ∀ call ∈ r'.storing, call.sequence = d'.taken ∧ call.result.complete = true ∧
      d'.IsFrame conv setup call.sequence call.frame)
    (hstored : ∀ n e, r'.stored[n]? = some e → e.1 = n ∧ d'.IsFrame conv setup n e.2)
    (hcount : r'.stored.length = d'.taken ∨ r'.sink.Refusing) : Filed conv setup d' r' where
  inv := h.inv.step hok hstep
  streamed := h.streamed.step h.inv hok hstep
  opened := h.opened.step h.inv (.of_step hstep)
  answered := h.answered.step h.inv (.of_step hstep)
  bytes := (FileRun.Move.of_step hstep).lasting.bufferBytes.trans h.bytes
  last := hlast
  storing := hstoring
  stored := hstored
  count := hcount

theorem encode (hconv : conv.Bounded) {p : PublishedRecord conv} (htaken : d'.taken = d.taken)
    (hstep : r.step conv (.encode 0 d.taken p.view) = some r')
    (hlimit : p.limit = setup.config.maximumRecordBytes)
    (hframe : d'.IsFrame conv setup d.taken (rawFrame conv p.content))
    (hstored : ∀ n e, r.stored[n]? = some e → e.1 = n ∧ d'.IsFrame conv setup n e.2) :
    Filed conv setup d' r' := by
  have hbytes := h.bytes
  have hmove := FileRun.Move.of_step hstep
  have hrefuses := h.inv.refusing_step h.opened.close hmove
  cases hmove with
  | @encode _ _ _ identity hclaim hnone =>
    have hok : r.Disciplined (.encode 0 d.taken p.view) := by
      intro last hlast
      have hlt := h.last last hlast
      rwa [if_pos hnone] at hlt
    have hcomplete : (encodeRawRecord conv p.view (r.sink.buffers identity.index)
        r.sink.bufferBytes).2.complete = true := by
      rw [hbytes]
      refine PublishedRecord.encode_complete hconv p hlimit.le ?_ _
      have hmax := setup.admitted.maximumRecordBytes
      omega
    refine h.uses hok hstep ?_ ?_ hstored (by rw [htaken]; exact h.count.imp_right hrefuses)
    · rintro last ⟨⟩
      rw [htaken, if_neg (by simp)]
      exact Nat.lt_succ_self _
    · rintro call ⟨⟩
      refine ⟨htaken.symm, hcomplete, ?_⟩
      rw [encodedFrame_eq conv p.reads hcomplete]
      exact hframe

theorem store (htaken : d'.taken = d.taken + 1) (hstep : r.step conv .store = some r')
    (hmove' : d.Move conv setup action d')
    (hstored : ∀ n e, r.stored[n]? = some e → e.1 = n ∧ d'.IsFrame conv setup n e.2) :
    Filed conv setup d' r' := by
  have hmove := FileRun.Move.of_step hstep
  have hrefuses := h.inv.refusing_step h.opened.close hmove
  cases hmove with
  | @store call hcall _ =>
    obtain ⟨hsequence, hcomplete, hframe⟩ := h.storing call hcall
    have hnone := FileRun.finishStore_storing r call
    have hlast : ∀ last ∈ (r.finishStore call).lastSequence,
        last < d'.taken + if (r.finishStore call).storing = none then 0 else 1 := by
      intro last hlast
      have hsame : (r.finishStore call).lastSequence = r.lastSequence := by
        rcases FileRun.finishStore_cases h.inv hcall with ⟨heq, -, -⟩ | ⟨o, e, -, -, heq⟩
        · rw [heq]
          rfl
        · rw [heq]
      have hlt := h.last last (hsame ▸ hlast)
      rw [if_neg (by rw [hcall]; simp)] at hlt
      rwa [htaken, if_pos hnone]
    have hok : r.Disciplined .store := trivial
    refine h.uses hok hstep hlast (by rw [hnone]; rintro _ ⟨⟩) ?_ ?_ <;>
      rcases h.opened.finishStore h.inv hcall hcomplete with ⟨hrefusing, hsame⟩ | ⟨hopen, hnew⟩
    · rw [hsame]
      exact hstored
    · -- nothing was refused so far, so the frame gets its own place
      have hlength := h.count.resolve_right hopen
      intro n e he
      rw [hnew] at he
      rcases Nat.lt_or_ge n r.stored.length with hlt | hge
      · rw [List.getElem?_append_left hlt] at he
        exact hstored n e he
      · rw [List.getElem?_append_right hge, List.getElem?_singleton] at he
        obtain ⟨hn, heq⟩ := Option.ite_none_right_eq_some.mp he
        have hn : call.sequence = n := by omega
        cases heq
        exact ⟨hn, hn ▸ hframe.step hmove'⟩
    · exact .inr (hrefuses hrefusing)
    · rw [hnew, List.length_append, htaken, h.count.resolve_right hopen]
      exact .inl rfl

theorem step (hconv : conv.Bounded) (hmove : d.Move conv setup action d')
    (hfile : FileMove conv setup d r d') : ∃ r', d'.route = .file r' ∧ Filed conv setup d' r' := by
  have hstored : ∀ n e, r.stored[n]? = some e → e.1 = n ∧ d'.IsFrame conv setup n e.2 :=
    fun n e he ↦ ⟨(h.stored n e he).1, (h.stored n e he).2.step hmove⟩
  have hstoring : d'.taken = d.taken → ∀ call ∈ r.storing, call.sequence = d'.taken ∧
      call.result.complete = true ∧ d'.IsFrame conv setup call.sequence call.frame := by
    intro htaken call hcall
    obtain ⟨hsequence, hcomplete, hframe⟩ := h.storing call hcall
    exact ⟨hsequence.trans htaken.symm, hcomplete, hframe.step hmove⟩
  cases hfile with
  | unused hroute htaken =>
    refine ⟨r, hroute, h.inv, h.streamed, h.opened, h.answered, h.bytes, ?_, hstoring htaken,
      hstored, ?_⟩ <;> rw [htaken]
    · exact h.last
    · exact h.count
  | used hroute htaken hstep ha hok =>
    have hfmove := FileRun.Move.of_step hstep
    obtain ⟨hcall, hlast, hsame⟩ := hfmove.passive ha
    refine ⟨_, hroute, h.uses hok hstep ?_ ?_ ?_ ?_⟩
    · rw [hcall, hlast, htaken]
      exact h.last
    · rw [hcall]
      exact hstoring htaken
    · rw [hsame]
      exact hstored
    · rw [hsame, htaken]
      exact h.count.imp_right (h.inv.refusing_step h.opened.close hfmove)
  | encoded hroute htaken hstep hlimit haccepted =>
    have hframe : d.IsFrame conv setup d.taken _ := ⟨_, haccepted, rfl⟩
    exact ⟨_, hroute, h.encode hconv htaken hstep hlimit (hframe.step hmove) hstored⟩
  | stored hroute htaken hstep => exact ⟨_, hroute, h.store htaken hstep hmove hstored⟩

theorem submitted (hfile : d.route = .file r) (hstore : d.route.store conv = some route) :
    d.route.storeResult.submitted = true := by
  rw [hfile] at hstore ⊢
  obtain ⟨r', hr', -⟩ := Option.map_eq_some_iff.mp hstore
  cases FileRun.Move.of_step hr' with
  | @store call hcall _ =>
    obtain ⟨-, hcomplete, -⟩ := h.storing call hcall
    have howns := (h.inv.storing_owns hcall).2
    simp [RuntimeRoute.storeResult, hcall, hcomplete, FileSink.store, howns]

end

end Filed

/-! ## Where the worker is -/

theorem Reads.poised (h : d.Reads pc pc') :
    (pc'.isStopped = true → pc.isStopped = true) ∧ pc'.Submits := by
  cases h with
  | completingAction => exact ⟨id, trivial⟩
  | _ => exact ⟨by rintro ⟨⟩, trivial⟩

theorem UsesRoute.submits (h : d.UsesRoute conv route pc pc') (hpc : d.worker = pc) (hs : d.Synced)
    (hfile : d.route = .file r) (hsubmits : pc.Submits) : pc'.Submits := by
  cases h with
  | @submitted stored =>
    rw [hfile]
    cases stored <;> rfl
  | @notSubmitted stored hroute hnot =>
    have hsome := (hs.dropped _ _ hpc).mp rfl
    cases stored with
    | none => cases hsome
    | some taken =>
      rw [hfile] at hnot
      exact absurd (hsubmits.symm.trans hnot) (by decide)
  | _ => trivial

theorem WorkerMove.submits (h : d.WorkerMove conv setup pc d') (hpc : d.worker = pc) (hs : d.Synced)
    (hfile : d.route = .file r) (hfiled : Filed conv setup d r) (hsubmits : pc.Submits) :
    d'.worker.Submits := by
  cases h with
  | reads hreads => exact hreads.poised.2
  | usesRoute huses => exact huses.submits hpc hs hfile hsubmits
  | store hstore => exact hfiled.submitted hfile hstore
  | callsKernel hcalls =>
    cases hcalls with
    | @consuming stored =>
      cases stored with
      | none => trivial
      | some taken => exact hsubmits
    | _ => trivial
  | completes hcompletes => cases hcompletes <;> trivial
  | recordRetirement | recordProcessed | finish =>
    dsimp only
    split <;> trivial
  | noneReady | noneActive =>
    dsimp only [goto]
    split <;> trivial
  | _ => trivial

theorem WorkerMove.isStopped (h : d.WorkerMove conv setup pc d')
    (hstopped : d'.worker.isStopped = true) :
    pc.isStopped = true ∨ d.route.stop conv = some d'.route := by
  cases h with
  | reads hreads => exact .inl (hreads.poised.1 hstopped)
  | usesRoute huses =>
    cases huses with
    | stopRoute hroute => exact .inr hroute
    | _ => cases hstopped
  | callsKernel hcalls => cases hcalls <;> cases hstopped
  | completes hcompletes =>
    cases hcompletes with
    | completeDrain => cases hstopped
    | completeAction => exact .inl hstopped
  | @noneActive exit =>
    cases exit with
    | shutdown => cases hstopped
    | destruction | routeFailure => exact .inl rfl
  | takeAction | buildReport => exact .inl hstopped
  | settle => exact .inl rfl
  | @finish exit => cases exit <;> cases hstopped
  | recordRetirement | recordProcessed =>
    dsimp only at hstopped
    split at hstopped <;> cases hstopped
  | noneReady =>
    dsimp only [goto] at hstopped
    split at hstopped <;> cases hstopped
  | _ => cases hstopped

/-- The Runtime has a file. -/
structure Filing (conv : Charconv) (setup : RuntimeSetup) (d : RuntimeDomain) (r : FileRun) :
    Prop where
  route : d.route = .file r
  filed : Filed conv setup d r
  stopped : d.worker.isStopped = true → r.sink.stopping = true
  submits : d.worker.Submits

/-- The sink makes a step, or it is left alone. -/
def RunStep (conv : Charconv) (r r' : FileRun) : Prop := r' = r ∨ ∃ a, FileRun.Move conv r a r'

theorem FileMove.runStep (h : FileMove conv setup d r d') (hroute : d'.route = .file r') :
    RunStep conv r r' := by
  cases h with
  | unused hroute' =>
    cases hroute.symm.trans hroute'
    exact .inl rfl
  | used hroute' _ hstep | encoded hroute' _ hstep | stored hroute' _ hstep =>
    cases hroute.symm.trans hroute'
    exact .inr ⟨_, .of_step hstep⟩

theorem Filing.step (h : Filing conv setup d r) (hconv : conv.Bounded)
    (hreach : (machine conv setup).Reach ok d) (hmove : d.Move conv setup action d') :
    ∃ r', Filing conv setup d' r' ∧ RunStep conv r r' := by
  have hfile : FileMove conv setup d r d' :=
    hmove.file h.route h.stopped (.of_reach hreach) (.of_reach (kernel_reachable hreach))
      (.of_reach (kernel_reachable hreach)) (.of_reach hreach)
  obtain ⟨r', hroute, hfiled⟩ := h.filed.step hconv hmove hfile
  have hrun := hfile.runStep hroute
  have hstopping : r.sink.stopping = true → r'.sink.stopping = true := by
    rcases hrun with rfl | ⟨a, hfmove⟩
    · exact id
    · exact hfmove.lasting.stopping
  have hother : d'.worker = d.worker → Filing conv setup d' r' := by
    intro hworker
    refine ⟨hroute, hfiled, ?_, ?_⟩ <;> rw [hworker]
    · exact hstopping ∘ h.stopped
    · exact h.submits
  refine ⟨r', ?_, hrun⟩
  cases hmove with
  | worker hpc hworker =>
    refine ⟨hroute, hfiled, fun hstopped ↦ ?_,
      hworker.submits hpc (.of_reach hreach) h.route h.filed (hpc ▸ h.submits)⟩
    rcases hworker.isStopped hstopped with hbefore | hstop
    · exact hstopping (h.stopped (hpc ▸ hbefore))
    · rw [h.route, hroute] at hstop
      obtain ⟨r'', hr'', heq⟩ := Option.map_eq_some_iff.mp hstop
      cases heq
      cases FileRun.Move.of_step hr''
      rfl
  | caller _ hcaller => exact hother hcaller.sameFlags.2
  | _ => exact hother rfl

theorem filing_init {writeBuffers : ℕ} {faults : FileFaultPlan}
    (hroute : setup.route = .file writeBuffers faults) :
    Filing conv setup (machine conv setup).init
      (FileRun.machine conv writeBuffers setup.config.maximumRecordBytes faults).init where
  route := congrArg (RouteConfig.create setup.config) hroute
  filed :=
    { inv := FileRun.inv_init ..
      streamed := FileRun.streamed_init ..
      opened := FileRun.opened_init ..
      answered := ⟨by rintro _ ⟨⟩, by rintro _ ⟨⟩⟩
      bytes := rfl
      last := by rintro _ ⟨⟩
      storing := by rintro _ ⟨⟩
      stored := by rintro _ _ ⟨⟩
      count := .inl rfl }
  stopped := by rintro ⟨⟩
  submits := trivial

end RuntimeDomain

end Ulog
