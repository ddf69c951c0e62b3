import Ulog.Runtime.Handoff
import Ulog.Sink.Stream

/-!
# The ledger

Every Record that the route took is processed, or the worker is about to account for it. Records are
retired one after the other: by `TryRetire`, or, on the structured route, together with their
delivery. So the retirements are those of the sequences from zero on, the ledger counts them, and it
never retires more than was accepted.
-/

namespace Ulog

/-- Records are retired with their delivery. -/
def RuntimeRoute.isStructured : RuntimeRoute → Bool
  | .structured .. => true
  | .encoded .. | .file _ => false

/-- The Records that the worker has taken and not accounted for. -/
def WorkerPc.inHand : WorkerPc → ℕ
  | .consuming (some _) | .dropClaim _ (some _) | .recordProcessed _ | .recordEncodingFailure _ => 1
  | _ => 0

variable {conv : Charconv} {setup : RuntimeSetup} {d d' : RuntimeDomain} {pc pc' : WorkerPc}
  {action : DomainAction} {ok : RuntimeDomain → DomainAction → Prop} {route : RuntimeRoute}

/-! ## The route -/

namespace RuntimeDomain

/-- A route stays of its kind, and it does not get over an error. -/
structure Continues (route route' : RuntimeRoute) : Prop where
  isStructured : route'.isStructured = route.isStructured
  terminalError : route.terminalError ≠ 0 → route'.terminalError ≠ 0

theorem Continues.refl (route : RuntimeRoute) : Continues route route := ⟨rfl, id⟩

theorem failureError_step {r r' : FileRun} {a : FileAction} (h : r.step conv a = some r')
    (herror : r.sink.failureError ≠ 0) : r'.sink.failureError ≠ 0 :=
  (FileRun.Move.of_step h).lasting.failureError herror

theorem UsesRoute.continues (h : d.UsesRoute conv route pc pc') : Continues d.route route := by
  cases h with
  | retire _ hroute | notCompleted hroute | claim hroute | noClaim hroute | stopRoute hroute
  | discardInFlight hroute | requestClose hroute | encode _ hroute | submitted hroute
  | notSubmitted hroute | noRecord _ hroute =>
    revert hroute
    cases d.route <;> grind [RuntimeRoute.tryRetire, RuntimeRoute.tryClaim, RuntimeRoute.stop,
      RuntimeRoute.discardInFlight, RuntimeRoute.requestClose, RuntimeRoute.encode,
      RuntimeRoute.dropClaim, RuntimeRoute.isStructured, RuntimeRoute.terminalError,
      Option.map_eq_some_iff, Continues, failureError_step]

theorem Move.continues (h : d.Move conv setup action d') : Continues d.route d'.route := by
  cases h with
  | worker _ h =>
    cases h with
    | usesRoute huses => exact huses.continues
    | store hroute =>
      revert hroute
      dsimp only [setRoute]
      cases d.route <;> grind [RuntimeRoute.store, RuntimeRoute.isStructured,
        RuntimeRoute.terminalError, Option.map_eq_some_iff, Continues, failureError_step]
    | _ => exact .refl _
  | caller _ h => cases h <;> exact .refl _
  | stopRoute _ hroute =>
    revert hroute
    dsimp only [setRoute]
    cases d.route <;> grind [RuntimeRoute.stop, RuntimeRoute.isStructured,
      RuntimeRoute.terminalError, Option.map_eq_some_iff, Continues, failureError_step]
  | @route a _ _ hroute =>
    revert hroute
    dsimp only [setRoute]
    cases d.route <;> cases a <;> grind [RuntimeRoute.step, RuntimeRoute.isStructured,
      RuntimeRoute.terminalError, Option.map_eq_some_iff, Continues, failureError_step]
  | _ => exact .refl _

end RuntimeDomain

/-! ## Counting -/

/-- The ledger counts the retirements, which are those of the first sequences in their order. -/
structure RouteLedger.Counts (l : RouteLedger) (retirements : List (ℕ × DeliveryOutcome)) :
    Prop where
  processed : l.retiredRecords ≤ l.processedRecords
  order : retirements.map (·.1) = List.range l.retiredRecords
  outcomes : l.settled = false →
    l.deliveredRecords = retirements.countP (·.2 = .delivered) ∧
      l.failedRecords = retirements.countP (·.2 = .failed)

namespace RouteLedger.Counts

variable {l : RouteLedger} {retirements : List (ℕ × DeliveryOutcome)}

theorem length (h : l.Counts retirements) : retirements.length = l.retiredRecords := by
  have hmap := congrArg List.length h.order
  rwa [List.length_map, List.length_range] at hmap

theorem retire (h : l.Counts retirements) (hlt : l.retiredRecords < l.processedRecords)
    (retirement : DeliveryRetirement) :
    (l.retire retirement).Counts (retirements ++ [(l.retiredRecords, retirement.outcome)]) := by
  have horder : (retirements ++ [(l.retiredRecords, retirement.outcome)]).map (·.1) =
      List.range (l.retiredRecords + 1) := by
    rw [List.map_append, h.order, List.range_succ]
    rfl
  rw [RouteLedger.retire]
  split <;> next ho =>
    refine ⟨hlt, horder, fun hs ↦ ?_⟩
    obtain ⟨hdelivered, hfailed⟩ := h.outcomes hs
    simp [ho, hdelivered, hfailed, List.countP_append]

end RouteLedger.Counts

namespace RuntimeDomain

/-- What the worker knows when it is about to change the ledger. -/
def Accounts (d : RuntimeDomain) : WorkerPc → Prop
  | .recordRetirement n _ =>
    n = d.ledger.retiredRecords ∧ d.ledger.retiredRecords < d.ledger.processedRecords
  | .recordProcessed delivery => delivery.retired = d.route.isStructured
  | .recordEncodingFailure _ => d.route.isStructured = false
  | _ => True

/-- The worker accounts for every Record it takes. -/
structure Counted (d : RuntimeDomain) : Prop where
  worker : d.Accounts d.worker
  counts : d.ledger.Counts d.retirements
  taken : d.ledger.processedRecords + d.worker.inHand = d.taken
  structured : d.route.isStructured = true → d.ledger.retiredRecords = d.ledger.processedRecords
  /-- behind a Record that could not be encoded nothing is retired -/
  encoding : d.ledger.encodingFailedSequence ≠ none →
    d.worker.stage ≠ .running ∧ d.ledger.retiredRecords < d.ledger.processedRecords

namespace Counted

theorem quiet (h : d.Counted) (hpc : d.worker = pc) (hledger : d'.ledger = d.ledger)
    (hretirements : d'.retirements = d.retirements) (htaken : d'.taken = d.taken)
    (hroute : d'.route.isStructured = d.route.isStructured)
    (hhand : pc.inHand = d'.worker.inHand)
    (hstage : d'.worker.stage = .running → pc.stage = .running)
    (hworker : d.Accounts d'.worker) : d'.Counted := by
  rw [← hpc] at hhand hstage
  refine ⟨?_, by rw [hledger, hretirements]; exact h.counts,
    by rw [hledger, htaken, ← hhand, h.taken],
    by rw [hledger, hroute]; exact h.structured, ?_⟩
  · cases hpc : d'.worker with
    | recordRetirement | recordProcessed | recordEncodingFailure =>
      rw [hpc] at hworker
      simpa only [Accounts, hledger, hroute] using hworker
    | _ => trivial
  · rw [hledger]
    exact fun hne ↦ (h.encoding hne).imp_left (mt hstage)

/-- Nothing was lost to its encoding as long as the worker runs. -/
theorem encoding_eq_none (h : d.Counted) (hpc : d.worker = pc) (hstage : pc.stage = .running) :
    d.ledger.encodingFailedSequence = none := by
  by_contra hne
  exact (h.encoding hne).1 (hpc ▸ hstage)

theorem usesRoute (h : d.Counted) (hs : d.Synced) (hpc : d.worker = pc)
    (hstage : d.StageOk pc.stage) (huses : d.UsesRoute conv route pc pc') :
    Counted ((d.setRoute route).goto pc') := by
  refine h.quiet hpc rfl rfl rfl huses.continues.isStructured ?_ (fun hrunning ↦ ?_) ?_
  · cases huses with
    | submitted | notSubmitted =>
      obtain ⟨taken, rfl⟩ := Option.isSome_iff_exists.mp ((hs.dropped _ _ hpc).mp rfl)
      rfl
    | @noRecord consumed stored hconsumed =>
      have hnone : stored = none := by
        rw [← Option.not_isSome_iff_eq_none, ← hs.dropped _ _ hpc]
        exact hconsumed
      rw [hnone]
      rfl
    | _ => rfl
  · rwa [← huses.stage hstage]
  · cases huses with
    | retire hretired => exact ⟨rfl, hretired⟩
    | @submitted stored =>
      change (d.route.deliveryResult .record stored).retired = d.route.isStructured
      cases d.route <;> cases stored <;> rfl
    | @notSubmitted stored _ hsubmitted =>
      change d.route.isStructured = false
      cases hroute : d.route with
      | structured =>
        rw [hroute] at hsubmitted
        cases hsubmitted
      | encoded | file => rfl
    | _ => trivial

theorem recordProcessed (h : d.Counted) {delivery : RouteDeliveryResult}
    (hpc : d.worker = .recordProcessed delivery) : Counted { d with
      ledger := d.ledger.process delivery
      retirements := d.retirements ++ if delivery.retired then [(d.taken - 1, .delivered)] else []
      worker := if delivery.retired then .readyDrains true else .loop } := by
  have hworker := h.worker
  have htaken := h.taken
  rw [hpc] at hworker htaken
  replace hworker : delivery.retired = d.route.isStructured := hworker
  have hnone := h.encoding_eq_none hpc rfl
  have hcounts : RouteLedger.Counts { d.ledger with
      processedRecords := d.ledger.processedRecords + 1
      processedBytes := d.ledger.processedBytes + delivery.encodedBytes } d.retirements :=
    ⟨h.counts.processed.trans (Nat.le_succ _), h.counts.order, h.counts.outcomes⟩
  cases hretired : delivery.retired with
  | true =>
    have hall := h.structured (hworker ▸ hretired)
    have hnext : d.taken - 1 = d.ledger.retiredRecords := by
      rw [← htaken, hall]
      rfl
    have hnew := hcounts.retire (Nat.lt_succ_of_le h.counts.processed)
      ⟨.delivered, delivery.encodedBytes⟩
    refine ⟨trivial, ?_, ?_, fun _ ↦ ?_, ?_⟩ <;>
      simp only [RouteLedger.process, hretired, if_true, hnext]
    · exact hnew
    · exact htaken
    · exact congrArg (· + 1) hall
    · exact fun hne ↦ absurd hnone hne
  | false =>
    refine ⟨trivial, ?_, ?_, fun hyes ↦ ?_, ?_⟩ <;>
      simp only [RouteLedger.process, hretired, Bool.false_eq_true, if_false, List.append_nil]
    · exact hcounts
    · exact htaken
    · cases (hworker.symm.trans hretired).symm.trans hyes
    · exact fun hne ↦ absurd hnone hne

theorem worker_step (h : d.Counted) (hs : d.Synced) (hpc : d.worker = pc)
    (hstage : d.StageOk pc.stage) (hkind : d'.route.isStructured = d.route.isStructured)
    (hmove : d.WorkerMove conv setup pc d') : d'.Counted := by
  have hworker := h.worker
  have htaken := h.taken
  rw [hpc] at hworker htaken
  cases hmove with
  | reads hreads =>
    refine h.quiet hpc rfl rfl rfl rfl (by cases hreads <;> rfl) (fun hpc ↦ ?_)
      (by cases hreads <;> trivial)
    rcases hreads.stage with heq | ⟨hrunning, -⟩
    · exact heq ▸ hpc
    · exact hrunning
  | callsKernel hcalls =>
    refine h.quiet hpc rfl rfl rfl rfl ?_ (fun hrunning ↦ ?_) (by cases hcalls <;> trivial)
    · cases hcalls with
      | @consuming stored => cases stored <;> rfl
      | _ => rfl
    · rwa [← hcalls.stage hstage]
  | usesRoute huses => exact h.usesRoute hs hpc hstage huses
  | completes hcompletes =>
    refine h.quiet hpc rfl rfl rfl rfl (by cases hcompletes <;> rfl) (fun hrunning ↦ ?_)
      (by cases hcompletes <;> trivial)
    rwa [← hcompletes.stage]
  | @recordRetirement n retirement =>
    have hnone := h.encoding_eq_none hpc rfl
    obtain ⟨rfl, hlt⟩ := hworker
    refine ⟨?_, h.counts.retire hlt retirement, ?_, fun hyes ↦ absurd (h.structured hyes) hlt.ne,
      fun hne ↦ absurd ?_ hne⟩
    · dsimp only
      split <;> trivial
    · dsimp only [RouteLedger.retire]
      split <;> split <;> exact htaken
    · dsimp only [RouteLedger.retire]
      split <;> exact hnone
  | recordProcessed => exact h.recordProcessed hpc
  | recordEncodingFailure =>
    have hlt := Nat.lt_succ_of_le h.counts.processed
    exact ⟨trivial, ⟨hlt.le, h.counts.order, h.counts.outcomes⟩, htaken,
      fun hyes ↦ absurd (hworker.symm.trans hyes) (by decide), fun _ ↦ ⟨by rintro ⟨⟩, hlt⟩⟩
  | settle =>
    exact ⟨trivial, ⟨h.counts.processed, h.counts.order, by rintro ⟨⟩⟩, htaken, h.structured,
      fun hne ↦ ⟨by rintro ⟨⟩, (h.encoding hne).2⟩⟩
  | store =>
    exact ⟨trivial, h.counts, congrArg (· + 1) htaken, fun hyes ↦ h.structured (hkind ▸ hyes),
      fun hne ↦ absurd (h.encoding_eq_none hpc rfl) hne⟩
  | @finish exit =>
    cases exit <;> refine h.quiet hpc rfl rfl rfl rfl rfl ?_ trivial <;> rintro ⟨⟩
  | noneReady | noneActive =>
    refine h.quiet hpc rfl rfl rfl rfl ?_ ?_ ?_ <;> dsimp only [goto] <;> split <;>
      first | trivial | rfl | exact fun _ ↦ rfl | rintro ⟨⟩
  | _ =>
    refine h.quiet hpc rfl rfl rfl rfl rfl ?_ trivial
    first | exact fun _ ↦ rfl | exact id | rintro ⟨⟩

theorem of_reach (h : (machine conv setup).Reach ok d) : d.Counted := by
  refine Machine.Reach.invariant_of_reach (I := Counted) h
    ⟨trivial, ⟨le_rfl, rfl, fun _ ↦ ⟨rfl, rfl⟩⟩, rfl, fun _ ↦ rfl, fun hne ↦ absurd rfl hne⟩
    fun d action d' hd hcounted _ hstep ↦ ?_
  have hmove := Move.of_step hstep
  have hkind := hmove.continues.isStructured
  cases hmove with
  | worker hpc hworker =>
    exact hcounted.worker_step (.of_reach hd) hpc (hpc ▸ .of_reach hd) hkind hworker
  | caller _ hcaller =>
    cases hcaller <;> exact hcounted.quiet rfl rfl rfl rfl rfl rfl id hcounted.worker
  | _ => exact hcounted.quiet rfl rfl rfl rfl hkind rfl id hcounted.worker

/-- No more is processed than was accepted. -/
theorem processed_le (h : d.Counted) (hreach : (machine conv setup).Reach ok d)
    (hsettled : d.ledger.settled = false) : d.ledger.processedRecords ≤ d.acceptedRecords := by
  have hinv : d.kernel.Inv conv setup.kernel := .of_reach (kernel_reachable hreach)
  calc d.ledger.processedRecords
      ≤ d.taken := h.taken ▸ Nat.le_add_right ..
    _ ≤ d.kernel.consumptions.length :=
      (Synced.of_reach hreach).count hsettled ▸ Nat.le_add_right ..
    _ ≤ d.kernel.admissions.length := hinv.consumptions_le
    _ = d.acceptedRecords := hinv.admissions

end Counted

end RuntimeDomain

end Ulog
