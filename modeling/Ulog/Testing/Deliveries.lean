import Ulog.Testing.Books

/-!
# Encoded deliveries complete once

Handles own their slots in the sense of `Handles.Owning`. Only pending deliveries can outlive that,
when `Stop` takes their slots away; but then no slot is claimed any more, and no slot is delivering,
so what such a handle shows stays and what it asks for is refused. The rest is in the books.
-/

namespace Ulog.Encoded

open ByteMemory

variable {conv : Charconv} {config : Config} {s s' : State} {w w' : World} {i j : ℕ}
  {submitted : List (ℕ × Bytes)} {outcomes : List (ℕ × DeliveryState)} {taken : List ℕ}

/-! ## Who has a slot -/

/-- The generation under which a slot is in a state. -/
def State.under (s : State) : SlotState → ℕ → Option ℕ :=
  Handles.stampIn (fun i ↦ (s.owners i).state) fun i ↦ (s.owners i).generation

theorem Elsewhere.under (h : Elsewhere s s' i) {state : SlotState} (hne : j ≠ i) :
    s'.under state j = s.under state j :=
  Handles.stampIn_congr (congrArg Owner.state (h.owners j hne))
    (congrArg Owner.generation (h.owners j hne))

theorem recast_setOwner {owner : Owner}
    (hwaiting : owner.state = .pending ∨ owner.state = .delivering ↔ s.Waiting i)
    (hready : owner.state = .ready ↔ (s.owners i).state = .ready)
    (hheld : owner.state = .held → (s.owners i).state = .held)
    (hreserved : owner.state = .reserved → (s.deliveries i).state = .retired)
    (h : ∀ j, (s.owners j).state = .reserved → (s.deliveries j).state = .retired) :
    Recast s (s.setOwner i owner) := by
  have he := elsewhere_setOwner s i owner
  have hself := s.setOwner_self i owner
  refine ⟨fun j ↦ ?_, fun j ↦ ?_, fun j hj ↦ ?_, fun j hj ↦ ?_, fun _ ↦ rfl, fun _ _ ↦ rfl,
    fun _ ↦ .inl rfl⟩
  all_goals by_cases hji : j = i
  · rw [hji, State.Waiting, hself]
    exact hwaiting
  · exact he.waiting hji
  · rw [hji, hself]
    exact hready
  · rw [he.owners j hji]
  · rw [hji, hself] at hj
    rw [hji]
    exact hheld hj
  · rwa [he.owners j hji] at hj
  · rw [hji, hself] at hj
    rw [hji]
    exact hreserved hj
  · rw [he.owners j hji] at hj
    exact h j hj

structure Inv (config : Config) (w : World) : Prop where
  outside : ∀ i, config.capacityRecords ≤ i →
    (w.state.owners i).state = .free ∧ (w.state.deliveries i).state = .retired
  books : Books w.state w.submitted w.outcomes w.taken
  claims : Handles.Owning (·.identity.index) (·.identity.generation) w.claims
    (w.state.under .reserved)
  pendings : w.state.stopped = false → Handles.Owning (·.identity.index)
    (·.identity.generation) w.pendings (w.state.under .delivering)
  observations : Handles.Owning (·.identity.index) (·.identity.generation) w.observations
    (w.state.under .held)
  observed : ∀ k o, w.observations k = some o →
    (w.state.deliveries o.identity.index).admissionSequence = o.admissionSequence
  stopped : w.state.stopped = true → ∀ i, ¬w.state.Waiting i
  apart : ∀ p pending c claim, w.pendings p = some pending → w.claims c = some claim →
    pending.identity.index ≠ claim.identity.index
  shown : ∀ p pending, w.pendings p = some pending →
    (pending.admissionSequence, w.state.pendingBytes pending) ∈ w.submitted
  calls : ∀ c claim call, w.claims c = some claim → claim.storing = some call →
    call.admissionSequence < w.bound ∧
      call.admissionSequence ∉ w.submitted.map Prod.fst ∧
      read (w.state.buffers claim.identity.index) 0 call.result.encodedBytes = call.frame
  calls_distinct : ∀ c c' claim claim' call call', w.claims c = some claim →
    w.claims c' = some claim' → claim.storing = some call → claim'.storing = some call' →
      call.admissionSequence = call'.admissionSequence → c = c'
  bound : ∀ f ∈ w.submitted, f.1 < w.bound

namespace Inv

theorem init : Inv config (machine conv config).init where
  outside := fun _ _ ↦ ⟨rfl, rfl⟩
  books :=
    { slot := fun _ ↦ ⟨nofun, nofun, nofun, nofun, nofun, nofun⟩, distinct := nofun
      unique := List.nodup_nil, once := List.nodup_nil, kind := nofun, answered := nofun
      available := nofun, taken_nodup := List.nodup_nil, taken_delivered := nofun }
  claims := .of_none fun _ ↦ rfl
  pendings := fun _ ↦ .of_none fun _ ↦ rfl
  observations := .of_none fun _ ↦ rfl
  observed := nofun
  stopped := nofun
  apart := nofun
  shown := nofun
  calls := nofun
  calls_distinct := nofun
  bound := nofun

variable {p c k : ℕ} {pending : Pending} {claim : Claim} {identity : SlotIdentity}
  {o : Observation}

section

variable (h : Inv config w)

include h

theorem state_of_claim (hc : w.claims c = some claim) :
    (w.state.owners claim.identity.index).state = .reserved ∧
      (w.state.owners claim.identity.index).generation = claim.identity.generation :=
  Handles.stampIn_eq_some.mp (h.claims.owned hc)

theorem state_of_pending (hstopped : w.state.stopped = false) (hp : w.pendings p = some pending) :
    (w.state.owners pending.identity.index).state = .delivering ∧
      (w.state.owners pending.identity.index).generation = pending.identity.generation :=
  Handles.stampIn_eq_some.mp ((h.pendings hstopped).owned hp)

theorem state_of_observation (hk : w.observations k = some o) :
    (w.state.owners o.identity.index).state = .held ∧
      (w.state.owners o.identity.index).generation = o.identity.generation :=
  Handles.stampIn_eq_some.mp (h.observations.owned hk)

theorem index_ne_of_claim (hc : w.claims c = some claim)
    (hi : (w.state.owners i).state ≠ .reserved) :
    claim.identity.index ≠ i := by
  rintro rfl
  exact hi (h.state_of_claim hc).1

theorem index_ne_of_pending (hstopped : w.state.stopped = false) (hp : w.pendings p = some pending)
    (hi : (w.state.owners i).state ≠ .delivering) : pending.identity.index ≠ i := by
  rintro rfl
  exact hi (h.state_of_pending hstopped hp).1

theorem index_ne_of_observation (hk : w.observations k = some o)
    (hi : (w.state.owners i).state ≠ .held) : o.identity.index ≠ i := by
  rintro rfl
  exact hi (h.state_of_observation hk).1

theorem lt_capacity (hi : (w.state.owners i).state ≠ .free) : i < config.capacityRecords :=
  lt_of_not_ge fun hle ↦ hi (h.outside i hle).1

theorem names {state : SlotState} (hstate : (w.state.owners identity.index).state = state)
    (hne : state ≠ .free)
    (hgeneration : (w.state.owners identity.index).generation = identity.generation) :
    w.state.names config identity state = true := by
  have hlt := h.lt_capacity (hstate ▸ hne)
  simp [State.names, hlt, hstate, hgeneration]

/-- A slot changes hands. A new claim is of a slot that no pending delivery shows, and a new pending
delivery of one that no claim writes to. -/
theorem reown {owner : Owner} {claims : ℕ → Option Claim} {pendings : ℕ → Option Pending}
    {observations : ℕ → Option Observation} (hi : i < config.capacityRecords)
    (hr : Recast w.state (w.state.setOwner i owner))
    (hclaims : Handles.Owning (·.identity.index) (·.identity.generation) claims
      ((w.state.setOwner i owner).under .reserved))
    (hpendings : w.state.stopped = false → Handles.Owning (·.identity.index)
      (·.identity.generation) pendings ((w.state.setOwner i owner).under .delivering))
    (hobservations : Handles.Owning (·.identity.index) (·.identity.generation) observations
      ((w.state.setOwner i owner).under .held))
    (holdObservations : ∀ k o, observations k = some o → w.observations k = some o)
    (holdClaims : ∀ c claim, claims c = some claim → w.claims c = some claim ∨
      claim.storing = none ∧ ∀ p pending, w.pendings p = some pending →
      pending.identity.index ≠ claim.identity.index)
    (holdPendings : ∀ p pending, pendings p = some pending → w.pendings p = some pending ∨
      (pending.admissionSequence, w.state.pendingBytes pending) ∈ w.submitted ∧
      ∀ c claim, claims c = some claim → pending.identity.index ≠ claim.identity.index) :
    Inv config
      { w with
        state := w.state.setOwner i owner
        claims := claims
        pendings := pendings
        observations := observations } := by
  have hcalls : ∀ c claim call, claims c = some claim → claim.storing = some call →
      w.claims c = some claim := by
    intro c claim call hc hcall
    rcases holdClaims c claim hc with hold | ⟨hnone, -⟩
    · exact hold
    · cases hnone.symm.trans hcall
  refine {
    outside := fun j hj ↦ ?_
    books := h.books.recast hr
    claims := hclaims
    pendings := hpendings
    observations := hobservations
    observed := fun k o hk ↦ h.observed k o (holdObservations k o hk)
    stopped := fun hstopped j hj ↦ h.stopped hstopped j ((hr.waiting j).mp hj)
    apart := fun p pending c claim hp hc ↦ ?_
    shown := fun p pending hp ↦ ?_
    calls := fun c claim call hc hcall ↦ h.calls c claim call (hcalls c claim call hc hcall) hcall
    calls_distinct := fun c c' claim claim' call call' hc hc' hcall hcall' ↦
      h.calls_distinct c c' claim claim' call call' (hcalls c claim call hc hcall)
        (hcalls c' claim' call' hc' hcall') hcall hcall'
    bound := h.bound }
  · rw [(elsewhere_setOwner w.state i owner).owners j (by omega)]
    exact h.outside j hj
  · rcases holdPendings p pending hp with hp | ⟨-, hnew⟩
    · rcases holdClaims c claim hc with hc | ⟨-, hnew⟩
      · exact h.apart p pending c claim hp hc
      · exact hnew p pending hp
    · exact hnew c claim hc
  · rcases holdPendings p pending hp with hp | ⟨hnew, -⟩
    · exact h.shown p pending hp
    · exact hnew

end

end Inv

/-- A claim is of the first slot that is free and retired. -/
theorem State.tryClaimWrite_cases (config : Config) (s : State) :
    s.tryClaimWrite config = (s, none) ∨
      ∃ i < config.capacityRecords, s.stopped = false ∧ (s.owners i).state = .free ∧
        (s.deliveries i).state = .retired ∧
        s.tryClaimWrite config =
          (s.setOwner i ⟨.reserved, nextGeneration (s.owners i).generation⟩,
            some ⟨i, nextGeneration (s.owners i).generation⟩) := by
  unfold State.tryClaimWrite
  split
  · exact .inl rfl
  · next hopen =>
    split
    · exact .inl rfl
    · next i hfind =>
      have hi := List.mem_range.mp (List.mem_of_find?_eq_some hfind)
      have hslot := List.find?_some hfind
      rw [Bool.and_eq_true, beq_iff_eq, beq_iff_eq] at hslot
      rw [Bool.or_eq_true, not_or, Bool.not_eq_true] at hopen
      exact .inr ⟨i, hi, hopen.1, hslot.1, hslot.2, rfl⟩

/-- The two `take` functions take the slot with the lowest sequence. -/
theorem State.take_cases (config : Config) (s : State) (state next : SlotState) :
    (s.take config state next = (s, none) ∧
      ∀ i < config.capacityRecords, (s.owners i).state ≠ state) ∨
      ∃ i < config.capacityRecords, (s.owners i).state = state ∧
        (∀ j < config.capacityRecords, (s.owners j).state = state →
          (s.deliveries i).admissionSequence ≤ (s.deliveries j).admissionSequence) ∧
        s.take config state next =
          (s.setOwner i { s.owners i with state := next }, some ⟨i, (s.owners i).generation⟩) := by
  have hspec := selectLowest_spec (fun i ↦ (s.owners i).state == state)
    (fun i ↦ (s.deliveries i).admissionSequence) config.capacityRecords
  unfold State.take State.findLowestSequence
  cases hselected : selectLowest (fun i ↦ (s.owners i).state == state)
      (fun i ↦ (s.deliveries i).admissionSequence) config.capacityRecords with
  | none =>
    rw [hselected] at hspec
    exact .inl ⟨rfl, fun i hi ↦ beq_eq_false_iff_ne.mp (hspec i hi)⟩
  | some i =>
    rw [hselected] at hspec
    obtain ⟨hi, hstate, hlowest⟩ := hspec
    exact .inr ⟨i, hi, beq_iff_eq.mp hstate,
      fun j hj hj' ↦ hlowest j hj (beq_iff_eq.mpr hj'), rfl⟩

namespace Inv

variable {p c k : ℕ} {pending : Pending} {claim : Claim} {identity : SlotIdentity}
  {o : Observation}

section

variable (h : Inv config w)

include h

theorem tryClaimWrite (hc : w.claims c = none) : Inv config (w.tryClaimWrite config c) := by
  unfold World.tryClaimWrite
  rcases State.tryClaimWrite_cases config w.state with
    heq | ⟨i, hi, hstopped, hfree, hretired, heq⟩
  · rw [heq]
    dsimp only [Option.map_none]
    rw [Handles.update_none hc]
    exact h
  rw [heq]
  have he := elsewhere_setOwner w.state i ⟨.reserved, nextGeneration (w.state.owners i).generation⟩
  have hpending : ∀ {p pending}, w.pendings p = some pending → pending.identity.index ≠ i :=
    fun hp ↦ h.index_ne_of_pending hstopped hp (by rw [hfree]; nofun)
  refine h.reown hi (recast_setOwner ?_ ?_ nofun (fun _ ↦ hretired) h.books.reserved) ?_ ?_ ?_
    (fun _ _ hk ↦ hk) ?_ fun _ _ hp ↦ .inl hp
  · exact iff_of_false nofun (State.not_waiting hfree nofun nofun)
  · exact iff_of_false nofun (by rw [hfree]; nofun)
  · refine h.claims.grant (Handles.stampIn_of_ne (by rw [hfree]; nofun)) ?_ fun _ ↦ he.under
    exact Handles.stampIn_eq_some.mpr (by rw [State.setOwner_self]; exact ⟨rfl, rfl⟩)
  · exact fun _ ↦ (h.pendings hstopped).congr fun p pending hp ↦ he.under (hpending hp)
  · exact h.observations.elsewhere (Handles.stampIn_of_ne (by rw [hfree]; nofun)) fun _ ↦ he.under
  · intro c' claim hc'
    by_cases hcc : c' = c
    · rw [hcc, Option.map_some, Function.update_self] at hc'
      cases hc'
      exact .inr ⟨rfl, fun p pending hp ↦ hpending hp⟩
    · rw [Function.update_of_ne hcc] at hc'
      exact .inl hc'

theorem resetClaim (c : ℕ) : Inv config (w.resetClaim config c) := by
  unfold World.resetClaim
  split
  · exact h
  · next claim hc =>
    obtain ⟨hstate, hgeneration⟩ := h.state_of_claim hc
    have hi := h.lt_capacity (i := claim.identity.index) (by rw [hstate]; nofun)
    have he := elsewhere_setOwner w.state claim.identity.index
      { w.state.owners claim.identity.index with state := .free }
    rw [State.releaseSlotHandle, if_pos (h.names hstate nofun hgeneration), State.setState]
    refine h.reown hi (recast_setOwner ?_ ?_ nofun nofun h.books.reserved) ?_ ?_ ?_
      (fun _ _ hk ↦ hk) (fun c' claim' hc' ↦ .inl (Handles.eq_some_of_update_none hc'))
      fun _ _ hp ↦ .inl hp
    · exact iff_of_false nofun (State.not_waiting hstate nofun nofun)
    · exact iff_of_false nofun (by rw [hstate]; nofun)
    · exact h.claims.release hc fun _ ↦ he.under
    · exact fun hstopped ↦ (h.pendings hstopped).elsewhere
        (Handles.stampIn_of_ne (by rw [hstate]; nofun)) fun _ ↦ he.under
    · exact h.observations.elsewhere (Handles.stampIn_of_ne (by rw [hstate]; nofun))
        fun _ ↦ he.under

theorem release (k : ℕ) : Inv config (w.release config k) := by
  unfold World.release
  split
  · exact h
  · next o hk =>
    obtain ⟨hstate, hgeneration⟩ := h.state_of_observation hk
    have hi := h.lt_capacity (i := o.identity.index) (by rw [hstate]; nofun)
    have he := elsewhere_setOwner w.state o.identity.index
      { w.state.owners o.identity.index with state := .free }
    rw [State.releaseSlotHandle, if_pos (h.names hstate nofun hgeneration), State.setState]
    refine h.reown hi (recast_setOwner ?_ ?_ nofun nofun h.books.reserved) ?_ ?_ ?_
      (fun _ _ hk' ↦ Handles.eq_some_of_update_none hk') (fun _ _ hc ↦ .inl hc) fun _ _ hp ↦ .inl hp
    · exact iff_of_false nofun (State.not_waiting hstate nofun nofun)
    · exact iff_of_false nofun (by rw [hstate]; nofun)
    · exact h.claims.elsewhere (Handles.stampIn_of_ne (by rw [hstate]; nofun)) fun _ ↦ he.under
    · exact fun hstopped ↦ (h.pendings hstopped).elsewhere
        (Handles.stampIn_of_ne (by rw [hstate]; nofun)) fun _ ↦ he.under
    · exact h.observations.release hk fun _ ↦ he.under

theorem tryTakePendingDelivery (hp : w.pendings p = none) :
    Inv config (w.tryTakePendingDelivery config p) := by
  unfold World.tryTakePendingDelivery State.tryTakePendingDelivery
  rcases State.take_cases config w.state .pending .delivering with
    ⟨heq, -⟩ | ⟨i, hi, hstate, -, heq⟩
  · rw [heq]
    dsimp only [Option.map_none]
    rw [Handles.update_none hp]
    exact h
  rw [heq]
  have he := elsewhere_setOwner w.state i { w.state.owners i with state := .delivering }
  have hclaim : ∀ {c claim}, w.claims c = some claim → claim.identity.index ≠ i :=
    fun hc ↦ h.index_ne_of_claim hc (by rw [hstate]; nofun)
  refine h.reown hi (recast_setOwner ?_ ?_ nofun nofun h.books.reserved) ?_ ?_ ?_
    (fun _ _ hk ↦ hk) (fun _ _ hc ↦ .inl hc) fun p' pending hp' ↦ ?_
  · exact iff_of_true (.inr rfl) (.inl hstate)
  · exact iff_of_false nofun (by rw [hstate]; nofun)
  · exact h.claims.congr fun c claim hc ↦ he.under (hclaim hc)
  · intro hstopped
    refine (h.pendings hstopped).grant (Handles.stampIn_of_ne (by rw [hstate]; nofun)) ?_
      fun _ ↦ he.under
    exact Handles.stampIn_eq_some.mpr (by rw [State.setOwner_self]; exact ⟨rfl, rfl⟩)
  · exact h.observations.elsewhere (Handles.stampIn_of_ne (by rw [hstate]; nofun)) fun _ ↦ he.under
  · by_cases hpp : p' = p
    · rw [hpp, Option.map_some, Function.update_self] at hp'
      cases hp'
      exact .inr ⟨(h.books.waiting (.inl hstate)).2.1, fun c claim hc ↦ (hclaim hc).symm⟩
    · rw [Function.update_of_ne hpp] at hp'
      exact .inl hp'

/-- The history goes on at one slot, while handles are given up or turn into observations. -/
theorem settle {claims : ℕ → Option Claim} {pendings : ℕ → Option Pending}
    {observations : ℕ → Option Observation} (he : Elsewhere w.state s' i)
    (hi : i < config.capacityRecords) (hstopped : s'.stopped = w.state.stopped)
    (hnew : s'.stopped = true → ¬s'.Waiting i) (hbooks : Books s' submitted outcomes taken)
    (hclaims : Handles.Owning (·.identity.index) (·.identity.generation) claims
      (s'.under .reserved))
    (hpendings : s'.stopped = false → Handles.Owning (·.identity.index)
      (·.identity.generation) pendings (s'.under .delivering))
    (hobservations : Handles.Owning (·.identity.index) (·.identity.generation) observations
      (s'.under .held))
    (hobserved : ∀ k o, observations k = some o →
      (s'.deliveries o.identity.index).admissionSequence = o.admissionSequence)
    (holdClaims : ∀ c claim, claims c = some claim → w.claims c = some claim)
    (holdPendings : ∀ p pending, pendings p = some pending → w.pendings p = some pending)
    (hsubmitted : ∀ f ∈ w.submitted, f ∈ submitted)
    (hcalls : ∀ c claim call, claims c = some claim → claim.storing = some call →
      call.admissionSequence ∉ submitted.map Prod.fst)
    (hbound : ∀ f ∈ submitted, f.1 < w.bound) :
    Inv config
      { w with
        state := s'
        claims := claims
        pendings := pendings
        observations := observations
        submitted := submitted
        outcomes := outcomes
        taken := taken } where
  outside := fun j hj ↦ by
    have hji : j ≠ i := by omega
    dsimp only
    rw [he.owners j hji, he.deliveries j hji]
    exact h.outside j hj
  books := hbooks
  claims := hclaims
  pendings := hpendings
  observations := hobservations
  observed := hobserved
  stopped := fun hs j hj ↦ by
    by_cases hji : j = i
    · exact hnew hs (hji ▸ hj)
    · exact h.stopped (hstopped ▸ hs) j ((he.waiting hji).mp hj)
  apart := fun p pending c claim hp hc ↦
    h.apart p pending c claim (holdPendings p pending hp) (holdClaims c claim hc)
  shown := fun p pending hp ↦ by
    have hshown := hsubmitted _ (h.shown p pending (holdPendings p pending hp))
    rw [State.pendingBytes] at hshown ⊢
    dsimp only
    rwa [he.buffers]
  calls := fun c claim call hc hcall ↦ by
    obtain ⟨hlt, -, hframe⟩ := h.calls c claim call (holdClaims c claim hc) hcall
    refine ⟨hlt, hcalls c claim call hc hcall, ?_⟩
    dsimp only
    rwa [he.buffers]
  calls_distinct := fun c c' claim claim' call call' hc hc' ↦
    h.calls_distinct c c' claim claim' call call' (holdClaims c claim hc)
      (holdClaims c' claim' hc')
  bound := hbound

theorem tryTake (hk : w.observations k = none) : Inv config (w.tryTake config k) := by
  unfold World.tryTake State.tryTake
  rcases State.take_cases config w.state .ready .held with ⟨heq, -⟩ | ⟨i, hi, hstate, -, heq⟩
  · rw [heq]
    dsimp only [Option.map_none, Option.toList_none]
    rw [Handles.update_none hk, List.append_nil]
    exact h
  rw [heq]
  have he := elsewhere_setOwner w.state i { w.state.owners i with state := .held }
  have hself : ((w.state.setOwner i { w.state.owners i with state := .held }).owners i).state =
      .held := congrArg Owner.state (State.setOwner_self ..)
  refine h.settle he hi rfl (fun _ ↦ State.not_waiting hself nofun nofun)
    (h.books.take he hstate hself rfl) ?_ ?_ ?_ (fun k' o hk' ↦ ?_) (fun _ _ hc ↦ hc)
    (fun _ _ hp ↦ hp) (fun _ hf ↦ hf)
    (fun c claim call hc hcall ↦ (h.calls c claim call hc hcall).2.1) h.bound
  · exact h.claims.elsewhere (Handles.stampIn_of_ne (by rw [hstate]; nofun)) fun _ ↦ he.under
  · exact fun hstopped ↦ (h.pendings hstopped).elsewhere
      (Handles.stampIn_of_ne (by rw [hstate]; nofun)) fun _ ↦ he.under
  · refine h.observations.grant (Handles.stampIn_of_ne (by rw [hstate]; nofun)) ?_
      fun _ ↦ he.under
    exact Handles.stampIn_eq_some.mpr (by rw [State.setOwner_self]; exact ⟨rfl, rfl⟩)
  · by_cases hkk : k' = k
    · rw [hkk, Option.map_some, Function.update_self] at hk'
      cases hk'
      rfl
    · rw [Function.update_of_ne hkk] at hk'
      exact h.observed k' o hk'

/-- A pending delivery whose slot was taken away is refused. -/
theorem finish_stopped (hstopped : w.state.stopped = true) (identity : SlotIdentity)
    (delivered : Bool) : w.state.finish config identity delivered = (w.state, .cancelled) := by
  have hnot : w.state.names config identity .delivering = false := by
    rw [Bool.eq_false_iff, State.names, Ne, Bool.and_eq_true, Bool.and_eq_true, beq_iff_eq]
    exact fun hnames ↦ h.stopped hstopped _ (.inr hnames.1.2)
  rw [State.finish, hnot]
  rfl

theorem finish_open (hstopped : w.state.stopped = false) (hp : w.pendings p = some pending)
    (delivered : Bool) :
    w.state.finish config pending.identity delivered =
      ((w.state.setState pending.identity.index (if delivered then .ready else .free)).setDelivery
        pending.identity.index
        { w.state.deliveries pending.identity.index with
          state := if delivered then .delivered else .failed }, .completed) := by
  obtain ⟨hstate, hgeneration⟩ := h.state_of_pending hstopped hp
  rw [State.finish, h.names hstate nofun hgeneration]
  cases delivered <;> rfl

theorem finish (p : ℕ) (delivered : Bool) : Inv config (w.finish config p delivered) := by
  unfold World.finish
  split
  · exact h
  next pending hp =>
  cases hstopped : w.state.stopped with
  | true =>
    rw [h.finish_stopped hstopped]
    exact { h with
      pendings := fun hopen ↦ by cases hstopped.symm.trans hopen
      apart := fun p' pending' c claim hp' ↦
        h.apart p' pending' c claim (Handles.eq_some_of_update_none hp')
      shown := fun p' pending' hp' ↦ h.shown p' pending' (Handles.eq_some_of_update_none hp') }
  | false =>
    rw [h.finish_open hstopped hp delivered]
    have hstate := (h.state_of_pending hstopped hp).1
    have hi := h.lt_capacity (i := pending.identity.index) (by rw [hstate]; nofun)
    have he := elsewhere_set w.state pending.identity.index (if delivered then .ready else .free)
      { w.state.deliveries pending.identity.index with
        state := if delivered then .delivered else .failed }
    have howner := set_owner_self w.state pending.identity.index
      (if delivered then .ready else .free)
      { w.state.deliveries pending.identity.index with
        state := if delivered then .delivered else .failed }
    dsimp only
    rw [if_pos rfl]
    refine h.settle he hi rfl (fun hs ↦ by cases hstopped.symm.trans hs)
      (h.books.complete he (.inr hstate) ?_ ?_ (set_delivery_self ..)) ?_ ?_ ?_
      (fun k o hk ↦ ?_) (fun _ _ hc ↦ hc) (fun _ _ hp' ↦ Handles.eq_some_of_update_none hp')
      (fun _ hf ↦ hf)
      (fun c claim call hc hcall ↦ (h.calls c claim call hc hcall).2.1) h.bound
    · cases delivered
      · exact .inr (.inl rfl)
      · exact .inl rfl
    · rw [howner]
      cases delivered <;> rfl
    · exact h.claims.elsewhere (Handles.stampIn_of_ne (by rw [hstate]; nofun)) fun _ ↦ he.under
    · exact fun _ ↦ (h.pendings hstopped).release hp fun _ ↦ he.under
    · exact h.observations.elsewhere (Handles.stampIn_of_ne (by rw [hstate]; nofun))
        fun _ ↦ he.under
    · rw [he.deliveries _ (h.index_ne_of_observation hk (by rw [hstate]; nofun))]
      exact h.observed k o hk

theorem store {call : StoreCall} (hc : w.claims c = some ⟨identity, some call⟩) :
    Inv config (w.store config c identity call) := by
  unfold World.store
  split
  swap
  · exact h.resetClaim c
  have hstate : (w.state.owners identity.index).state = .reserved := (h.state_of_claim hc).1
  obtain ⟨hlt, hnew, hframe⟩ := h.calls c _ call hc rfl
  have hi := h.lt_capacity (i := identity.index) (by rw [hstate]; nofun)
  have he := elsewhere_set w.state identity.index w.state.submission.1
    { state := w.state.submission.2, admissionSequence := call.admissionSequence,
      encodedBytes := call.result.encodedBytes }
  refine h.settle he hi rfl (fun hs ↦ ?_) (h.books.store hstate hframe hnew) ?_ ?_ ?_
    (fun k o hk ↦ ?_) (fun _ _ hc' ↦ Handles.eq_some_of_update_none hc') (fun _ _ hp ↦ hp)
    (fun _ hf ↦ List.mem_append_left _ hf) (fun c' claim call' hc' hcall' ↦ ?_) fun f hf ↦ ?_
  · rcases w.state.submission_cases with ⟨-, hopen⟩ | ⟨o, -, hsubmission⟩
    · cases hopen.symm.trans hs
    · refine State.not_waiting (set_owner_self ..) ?_ ?_
      all_goals
        rw [hsubmission]
        dsimp only
        split <;> nofun
  · exact h.claims.release hc fun _ ↦ he.under
  · exact fun hstopped ↦ (h.pendings hstopped).elsewhere
      (Handles.stampIn_of_ne (by rw [hstate]; nofun)) fun _ ↦ he.under
  · exact h.observations.elsewhere (Handles.stampIn_of_ne (by rw [hstate]; nofun)) fun _ ↦ he.under
  · rw [State.store, he.deliveries _ (h.index_ne_of_observation hk (by rw [hstate]; nofun))]
    exact h.observed k o hk
  · have hold := Handles.eq_some_of_update_none hc'
    rw [List.map_append, List.mem_append, List.map_singleton, List.mem_singleton]
    refine not_or_intro (h.calls c' claim call' hold hcall').2.1 fun heq ↦ ?_
    have hcc := h.calls_distinct c' c claim _ call' call hold hc hcall' rfl heq
    rw [hcc, Function.update_self] at hc'
    cases hc'
  · rcases List.mem_append.mp hf with hf | hf
    · exact h.bound f hf
    · rw [List.mem_singleton.mp hf]
      exact hlt

theorem encode {admissionSequence : ℕ} {record : RecordView}
    (hc : w.claims c = some ⟨identity, none⟩) (hbound : w.bound ≤ admissionSequence) :
    Inv config (w.encode conv config c identity admissionSequence record) := by
  have hstate : (w.state.owners identity.index).state = .reserved := (h.state_of_claim hc).1
  unfold World.encode State.encode
  obtain ⟨buffer, result⟩ := encodeRawRecord conv record (w.state.buffers identity.index)
    config.maximumEncodedRecordBytes
  dsimp only
  rw [Function.update_self]
  have hbuffer : ∀ j, j ≠ identity.index →
      Function.update w.state.buffers identity.index buffer j = w.state.buffers j :=
    fun j hj ↦ Function.update_of_ne hj _ _
  have hframe : ∀ j, (w.state.owners j).state ≠ .reserved → State.frame
      { w.state with
        buffers := Function.update w.state.buffers identity.index buffer } j = w.state.frame j := by
    intro j hj
    rw [State.frame]
    dsimp only
    rw [hbuffer j (fun heq ↦ hj (heq ▸ hstate)), State.frame]
  refine { h with
    books := h.books.recast ⟨fun _ ↦ Iff.rfl, fun _ ↦ Iff.rfl, fun _ hj ↦ hj, h.books.reserved,
      fun _ ↦ rfl, hframe, fun _ ↦ .inl rfl⟩
    claims := h.claims.modify hc rfl rfl
    apart := fun p pending c' claim hp hc' ↦ ?_
    shown := fun p pending hp ↦ ?_
    calls := fun c' claim call hc' hcall ↦ ?_
    calls_distinct := fun c₁ c₂ claim₁ claim₂ call₁ call₂ h₁ h₂ hcall₁ hcall₂ heq ↦ ?_
    bound := fun f hf ↦ (h.bound f hf).trans (Nat.lt_succ_of_le hbound) }
  · dsimp only at hc'
    by_cases hcc : c' = c
    · rw [hcc, Function.update_self] at hc'
      cases hc'
      exact h.apart p pending c ⟨identity, none⟩ hp hc
    · rw [Function.update_of_ne hcc] at hc'
      exact h.apart p pending c' claim hp hc'
  · have hne := h.apart p pending c _ hp hc
    have hshown := h.shown p pending hp
    rw [State.pendingBytes] at hshown ⊢
    dsimp only
    rwa [hbuffer _ hne]
  · dsimp only at hc'
    by_cases hcc : c' = c
    · rw [hcc, Function.update_self] at hc'
      cases hc'
      cases hcall
      refine ⟨Nat.lt_succ_self _, fun hmem ↦ ?_, by dsimp only; rw [Function.update_self]⟩
      obtain ⟨f, hf, heq⟩ := List.mem_map.mp hmem
      exact absurd (h.bound f hf) (not_lt.mpr (heq ▸ hbound))
    · rw [Function.update_of_ne hcc] at hc'
      obtain ⟨hlt, hnew, hread⟩ := h.calls c' claim call hc' hcall
      refine ⟨hlt.trans (Nat.lt_succ_of_le hbound), hnew, ?_⟩
      dsimp only
      rw [hbuffer _ fun heq ↦ hcc (h.claims.unique hc' hc heq)]
      exact hread
  · dsimp only at h₁ h₂
    by_cases hc₁ : c₁ = c <;> by_cases hc₂ : c₂ = c
    · rw [hc₁, hc₂]
    · rw [hc₁, Function.update_self] at h₁
      rw [Function.update_of_ne hc₂] at h₂
      cases h₁
      cases hcall₁
      have hlt := (h.calls c₂ claim₂ call₂ h₂ hcall₂).1
      rw [← heq] at hlt
      exact absurd hlt (not_lt.mpr hbound)
    · rw [hc₂, Function.update_self] at h₂
      rw [Function.update_of_ne hc₁] at h₁
      cases h₂
      cases hcall₂
      have hlt := (h.calls c₁ claim₁ call₁ h₁ hcall₁).1
      rw [heq] at hlt
      exact absurd hlt (not_lt.mpr hbound)
    · rw [Function.update_of_ne hc₁] at h₁
      rw [Function.update_of_ne hc₂] at h₂
      exact h.calls_distinct c₁ c₂ claim₁ claim₂ call₁ call₂ h₁ h₂ hcall₁ hcall₂ heq

theorem retire {deliveries : ℕ → Delivery}
    (hd : ∀ i, deliveries i = w.state.deliveries i ∨
      deliveries i = { w.state.deliveries i with state := .retired } ∧
      (w.state.deliveries i).state ≠ .inFlight) :
    Inv config { w with state := { w.state with deliveries := deliveries } } := by
  have hsequence : ∀ i, (deliveries i).admissionSequence =
      (w.state.deliveries i).admissionSequence := fun i ↦ by
    rcases hd i with heq | ⟨heq, -⟩ <;> rw [heq]
  have hframe : ∀ i, State.frame { w.state with deliveries := deliveries } i =
      w.state.frame i := fun i ↦ by
    unfold State.frame
    dsimp only
    rcases hd i with heq | ⟨heq, -⟩ <;> rw [heq]
  have hretired : ∀ i, (w.state.deliveries i).state = .retired →
      (deliveries i).state = .retired := fun i hi ↦ by
    rcases hd i with heq | ⟨heq, -⟩ <;> rw [heq]
    exact hi
  refine { h with
    outside := fun i hi ↦ ⟨(h.outside i hi).1, hretired i (h.outside i hi).2⟩
    books := h.books.recast ⟨fun _ ↦ Iff.rfl, fun _ ↦ Iff.rfl, fun _ hi ↦ hi,
      fun i hi ↦ hretired i (h.books.reserved i hi), fun i ↦ by rw [hframe], fun i _ ↦ hframe i,
      fun i ↦ ?_⟩
    observed := fun k o hk ↦ (hsequence _).trans (h.observed k o hk) }
  rcases hd i with heq | ⟨heq, hne⟩
  · exact .inl (congrArg Delivery.state heq)
  · exact .inr ⟨congrArg Delivery.state heq, hne⟩

end

end Inv

theorem State.stop_eq (config : Config) (s : State) :
    s.stop config =
      { s.cancel ((List.range config.capacityRecords).filter (s.interrupted config)) with
        stopped := true } := by
  have hmem : ∀ i, (i ∈ (List.range config.capacityRecords).filter (s.interrupted config)) =
      (s.interrupted config i = true) := by
    intro i
    rw [List.mem_filter, List.mem_range, eq_iff_iff, and_iff_right_iff_imp]
    intro hi
    rw [State.interrupted, Bool.and_eq_true, decide_eq_true_iff] at hi
    exact hi.1
  simp only [State.stop, State.cancel, hmem]

theorem State.waiting_of_interrupted (h : s.interrupted config i = true) : s.Waiting i := by
  rw [State.interrupted, Bool.and_eq_true, Bool.or_eq_true, beq_iff_eq, beq_iff_eq] at h
  exact h.2

namespace Inv

variable {p c k : ℕ} {pending : Pending} {claim : Claim} {identity : SlotIdentity}
  {o : Observation}

section

variable (h : Inv config w)

include h

theorem tryRetire (n : ℕ) : Inv config { w with state := (w.state.tryRetire config n).1 } := by
  unfold State.tryRetire
  rcases tryRetire_cases w.state.deliveries config.capacityRecords n with
    heq | ⟨i, -, o, ho, -, heq⟩
  · rw [heq]
    exact h
  · rw [heq]
    refine h.retire fun j ↦ ?_
    by_cases hji : j = i
    · refine .inr ⟨?_, ?_⟩
      · rw [hji, Function.update_self]
      · intro hflight
        rw [hji.symm, hflight] at ho
        cases ho
    · exact .inl (Function.update_of_ne hji _ _)

theorem discardInFlight (hstopped : w.state.stopped = true) :
    Inv config { w with state := w.state.discardInFlight config } := by
  refine h.retire fun i ↦ ?_
  rw [Ulog.discardInFlight]
  split
  · exact .inr ⟨rfl, fun hflight ↦ h.stopped hstopped i ((h.books.slot i).inFlight hflight)⟩
  · exact .inl rfl

theorem stop : Inv config (w.stop config) := by
  have hnodup : ((List.range config.capacityRecords).filter
      (w.state.interrupted config)).Nodup := List.nodup_range.filter _
  have hbooks := h.books.cancel hnodup fun i hi ↦
    State.waiting_of_interrupted (List.mem_filter.mp hi).2
  have howner : ∀ {i}, ¬w.state.Waiting i → (w.state.stop config).owners i = w.state.owners i :=
    fun hi ↦ if_neg fun hint ↦ hi (State.waiting_of_interrupted hint)
  have hunder : ∀ {i state}, ¬w.state.Waiting i →
      (w.state.stop config).under state i = w.state.under state i := fun hi ↦
    Handles.stampIn_congr (congrArg Owner.state (howner hi))
      (congrArg Owner.generation (howner hi))
  have hsequence : ∀ i, ((w.state.stop config).deliveries i).admissionSequence =
      (w.state.deliveries i).admissionSequence := fun i ↦ by
    unfold State.stop
    dsimp only
    split <;> rfl
  refine { h with
    outside := fun i hi ↦ ?_
    books := ?_
    claims := h.claims.congr fun c claim hc ↦
      hunder (State.not_waiting (h.state_of_claim hc).1 nofun nofun)
    pendings := nofun
    observations := h.observations.congr fun k o hk ↦
      hunder (State.not_waiting (h.state_of_observation hk).1 nofun nofun)
    observed := fun k o hk ↦ (hsequence _).trans (h.observed k o hk)
    stopped := fun _ i hi ↦ ?_ }
  · have hnot : w.state.interrupted config i = false := by
      rw [State.interrupted, decide_eq_false (by omega)]
      rfl
    have hold := h.outside i hi
    unfold World.stop State.stop
    dsimp only
    rw [hnot]
    exact hold
  · unfold World.stop
    rw [State.stop_eq]
    exact hbooks.recast ⟨fun _ ↦ Iff.rfl, fun _ ↦ Iff.rfl, fun _ hi ↦ hi, hbooks.reserved,
      fun _ ↦ rfl, fun _ _ ↦ rfl, fun _ ↦ .inl rfl⟩
  · unfold World.stop State.stop State.Waiting at hi
    dsimp only at hi
    split at hi
    · rcases hi with hi | hi <;> cases hi
    · next hint =>
      have hlt := h.lt_capacity (i := i) (by rcases hi with hi | hi <;> rw [hi] <;> nofun)
      rw [State.interrupted, decide_eq_true hlt, Bool.true_and, Bool.or_eq_true, beq_iff_eq,
        beq_iff_eq] at hint
      exact hint hi

theorem moveClaim (c c' : ℕ) : Inv config (w.moveClaim config c c') := by
  unfold World.moveClaim
  split
  · exact h
  · have hreset := h.resetClaim c'
    exact { hreset with
      claims := hreset.claims.move c c'
      apart := fun p pending _ claim hp hi ↦
        hreset.apart p pending _ claim hp (Handles.move_source hi)
      calls := fun _ claim call hi hcall ↦
        hreset.calls _ claim call (Handles.move_source hi) hcall
      calls_distinct := fun _ _ claim claim' call call' hi hj hcall hcall' heq ↦
        Handles.move_source_inj hi hj <| hreset.calls_distinct _ _ claim claim' call call'
          (Handles.move_source hi) (Handles.move_source hj) hcall hcall' heq }

theorem movePending (p p' : ℕ) : Inv config (w.movePending config p p') := by
  unfold World.movePending
  split
  · exact h
  · have hfinish := h.finish p' false
    exact { hfinish with
      pendings := fun hstopped ↦ (hfinish.pendings hstopped).move p p'
      apart := fun _ pending c claim hi hc ↦
        hfinish.apart _ pending c claim (Handles.move_source hi) hc
      shown := fun _ pending hi ↦ hfinish.shown _ pending (Handles.move_source hi) }

theorem moveObservation (k k' : ℕ) : Inv config (w.moveObservation config k k') := by
  unfold World.moveObservation
  split
  · exact h
  · have hrelease := h.release k'
    exact { hrelease with
      observations := hrelease.observations.move k k'
      observed := fun _ o hi ↦ hrelease.observed _ o (Handles.move_source hi) }

theorem flags (mode : DeliveryMode) (paused : Bool) :
    Inv config { w with state := { w.state with deliveryMode := mode, paused := paused } } :=
  { h with
    books := h.books.recast ⟨fun _ ↦ Iff.rfl, fun _ ↦ Iff.rfl, fun _ hi ↦ hi, h.books.reserved,
      fun _ ↦ rfl, fun _ _ ↦ rfl, fun _ ↦ .inl rfl⟩ }

theorem step {action : Action} (hok : Disciplined w action)
    (hstep : w.step conv config action = some w') : Inv config w' := by
  cases action with
  | tryClaimWrite c =>
    obtain ⟨hc, ⟨⟩⟩ := Option.ite_none_left_eq_some.mp hstep
    exact h.tryClaimWrite (Option.not_isSome_iff_eq_none.mp hc)
  | encode c admissionSequence record =>
    simp only [World.step] at hstep
    split at hstep
    · cases hstep
      exact h
    · next identity hc =>
      cases hstep
      split
      · exact h
      · exact h.encode hc hok
    · cases hstep
  | store c =>
    simp only [World.step] at hstep
    split at hstep
    · next identity call hc =>
      cases hstep
      exact h.store hc
    · cases hstep
  | resetClaim c =>
    obtain ⟨-, ⟨⟩⟩ := Option.ite_none_left_eq_some.mp hstep
    exact h.resetClaim c
  | moveClaim c c' =>
    obtain ⟨-, ⟨⟩⟩ := Option.ite_none_left_eq_some.mp hstep
    exact h.moveClaim c c'
  | tryRetire n =>
    cases hstep
    exact h.tryRetire n
  | stop =>
    cases hstep
    exact h.stop
  | discardInFlight =>
    cases hstep
    exact h.discardInFlight hok
  | tryTakePendingDelivery p =>
    obtain ⟨hp, ⟨⟩⟩ := Option.ite_none_left_eq_some.mp hstep
    exact h.tryTakePendingDelivery (Option.not_isSome_iff_eq_none.mp hp)
  | finish p delivered =>
    cases hstep
    exact h.finish p delivered
  | movePending p p' =>
    cases hstep
    exact h.movePending p p'
  | tryTake k =>
    obtain ⟨hk, ⟨⟩⟩ := Option.ite_none_left_eq_some.mp hstep
    exact h.tryTake (Option.not_isSome_iff_eq_none.mp hk)
  | release k =>
    cases hstep
    exact h.release k
  | moveObservation k k' =>
    cases hstep
    exact h.moveObservation k k'
  | setDeliveryMode mode =>
    cases hstep
    exact h.flags mode w.state.paused
  | resume =>
    cases hstep
    exact h.flags w.state.deliveryMode false

end

end Inv

/-! ## Deliveries complete once -/

theorem resetClaim_submitted (c : ℕ) : (w.resetClaim config c).submitted = w.submitted := by
  unfold World.resetClaim
  split <;> rfl

theorem release_submitted (k : ℕ) : (w.release config k).submitted = w.submitted := by
  unfold World.release
  split <;> rfl

theorem finish_submitted (p : ℕ) (delivered : Bool) :
    (w.finish config p delivered).submitted = w.submitted := by
  unfold World.finish
  split <;> rfl

theorem step_submitted {action : Action} (hstep : w.step conv config action = some w') :
    w.submitted ⊆ w'.submitted := by
  cases action <;> simp only [World.step] at hstep <;>
    grind [World.tryClaimWrite, World.encode, World.store, World.moveClaim, World.stop,
      World.tryTakePendingDelivery, World.movePending, World.tryTake, World.moveObservation,
      resetClaim_submitted, release_submitted, finish_submitted]

namespace Books

/-- A sequence has one frame. -/
theorem frame_unique (h : Books s submitted outcomes taken) {n : ℕ} {frame frame' : Bytes}
    (hf : (n, frame) ∈ submitted) (hf' : (n, frame') ∈ submitted) : frame = frame' :=
  (Prod.mk.inj (List.inj_on_of_nodup_map h.unique hf hf' rfl)).2

theorem not_taken (h : Books s submitted outcomes taken) {o : ℕ × DeliveryState}
    (ho : o ∈ outcomes) (hne : o.2 ≠ .delivered) : o.1 ∉ taken := fun htaken ↦
  hne (Prod.ext_iff.mp (List.inj_on_of_nodup_map h.once ho (h.taken_delivered _ htaken) rfl)).2

theorem retired (h : Books s submitted outcomes taken) {n : ℕ} {retirement : DeliveryRetirement}
    (hretire : (s.tryRetire config n).2 = some retirement) :
    (n, retirement.outcome.state) ∈ outcomes := by
  unfold State.tryRetire at hretire
  rcases tryRetire_cases s.deliveries config.capacityRecords n with heq | ⟨i, -, o, ho, hn, heq⟩
  · rw [heq] at hretire
    cases hretire
  · rw [heq] at hretire
    cases hretire
    rw [← hn]
    exact (h.slot i).completed o ho

end Books

theorem State.lowest_take (config : Config) (s : State) (state next : SlotState) :
    Lowest config s state (s.take config state next).2 := by
  rcases s.take_cases config state next with ⟨heq, hnone⟩ | ⟨i, hi, hstate, hlowest, heq⟩
  · rw [heq]
    exact hnone
  · rw [heq]
    exact ⟨hi, hstate, hlowest⟩

namespace Inv

variable {c k : ℕ} {claim : Claim} {o : Observation}

theorem available (h : Inv config w) {n : ℕ} {frame : Bytes} (hf : (n, frame) ∈ w.submitted)
    (hdelivered : (n, .delivered) ∈ w.outcomes) (htaken : n ∉ w.taken) :
    ∃ i < config.capacityRecords, (w.state.owners i).state = .ready ∧
      (w.state.deliveries i).admissionSequence = n ∧
      read (w.state.buffers i) 0 (w.state.deliveries i).encodedBytes = frame := by
  obtain hold | ⟨i, hi, rfl⟩ := h.books.available n hdelivered
  · exact absurd hold htaken
  · exact ⟨i, h.lt_capacity (by rw [hi]; nofun), hi, rfl,
      h.books.frame_unique ((h.books.slot i).ready hi).1 hf⟩

theorem observe (h : Inv config w) (hk : w.observations k = some o) :
    o.admissionSequence ∈ w.taken ∧ w.state.observe config o.identity ∈ w.submitted ∧
      (w.state.observe config o.identity).1 = o.admissionSequence := by
  obtain ⟨hstate, hgeneration⟩ := h.state_of_observation hk
  obtain ⟨hmem, htaken⟩ := (h.books.slot _).held hstate
  have hsequence := h.observed k o hk
  have hobserve : w.state.observe config o.identity = w.state.frame o.identity.index :=
    if_pos (h.names hstate nofun hgeneration)
  rw [hobserve]
  exact ⟨hsequence ▸ htaken, hmem, hsequence⟩

theorem claimed (h : Inv config w) (hstep : w.step conv config (.tryClaimWrite c) = some w')
    (hclaim : w'.claims c = some claim) :
    (w.state.owners claim.identity.index).state = .free ∧
      (w.state.deliveries claim.identity.index).state = .retired ∧
      (∀ p pending, w.pendings p = some pending →
        pending.identity.index ≠ claim.identity.index) ∧
      ∀ k o, w.observations k = some o → o.identity.index ≠ claim.identity.index := by
  obtain ⟨-, ⟨⟩⟩ := Option.ite_none_left_eq_some.mp hstep
  unfold World.tryClaimWrite at hclaim
  rcases State.tryClaimWrite_cases config w.state with
    heq | ⟨i, hi, hstopped, hfree, hretired, heq⟩
  · rw [heq] at hclaim
    dsimp only [Option.map_none] at hclaim
    rw [Function.update_self] at hclaim
    cases hclaim
  · rw [heq] at hclaim
    dsimp only [Option.map_some] at hclaim
    rw [Function.update_self] at hclaim
    cases hclaim
    exact ⟨hfree, hretired,
      fun p pending hp ↦ h.index_ne_of_pending hstopped hp (by rw [hfree]; nofun),
      fun k o hk ↦ h.index_ne_of_observation hk (by rw [hfree]; nofun)⟩

end Inv

/-- In every run of a disciplined worker with any application, deliveries complete once and slots
are not reused early. -/
theorem deliveries_exactly (h : (machine conv config).Reach Disciplined w) :
    Exactly conv config w := by
  have hinv : Inv config w := h.invariant Inv.init fun _ _ _ hs hok hstep ↦ hs.step hok hstep
  have hbooks := hinv.books
  refine ⟨⟨hbooks.once, hbooks.kind⟩, fun hstopped f hf ↦ ?_, fun _ _ ↦ hbooks.retired,
    fun _ _ ↦ hinv.available, ⟨hbooks.taken_nodup, fun _ ↦ hbooks.not_taken⟩,
    hbooks.taken_delivered, ⟨State.lowest_take .., State.lowest_take ..⟩,
    fun hstopped _ pending delivered _ ↦ hinv.finish_stopped hstopped pending.identity delivered,
    hinv.shown, fun _ _ ↦ hinv.observe, fun action w' hok hstep ↦ ⟨?_, ?_⟩,
    fun _ _ _ ↦ hinv.claimed⟩
  · rcases hbooks.answered f hf with hanswered | ⟨i, hi, -⟩
    · exact hanswered
    · exact absurd hi (hinv.stopped hstopped i)
  · intro p p' pending hp hp'
    have hinv' := hinv.step hok hstep
    exact hinv'.books.frame_unique (hinv'.shown p' pending hp')
      (step_submitted hstep (hinv.shown p pending hp))
  · intro k k' o hk hk'
    have hinv' := hinv.step hok hstep
    obtain ⟨-, hmem, hsequence⟩ := hinv.observe hk
    obtain ⟨-, hmem', hsequence'⟩ := hinv'.observe hk'
    exact List.inj_on_of_nodup_map hinv'.books.unique hmem' (step_submitted hstep hmem)
      (hsequence'.trans hsequence.symm)

/-- A destination of three small slots. -/
def threeSlots : Config where
  capacityRecords := 3
  maximumRecordBytes := 256

/-- One frame is held back and completed, another one is cancelled in the hands of the
application. -/
theorem deliveries_exactly_cancelled : ∃ w,
    (machine .blank threeSlots).Reach Disciplined w ∧
    (w.state.stopped = true ∧ w.outcomes = [(3, .delivered), (5, .cancelled)] ∧ w.taken = [3]) ∧
    Exactly .blank threeSlots w := by
  obtain ⟨w, hw, htest⟩ := Machine.Reach.exists_of_run
    (machine .blank threeSlots) Disciplined
    (fun w ↦ decide (w.state.stopped = true ∧ w.outcomes = [(3, .delivered), (5, .cancelled)] ∧
      w.taken = [3]))
    [.setDeliveryMode .hold, .tryClaimWrite 0, .encode 0 3 ⟨fun _ ↦ 0, 0, 0⟩, .store 0,
      .tryTakePendingDelivery 0, .finish 0 true, .tryTake 0, .tryClaimWrite 0,
      .encode 0 5 ⟨fun _ ↦ 0, 0, 0⟩, .store 0, .tryTakePendingDelivery 1, .stop,
      .finish 1 true, .release 0] (by decide +kernel)
  exact ⟨w, hw, of_decide_eq_true htest, deliveries_exactly hw⟩

end Ulog.Encoded
