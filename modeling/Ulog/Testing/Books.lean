import Ulog.Testing.EncodedDestination

/-!
# The books of the encoded destination

`Books` is what the slots and the history say about one another: a sequence without an outcome is in
exactly one slot that waits for it, a delivered one that was not taken is in exactly one ready slot.
It does not speak of handles. Every entry point is one of a few moves of the books: a slot changes
hands (`Recast`), a frame is submitted, a waiting frame gets its outcome, a ready frame is taken.
-/

namespace Ulog.Encoded

open ByteMemory

variable {s s' : State} {i j : ℕ} {submitted : List (ℕ × Bytes)}
  {outcomes : List (ℕ × DeliveryState)} {taken : List ℕ}

namespace State

/-- The frame of a slot with its sequence. -/
def frame (s : State) (i : ℕ) : ℕ × Bytes :=
  ((s.deliveries i).admissionSequence, read (s.buffers i) 0 (s.deliveries i).encodedBytes)

/-- The frame of the slot waits for its outcome. -/
def Waiting (s : State) (i : ℕ) : Prop :=
  (s.owners i).state = .pending ∨ (s.owners i).state = .delivering

/-- The frame of the slot waits for its outcome or to be taken. -/
def Live (s : State) (i : ℕ) : Prop := s.Waiting i ∨ (s.owners i).state = .ready

theorem not_waiting {state : SlotState} (h : (s.owners i).state = state)
    (hpending : state ≠ .pending) (hdelivering : state ≠ .delivering) : ¬s.Waiting i := by
  rintro (hw | hw)
  · exact hpending (h.symm.trans hw)
  · exact hdelivering (h.symm.trans hw)

end State

/-- What the books say about a slot with this owner, delivery and frame. -/
structure SlotBooks (submitted : List (ℕ × Bytes)) (outcomes : List (ℕ × DeliveryState))
    (taken : List ℕ) (owner : SlotState) (delivery : DeliveryState) (frame : ℕ × Bytes) : Prop where
  reserved : owner = .reserved → delivery = .retired
  waiting : owner = .pending ∨ owner = .delivering →
    delivery = .inFlight ∧ frame ∈ submitted ∧ frame.1 ∉ outcomes.map Prod.fst
  inFlight : delivery = .inFlight → owner = .pending ∨ owner = .delivering
  ready : owner = .ready → frame ∈ submitted ∧ (frame.1, .delivered) ∈ outcomes ∧ frame.1 ∉ taken
  held : owner = .held → frame ∈ submitted ∧ frame.1 ∈ taken
  completed : ∀ o, delivery.outcome = some o → (frame.1, o.state) ∈ outcomes

structure Books (s : State) (submitted : List (ℕ × Bytes)) (outcomes : List (ℕ × DeliveryState))
    (taken : List ℕ) : Prop where
  slot : ∀ i,
    SlotBooks submitted outcomes taken (s.owners i).state (s.deliveries i).state (s.frame i)
  distinct : ∀ i j, s.Live i → s.Live j → (s.frame i).1 = (s.frame j).1 → i = j
  unique : (submitted.map Prod.fst).Nodup
  once : (outcomes.map Prod.fst).Nodup
  kind : ∀ o ∈ outcomes, o.1 ∈ submitted.map Prod.fst ∧
    (o.2 = .delivered ∨ o.2 = .failed ∨ o.2 = .cancelled)
  answered : ∀ f ∈ submitted, f.1 ∈ outcomes.map Prod.fst ∨ ∃ i, s.Waiting i ∧ (s.frame i).1 = f.1
  available : ∀ n, (n, .delivered) ∈ outcomes →
    n ∈ taken ∨ ∃ i, (s.owners i).state = .ready ∧ (s.frame i).1 = n
  taken_nodup : taken.Nodup
  taken_delivered : ∀ n ∈ taken, (n, .delivered) ∈ outcomes

/-- Slots change hands, but no frame gets an outcome or is taken. -/
structure Recast (s s' : State) : Prop where
  waiting : ∀ i, s'.Waiting i ↔ s.Waiting i
  ready : ∀ i, (s'.owners i).state = .ready ↔ (s.owners i).state = .ready
  held : ∀ i, (s'.owners i).state = .held → (s.owners i).state = .held
  reserved : ∀ i, (s'.owners i).state = .reserved → (s'.deliveries i).state = .retired
  sequence : ∀ i, (s'.frame i).1 = (s.frame i).1
  frame : ∀ i, (s.owners i).state ≠ .reserved → s'.frame i = s.frame i
  delivery : ∀ i, (s'.deliveries i).state = (s.deliveries i).state ∨
    (s'.deliveries i).state = .retired ∧ (s.deliveries i).state ≠ .inFlight

/-- Everything outside one slot, and the buffers, are as before. -/
structure Elsewhere (s s' : State) (i : ℕ) : Prop where
  buffers : s'.buffers = s.buffers
  owners : ∀ j, j ≠ i → s'.owners j = s.owners j
  deliveries : ∀ j, j ≠ i → s'.deliveries j = s.deliveries j

namespace Elsewhere

theorem frame (h : Elsewhere s s' i) (hne : j ≠ i) : s'.frame j = s.frame j := by
  rw [State.frame, h.deliveries j hne, h.buffers, State.frame]

theorem waiting (h : Elsewhere s s' i) (hne : j ≠ i) : s'.Waiting j ↔ s.Waiting j := by
  rw [State.Waiting, h.owners j hne, State.Waiting]

theorem of_common {s₁ : State} (h₁ : Elsewhere s s₁ i) (h : Elsewhere s s' i) : Elsewhere s₁ s' i :=
  ⟨h.buffers.trans h₁.buffers.symm, fun j hj ↦ (h.owners j hj).trans (h₁.owners j hj).symm,
    fun j hj ↦ (h.deliveries j hj).trans (h₁.deliveries j hj).symm⟩

theorem live (h : Elsewhere s s' i) (hne : j ≠ i) : s'.Live j ↔ s.Live j := by
  rw [State.Live, h.waiting hne, h.owners j hne, State.Live]

end Elsewhere

/-- The history grows, but for a slot that waits or is ready nothing is decided. -/
theorem SlotBooks.mono {submitted' : List (ℕ × Bytes)} {outcomes' : List (ℕ × DeliveryState)}
    {taken' : List ℕ} {owner : SlotState} {delivery : DeliveryState} {frame : ℕ × Bytes}
    (h : SlotBooks submitted outcomes taken owner delivery frame)
    (hsubmitted : submitted ⊆ submitted') (houtcomes : outcomes ⊆ outcomes')
    (htaken : taken ⊆ taken')
    (hnone : owner = .pending ∨ owner = .delivering → frame.1 ∉ outcomes'.map Prod.fst)
    (hnot : owner = .ready → frame.1 ∉ taken') :
    SlotBooks submitted' outcomes' taken' owner delivery frame where
  reserved := h.reserved
  waiting hw := ⟨(h.waiting hw).1, hsubmitted (h.waiting hw).2.1, hnone hw⟩
  inFlight := h.inFlight
  ready hr := ⟨hsubmitted (h.ready hr).1, houtcomes (h.ready hr).2.1, hnot hr⟩
  held hh := ⟨hsubmitted (h.held hh).1, htaken (h.held hh).2⟩
  completed o ho := houtcomes (h.completed o ho)

namespace Books

theorem reserved (h : Books s submitted outcomes taken) (i : ℕ)
    (hi : (s.owners i).state = .reserved) : (s.deliveries i).state = .retired :=
  (h.slot i).reserved hi

theorem waiting (h : Books s submitted outcomes taken) (hi : s.Waiting i) :
    (s.deliveries i).state = .inFlight ∧ s.frame i ∈ submitted ∧
      (s.frame i).1 ∉ outcomes.map Prod.fst :=
  (h.slot i).waiting hi

theorem recast (h : Books s submitted outcomes taken) (hr : Recast s s') :
    Books s' submitted outcomes taken := by
  have hlive : ∀ i, s'.Live i ↔ s.Live i := fun i ↦ or_congr (hr.waiting i) (hr.ready i)
  refine { h with
    slot := fun i ↦ ⟨hr.reserved i, fun hi ↦ ?_, fun hi ↦ ?_, fun hi ↦ ?_, fun hi ↦ ?_,
      fun o ho ↦ ?_⟩
    distinct := fun i j hi hj heq ↦ ?_
    answered := fun f hf ↦ ?_
    available := fun n hn ↦ ?_ }
  · have hold := (hr.waiting i).mp hi
    obtain ⟨hflight, hmem, hnone⟩ := h.waiting hold
    rw [hr.frame i fun hres ↦ State.not_waiting hres nofun nofun hold]
    refine ⟨?_, hmem, hnone⟩
    rcases hr.delivery i with heq | ⟨-, hne⟩
    · exact heq.trans hflight
    · exact absurd hflight hne
  · refine (hr.waiting i).mpr ?_
    rcases hr.delivery i with heq | ⟨hretired, -⟩
    · exact (h.slot i).inFlight (heq ▸ hi)
    · cases hretired.symm.trans hi
  · have hold := (hr.ready i).mp hi
    rw [hr.frame i (by rw [hold]; nofun)]
    exact (h.slot i).ready hold
  · have hold := hr.held i hi
    rw [hr.frame i (by rw [hold]; nofun)]
    exact (h.slot i).held hold
  · rw [hr.sequence]
    rcases hr.delivery i with heq | ⟨hretired, -⟩
    · exact (h.slot i).completed o (heq ▸ ho)
    · rw [hretired] at ho
      cases ho
  · rw [hlive] at hi hj
    rw [hr.sequence, hr.sequence] at heq
    exact h.distinct i j hi hj heq
  · refine (h.answered f hf).imp_right fun ⟨i, hi, hseq⟩ ↦ ⟨i, (hr.waiting i).mpr hi, ?_⟩
    rw [hr.sequence, hseq]
  · refine (h.available n hn).imp_right fun ⟨i, hi, hseq⟩ ↦ ⟨i, (hr.ready i).mpr hi, ?_⟩
    rw [hr.sequence, hseq]

section

variable (h : Books s submitted outcomes taken) (he : Elsewhere s s' i)

include h he

theorem submit (hreserved : (s.owners i).state = .reserved)
    (hpending : (s'.owners i).state = .pending) (hflight : (s'.deliveries i).state = .inFlight)
    (hnew : (s'.frame i).1 ∉ submitted.map Prod.fst) :
    Books s' (submitted ++ [s'.frame i]) outcomes taken := by
  have hself : s'.Waiting i := .inl hpending
  have hnone : (s'.frame i).1 ∉ outcomes.map Prod.fst := fun hmem ↦ by
    obtain ⟨o, ho, heq⟩ := List.mem_map.mp hmem
    exact hnew (heq ▸ (h.kind o ho).1)
  have hold : ∀ j, s.Live j → s.frame j ∈ submitted := fun j hj ↦
    hj.elim (fun hw ↦ (h.waiting hw).2.1) fun hr ↦ ((h.slot j).ready hr).1
  have hother : ∀ {j}, s.Live j → (s.frame j).1 ≠ (s'.frame i).1 := fun hj heq ↦
    hnew (heq ▸ List.mem_map_of_mem (hold _ hj))
  have hne : ∀ {j}, s.Live j → j ≠ i := by
    rintro j (hj | hj) rfl
    · exact State.not_waiting hreserved nofun nofun hj
    · cases hreserved.symm.trans hj
  refine { h with
    slot := fun j ↦ ?_
    distinct := fun j k hj hk heq ↦ ?_
    unique := ?_
    kind := fun o ho ↦ ⟨?_, (h.kind o ho).2⟩
    answered := fun f hf ↦ ?_
    available := fun n hn ↦ ?_ }
  · by_cases hji : j = i
    · rw [hji, hpending, hflight]
      exact ⟨nofun, fun _ ↦ ⟨rfl, List.mem_append_right _ List.mem_cons_self, hnone⟩,
        fun _ ↦ .inl rfl, nofun, nofun, nofun⟩
    · rw [he.owners j hji, he.deliveries j hji, he.frame hji]
      exact (h.slot j).mono (List.subset_append_left ..) (List.Subset.refl _) (List.Subset.refl _)
        (fun hw ↦ ((h.slot j).waiting hw).2.2) (fun hr ↦ ((h.slot j).ready hr).2.2)
  · by_cases hji : j = i <;> by_cases hki : k = i
    · rw [hji, hki]
    · rw [he.live hki] at hk
      rw [hji, he.frame hki] at heq
      exact absurd heq.symm (hother hk)
    · rw [he.live hji] at hj
      rw [hki, he.frame hji] at heq
      exact absurd heq (hother hj)
    · rw [he.live hji] at hj
      rw [he.live hki] at hk
      rw [he.frame hji, he.frame hki] at heq
      exact h.distinct j k hj hk heq
  · rw [List.map_append, List.map_singleton, ← List.concat_eq_append]
    exact h.unique.concat hnew
  · rw [List.map_append]
    exact List.mem_append_left _ (h.kind o ho).1
  · rw [List.mem_append, List.mem_singleton] at hf
    rcases hf with hf | rfl
    · refine (h.answered f hf).imp_right fun ⟨j, hj, hseq⟩ ↦ ?_
      have hji := hne (.inl hj)
      exact ⟨j, (he.waiting hji).mpr hj, by rw [he.frame hji, hseq]⟩
    · exact .inr ⟨i, hself, rfl⟩
  · refine (h.available n hn).imp_right fun ⟨j, hj, hseq⟩ ↦ ?_
    have hji := hne (.inr hj)
    exact ⟨j, by rw [he.owners j hji, hj], by rw [he.frame hji, hseq]⟩

/-- A waiting frame gets its outcome; it is ready if it was delivered. -/
theorem complete (hwaiting : s.Waiting i) {o : DeliveryState}
    (ho : o = .delivered ∨ o = .failed ∨ o = .cancelled)
    (howner : (s'.owners i).state = if o = .delivered then .ready else .free)
    (hdelivery : s'.deliveries i = { s.deliveries i with state := o }) :
    Books s' submitted (outcomes ++ [((s.frame i).1, o)]) taken := by
  obtain ⟨-, hmem, hnone⟩ := h.waiting hwaiting
  have hself : s'.frame i = s.frame i := by
    rw [State.frame, hdelivery, he.buffers, State.frame]
  have hframe : ∀ j, s'.frame j = s.frame j := fun j ↦ by
    by_cases hji : j = i
    · rw [hji, hself]
    · exact he.frame hji
  have hkeep : ∀ {x}, x ∈ outcomes → x ∈ outcomes ++ [((s.frame i).1, o)] :=
    List.mem_append_left _
  have hlive : ∀ {j}, s'.Live j → s.Live j := fun {j} hj ↦ by
    by_cases hji : j = i
    · rw [hji]
      exact .inl hwaiting
    · exact (he.live hji).mp hj
  have hready : ∀ {j}, (s.owners j).state = .ready → j ≠ i := by
    rintro j hj rfl
    exact State.not_waiting hj nofun nofun hwaiting
  refine { h with
    slot := fun j ↦ ?_
    distinct := fun j k hj hk heq ↦ ?_
    once := ?_
    kind := fun x hx ↦ ?_
    answered := fun f hf ↦ ?_
    available := fun n hn ↦ ?_
    taken_delivered := fun n hn ↦ hkeep (h.taken_delivered n hn) }
  · rw [hframe]
    by_cases hji : j = i
    · have hlast : ((s.frame i).1, o) ∈ outcomes ++ [((s.frame i).1, o)] :=
        List.mem_append_right _ List.mem_cons_self
      rw [hji, howner, hdelivery]
      refine ⟨fun hr ↦ ?_, fun hw ↦ ?_, fun hf ↦ ?_, fun hr ↦ ?_, fun hh ↦ ?_, fun o' ho' ↦ ?_⟩
      · split at hr <;> cases hr
      · rcases hw with hw | hw <;> split at hw <;> cases hw
      · rcases ho with rfl | rfl | rfl <;> cases hf
      · split at hr
        · next hdelivered =>
          exact ⟨hmem, hdelivered ▸ hlast, fun htaken ↦
            hnone (List.mem_map_of_mem (h.taken_delivered _ htaken))⟩
        · cases hr
      · split at hh <;> cases hh
      · rw [← DeliveryState.outcome_eq_some.mp ho']
        exact hlast
    · rw [he.owners j hji, he.deliveries j hji]
      refine (h.slot j).mono (List.Subset.refl _) (List.subset_append_left ..) (List.Subset.refl _)
        (fun hw ↦ ?_) (fun hr ↦ ((h.slot j).ready hr).2.2)
      rw [List.map_append, List.map_singleton, List.mem_append, List.mem_singleton]
      exact not_or_intro (h.waiting hw).2.2 fun heq ↦
        hji (h.distinct j i (.inl hw) (.inl hwaiting) heq)
  · rw [hframe, hframe] at heq
    exact h.distinct j k (hlive hj) (hlive hk) heq
  · rw [List.map_append, List.map_singleton, ← List.concat_eq_append]
    exact h.once.concat hnone
  · rw [List.mem_append, List.mem_singleton] at hx
    rcases hx with hx | rfl
    · exact h.kind x hx
    · exact ⟨List.mem_map_of_mem hmem, ho⟩
  · rw [List.map_append, List.map_singleton, List.mem_append, List.mem_singleton]
    rcases h.answered f hf with hold | ⟨j, hj, hseq⟩
    · exact .inl (.inl hold)
    · by_cases hji : j = i
      · exact .inl (.inr (hji ▸ hseq.symm))
      · exact .inr ⟨j, (he.waiting hji).mpr hj, by rw [hframe, hseq]⟩
  · rw [List.mem_append, List.mem_singleton] at hn
    rcases hn with hn | hn
    · refine (h.available n hn).imp_right fun ⟨j, hj, hseq⟩ ↦ ?_
      exact ⟨j, by rw [he.owners j (hready hj), hj], by rw [hframe, hseq]⟩
    · obtain ⟨hseq, hdelivered⟩ := Prod.mk.inj hn
      exact .inr ⟨i, by rw [howner, if_pos hdelivered.symm], by rw [hself, hseq]⟩

theorem take (hready : (s.owners i).state = .ready) (hheld : (s'.owners i).state = .held)
    (hdelivery : s'.deliveries i = s.deliveries i) :
    Books s' submitted outcomes (taken ++ [(s.frame i).1]) := by
  obtain ⟨hmem, hdelivered, hnot⟩ := (h.slot i).ready hready
  have hframe : ∀ j, s'.frame j = s.frame j := fun j ↦ by
    by_cases hji : j = i
    · rw [hji, State.frame, hdelivery, he.buffers, State.frame]
    · exact he.frame hji
  have hdeliveries : ∀ j, s'.deliveries j = s.deliveries j := fun j ↦ by
    by_cases hji : j = i
    · rw [hji, hdelivery]
    · exact he.deliveries j hji
  have hwaiting : ∀ j, s'.Waiting j ↔ s.Waiting j := fun j ↦ by
    by_cases hji : j = i
    · rw [hji]
      exact iff_of_false (State.not_waiting hheld nofun nofun)
        (State.not_waiting hready nofun nofun)
    · exact he.waiting hji
  have hold : ∀ {j}, (s'.owners j).state = .ready → j ≠ i ∧ (s.owners j).state = .ready := by
    intro j hj
    have hji : j ≠ i := by
      rintro rfl
      cases hheld.symm.trans hj
    exact ⟨hji, he.owners j hji ▸ hj⟩
  have hlive : ∀ {j}, s'.Live j → s.Live j := fun {j} hj ↦
    hj.imp (hwaiting j).mp fun hr ↦ (hold hr).2
  refine { h with
    slot := fun j ↦ ?_
    distinct := fun j k hj hk heq ↦ ?_
    answered := fun f hf ↦ ?_
    available := fun n hn ↦ ?_
    taken_nodup := ?_
    taken_delivered := fun n hn ↦ ?_ }
  · rw [hframe, hdeliveries]
    by_cases hji : j = i
    · rw [hji, hheld]
      refine ⟨nofun, nofun, fun hf ↦ ?_, nofun,
        fun _ ↦ ⟨hmem, List.mem_append_right _ List.mem_cons_self⟩, (h.slot i).completed⟩
      exact absurd ((h.slot i).inFlight hf) (State.not_waiting hready nofun nofun)
    · rw [he.owners j hji]
      refine (h.slot j).mono (List.Subset.refl _) (List.Subset.refl _) (List.subset_append_left ..)
        (fun hw ↦ (h.waiting hw).2.2) (fun hr ↦ ?_)
      rw [List.mem_append, List.mem_singleton]
      exact not_or_intro ((h.slot j).ready hr).2.2 fun heq ↦
        hji (h.distinct j i (.inr hr) (.inr hready) heq)
  · rw [hframe, hframe] at heq
    exact h.distinct j k (hlive hj) (hlive hk) heq
  · refine (h.answered f hf).imp_right fun ⟨j, hj, hseq⟩ ↦ ⟨j, (hwaiting j).mpr hj, ?_⟩
    rw [hframe, hseq]
  · rw [List.mem_append, List.mem_singleton]
    rcases h.available n hn with htaken | ⟨j, hj, hseq⟩
    · exact .inl (.inl htaken)
    · by_cases hji : j = i
      · exact .inl (.inr (hji ▸ hseq.symm))
      · exact .inr ⟨j, by rw [he.owners j hji, hj], by rw [hframe, hseq]⟩
  · rw [← List.concat_eq_append]
    exact h.taken_nodup.concat hnot
  · rw [List.mem_append, List.mem_singleton] at hn
    rcases hn with hn | rfl
    · exact h.taken_delivered n hn
    · exact hdelivered

end

end Books

theorem elsewhere_setOwner (s : State) (i : ℕ) (owner : Owner) :
    Elsewhere s (s.setOwner i owner) i :=
  ⟨rfl, fun _ hj ↦ Function.update_of_ne hj _ _, fun _ _ ↦ rfl⟩

theorem State.setOwner_self (s : State) (i : ℕ) (owner : Owner) :
    (s.setOwner i owner).owners i = owner :=
  Function.update_self ..

theorem elsewhere_set (s : State) (i : ℕ) (state : SlotState) (delivery : Delivery) :
    Elsewhere s ((s.setState i state).setDelivery i delivery) i :=
  ⟨rfl, fun _ hj ↦ Function.update_of_ne hj _ _, fun _ hj ↦ Function.update_of_ne hj _ _⟩

theorem set_owner_self (s : State) (i : ℕ) (state : SlotState) (delivery : Delivery) :
    (((s.setState i state).setDelivery i delivery).owners i).state = state :=
  congrArg Owner.state (s.setOwner_self i { s.owners i with state := state })

theorem set_delivery_self (s : State) (i : ℕ) (state : SlotState) (delivery : Delivery) :
    ((s.setState i state).setDelivery i delivery).deliveries i = delivery :=
  Function.update_self ..

/-- A submitted frame waits or has its outcome at once. -/
theorem State.submission_cases (s : State) :
    (s.submission = (.pending, .inFlight) ∧ s.stopped = false) ∨
      ∃ o, (o = .delivered ∨ o = .failed ∨ o = .cancelled) ∧
        s.submission = (if o = .delivered then .ready else .free, o) := by
  unfold State.submission
  split
  · exact .inr ⟨.cancelled, .inr (.inr rfl), rfl⟩
  · next hopen =>
    cases s.deliveryMode with
    | completeInline => exact .inr ⟨.delivered, .inl rfl, rfl⟩
    | hold => exact .inl ⟨rfl, Bool.eq_false_iff.mpr hopen⟩
    | failInline => exact .inr ⟨.failed, .inr (.inl rfl), rfl⟩

/-- The critical section of `StoreRaw`. Every submission passes through the books as one that
waits. -/
theorem Books.store (h : Books s submitted outcomes taken)
    (hreserved : (s.owners i).state = .reserved) {n bytes : ℕ} {frame : Bytes}
    (hframe : read (s.buffers i) 0 bytes = frame) (hnew : n ∉ submitted.map Prod.fst) :
    Books (s.store i n bytes) (submitted ++ [(n, frame)])
      (outcomes ++ World.completion n s.submission.2) taken := by
  obtain ⟨s₁, hs₁⟩ : ∃ s₁, s₁ = (s.setState i .pending).setDelivery i ⟨.inFlight, n, bytes⟩ :=
    ⟨_, rfl⟩
  have he₁ : Elsewhere s s₁ i := hs₁ ▸ elsewhere_set ..
  have howner : (s₁.owners i).state = .pending := hs₁ ▸ set_owner_self ..
  have hdelivery : s₁.deliveries i = ⟨.inFlight, n, bytes⟩ := hs₁ ▸ set_delivery_self ..
  have hself : s₁.frame i = (n, frame) := by
    rw [State.frame, hdelivery, he₁.buffers, ← hframe]
  have hsubmit := h.submit he₁ hreserved howner (by rw [hdelivery]) (by rwa [hself])
  rw [hself] at hsubmit
  rw [State.store]
  rcases s.submission_cases with ⟨hwaits, -⟩ | ⟨o, ho, hdone⟩
  · rw [hwaits, World.completion, if_pos rfl, List.append_nil, ← hs₁]
    exact hsubmit
  · have hcompletion : World.completion n o = [(n, o)] := by
      rcases ho with rfl | rfl | rfl <;> rfl
    have hcomplete := hsubmit.complete (he₁.of_common (elsewhere_set s i
      (if o = .delivered then .ready else .free) ⟨o, n, bytes⟩)) (.inl howner) ho
      (set_owner_self ..) (by rw [set_delivery_self, hdelivery])
    rw [hself] at hcomplete
    rw [hdone]
    dsimp only
    rw [hcompletion]
    exact hcomplete

/-- Waiting frames are cancelled. -/
def State.cancel (s : State) (l : List ℕ) : State :=
  { s with
    owners := fun i ↦ if i ∈ l then { s.owners i with state := .free } else s.owners i
    deliveries := fun i ↦ if i ∈ l then { s.deliveries i with state := .cancelled }
      else s.deliveries i }

theorem State.frame_cancel (s : State) (l : List ℕ) (i : ℕ) : (s.cancel l).frame i = s.frame i := by
  unfold State.frame State.cancel
  dsimp only
  split <;> rfl

theorem State.cancel_cons (s : State) (a : ℕ) (l : List ℕ) :
    (s.cancel [a]).cancel l = s.cancel (a :: l) := by
  unfold State.cancel
  congr 1
  · funext i
    by_cases hl : i ∈ l <;> by_cases ha : i = a <;> simp [hl, ha]
  · funext i
    by_cases hl : i ∈ l <;> by_cases ha : i = a <;> simp [hl, ha]

theorem Books.cancel (h : Books s submitted outcomes taken) {l : List ℕ} (hl : l.Nodup)
    (hw : ∀ i ∈ l, s.Waiting i) :
    Books (s.cancel l) submitted (outcomes ++ l.map fun i ↦ ((s.frame i).1, .cancelled)) taken := by
  induction l generalizing s outcomes with
  | nil =>
    rw [List.map_nil, List.append_nil]
    exact h
  | cons a l ih =>
    rw [List.nodup_cons] at hl
    have he : Elsewhere s (s.cancel [a]) a := by
      refine ⟨rfl, fun j hj ↦ if_neg ?_, fun j hj ↦ if_neg ?_⟩
      · rwa [List.mem_singleton]
      · rwa [List.mem_singleton]
    have hfirst := h.complete he (hw a List.mem_cons_self) (o := .cancelled) (.inr (.inr rfl))
      (congrArg Owner.state (if_pos List.mem_cons_self)) (if_pos List.mem_cons_self)
    have hrest := ih hfirst hl.2 fun i hi ↦ by
      have hne : i ≠ a := fun heq ↦ hl.1 (heq ▸ hi)
      exact (he.waiting hne).mpr (hw i (List.mem_cons_of_mem _ hi))
    simp only [State.frame_cancel, State.cancel_cons, List.append_assoc] at hrest
    exact hrest

end Ulog.Encoded
