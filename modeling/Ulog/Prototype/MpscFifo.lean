import Ulog.Prototype.MpscRing
import Mathlib.Data.Nat.ModEq
import Mathlib.Data.Nat.Bitwise

/-!
# The prototype ring is a lossless queue from two cells on

The invariant is about one lap: the positions from the consumed ones on have cells of their own, and
the turn of such a cell tells whether its position has its record. A publication that found its turn
knows that the position has room for as long as nobody else reserves it, and then the cell is its
own until it sets the turn.

## A ring of one cell

The static assertions admit a capacity of one. There the turn of a published position is also the
turn that the next position waits for, and a producer overwrites what was not consumed:
`one_cell_overwrites`. From two cells on the ring is a lossless queue: `ring_fifo`.
-/

namespace Ulog.Mpsc

variable {result : PublishResult} {record : RecordHandle} {a : Option PublishCall}
  {c : ConsumedRecord} {position k : ℕ}

/-! ## The invariant -/

theorem Admitted.index_eq {capacity : ℕ} (h : Admitted capacity) (position : ℕ) :
    index capacity position = position % capacity := by
  obtain ⟨n, rfl⟩ := (Nat.and_sub_one_eq_zero_iff_isPowerOfTwo h.pos.ne').mp h.powerOfTwo
  exact Nat.and_two_pow_sub_one_eq_mod position n

theorem Admitted.index_ne {capacity : ℕ} (h : Admitted capacity) {l : ℕ} (hne : k ≠ l)
    (hkl : k < l + capacity) (hlk : l < k + capacity) : index capacity k ≠ index capacity l := by
  rw [h.index_eq, h.index_eq]
  intro heq
  exact hne (Nat.ModEq.eq_of_abs_lt heq (by rw [abs_lt]; omega))

theorem Admitted.index_add {capacity : ℕ} (h : Admitted capacity) (k : ℕ) :
    index capacity (k + capacity) = index capacity k := by
  rw [h.index_eq, h.index_eq, Nat.add_mod_right]

theorem Ring.setCell_self (ring : Ring) (capacity position : ℕ) (cell : Cell) :
    (ring.setCell capacity position cell).cells (index capacity position) = cell :=
  Function.update_self ..

theorem Admitted.setCell_of_ne {capacity : ℕ} (h : Admitted capacity) (ring : Ring) (cell : Cell)
    {l : ℕ} (hne : k ≠ l) (hkl : k < l + capacity) (hlk : l < k + capacity) :
    (ring.setCell capacity l cell).cells (index capacity k) = ring.cells (index capacity k) :=
  Function.update_of_ne (h.index_ne hne hkl hlk) _ _

theorem Admitted.exists_index {capacity : ℕ} (h : Admitted capacity) (lo position : ℕ) :
    ∃ k, lo ≤ k ∧ k < lo + capacity ∧ index capacity k = index capacity position := by
  have hlt := Nat.mod_lt (position + lo * (capacity - 1)) h.pos
  refine ⟨lo + (position + lo * (capacity - 1)) % capacity, by omega, by omega, ?_⟩
  have hlap : lo + (position + lo * (capacity - 1)) = position + lo * capacity := by
    obtain ⟨n, rfl⟩ := Nat.exists_eq_succ_of_ne_zero h.pos.ne'
    rw [Nat.succ_sub_one, Nat.mul_succ]
    omega
  rw [h.index_eq, h.index_eq, Nat.add_mod_mod, hlap, Nat.add_mul_mod_self_right]

/-- The publication has reserved its position and has not handed it over. -/
def PublishCall.isWriting (call : PublishCall) : Prop :=
  call.pc = .writeEnvelope ∨ call.pc = .storeTurn

/-- A reserved position without a record yet. -/
structure Writing (s : State) (position : ℕ) (record : RecordHandle) : Prop where
  unconsumed : s.consumed ≤ position
  reserved : s.reserved[position]? = some record
  unaccepted : ∀ c ∈ s.accepted, c.admissionSequence ≠ position

/-- What a publication knows about the ring. -/
def CallOk (capacity : ℕ) (s : State) (call : PublishCall) : Prop :=
  match call.pc with
  | .loadPosition => True
  | .loadTurn | .reload => call.position ≤ s.ring.enqueuePosition
  -- a position that is still the next one has a free cell
  | .exchange => call.position ≤ s.ring.enqueuePosition ∧
      (call.position = s.ring.enqueuePosition → s.ring.enqueuePosition < s.consumed + capacity)
  | .writeEnvelope => Writing s call.position call.record
  | .storeTurn => Writing s call.position call.record ∧
      (s.ring.cells (index capacity call.position)).envelope = ⟨call.record, call.position⟩

/-- What the consumption knows about the ring. -/
def ConsumerOk (s : State) (call : ConsumeCall) : Prop :=
  match call.pc with
  | .loadPosition => True
  | .loadTurn | .loadEnqueue => call.position = s.ring.dequeuePosition
  | .readEnvelope => call.position = s.ring.dequeuePosition ∧
      ∃ c ∈ s.accepted, c.admissionSequence = call.position
  | .storeTurn | .storePosition => call.position = s.ring.dequeuePosition ∧
      call.consumed ∈ s.accepted ∧ call.consumed.admissionSequence = call.position

/-- The cell of a position of the current lap holds its accepted record, or its turn. -/
def CellOk (capacity : ℕ) (s : State) (k : ℕ) : Prop :=
  (∃ c ∈ s.accepted, c.admissionSequence = k ∧
      s.ring.cells (index capacity k) = ⟨k + 1, c⟩) ∨
    (∀ c ∈ s.accepted, c.admissionSequence ≠ k) ∧ s.ring.turn capacity k = k

structure Inv (capacity : ℕ) (s : State) : Prop where
  consumed_le : s.consumed ≤ s.ring.enqueuePosition
  le_consumed : s.ring.enqueuePosition ≤ s.consumed + capacity
  reserved : s.reserved.length = s.ring.enqueuePosition
  accepted : ∀ c ∈ s.accepted, s.reserved[c.admissionSequence]? = some c.record
  once : (s.accepted.map (·.admissionSequence)).Nodup
  past : ∀ k < s.consumed, ∃ c ∈ s.accepted, c.admissionSequence = k
  cell : ∀ k, s.consumed ≤ k → k < s.consumed + capacity → CellOk capacity s k
  calls : ∀ t call, s.publishers t = some call → CallOk capacity s call
  exclusive : ∀ t t' call call', s.publishers t = some call → s.publishers t' = some call' →
    call.isWriting → call'.isWriting → call.position = call'.position → t = t'
  consumer : ∀ call, s.consumer = some call → ConsumerOk s call
  returned : s.returned.length = s.ring.dequeuePosition
  order : s.returned.map (·.admissionSequence) = List.range s.returned.length
  fromAccepted : ∀ c ∈ s.returned, c ∈ s.accepted

variable {capacity : ℕ} {s s' : State} {t : ℕ} {call : PublishCall}

theorem accepted_of_ne (hne : result.status ≠ .accepted) :
    State.accepted { s with results := s.results ++ [(record, result)] } = s.accepted := by
  have hnone : State.accepted { s with results := [(record, result)] } = [] :=
    List.filterMap_cons_none (if_neg hne)
  calc State.accepted { s with results := s.results ++ [(record, result)] }
      = s.accepted ++ State.accepted { s with results := [(record, result)] } :=
        List.filterMap_append
    _ = s.accepted := by rw [hnone, List.append_nil]

namespace Inv

/-- Accepted sequences are reserved positions. -/
theorem lt_of_accepted (h : Inv capacity s) (hc : c ∈ s.accepted) :
    c.admissionSequence < s.ring.enqueuePosition := by
  rw [← h.reserved]
  exact (List.getElem?_eq_some_iff.mp (h.accepted c hc)).1

theorem eq_of_sequence (h : Inv capacity s) {c' : ConsumedRecord} (hc : c ∈ s.accepted)
    (hc' : c' ∈ s.accepted) (heq : c.admissionSequence = c'.admissionSequence) : c = c' :=
  List.inj_on_of_nodup_map h.once hc hc' heq

/-- The turn of a position from the current lap on tells what became of it. -/
theorem turn_cases (h : Inv capacity s) (hk : s.consumed ≤ k) (hlap : k < s.consumed + capacity) :
    s.ring.turn capacity k = k ∨ s.ring.turn capacity k = k + 1 := by
  rcases h.cell k hk hlap with ⟨c, -, -, hcell⟩ | ⟨-, hturn⟩
  · right
    rw [Ring.turn, hcell]
  · exact .inl hturn

/-- A free turn at the next position means that the ring has room: with one lap reserved, its cell
would belong to the oldest reserved position. -/
theorem room_of_turn (h : Inv capacity s) (hadmitted : Admitted capacity) (htwo : 2 ≤ capacity)
    (hturn : s.ring.turn capacity s.ring.enqueuePosition = s.ring.enqueuePosition) :
    s.ring.enqueuePosition < s.consumed + capacity := by
  by_contra hfull
  have heq : s.ring.enqueuePosition = s.consumed + capacity := by
    have := h.le_consumed
    omega
  have hcases := h.turn_cases le_rfl (show s.consumed < s.consumed + capacity by omega)
  rw [Ring.turn, heq, hadmitted.index_add] at hturn
  rw [Ring.turn] at hcases
  omega

/-- A turn below the position means that a whole lap is reserved and not consumed. -/
theorem full_of_turn (h : Inv capacity s) (hadmitted : Admitted capacity)
    (hposition : position ≤ s.ring.enqueuePosition)
    (hturn : s.ring.turn capacity position < position) :
    s.consumed + capacity ≤ s.ring.enqueuePosition := by
  by_contra hroom
  have hpos := hadmitted.pos
  -- the position of the current lap with the same cell
  obtain ⟨k, hk, hlap, hindex, hle⟩ : ∃ k, s.consumed ≤ k ∧ k < s.consumed + capacity ∧
      index capacity k = index capacity position ∧ position ≤ k := by
    by_cases hlow : s.consumed ≤ position
    · exact ⟨position, hlow, by omega, rfl, le_rfl⟩
    · obtain ⟨k, hk, hlap, hindex⟩ := hadmitted.exists_index s.consumed position
      exact ⟨k, hk, hlap, hindex, by omega⟩
  have hcases := h.turn_cases hk hlap
  rw [Ring.turn, hindex] at hcases
  rw [Ring.turn] at hturn
  omega

end Inv

/-! ### What a publication does to the ring -/

/-- What a publication knows survives the progress of others. -/
theorem CallOk.mono (h : CallOk capacity s call)
    (henqueue : s.ring.enqueuePosition ≤ s'.ring.enqueuePosition)
    (hconsumed : s.consumed ≤ s'.consumed)
    (hreserved : ∀ (k : ℕ) r, s.reserved[k]? = some r → s'.reserved[k]? = some r)
    (hwriting : call.isWriting → Writing s call.position call.record →
      s'.consumed ≤ call.position ∧ (∀ c ∈ s'.accepted, c.admissionSequence ≠ call.position) ∧
      (s'.ring.cells (index capacity call.position)).envelope =
        (s.ring.cells (index capacity call.position)).envelope) :
    CallOk capacity s' call := by
  have hkeep : call.isWriting → Writing s call.position call.record →
      Writing s' call.position call.record := fun hw hold ↦
    ⟨(hwriting hw hold).1, hreserved _ _ hold.reserved, (hwriting hw hold).2.1⟩
  unfold CallOk at h ⊢
  split at h
  · trivial
  · exact h.trans henqueue
  · exact h.trans henqueue
  · refine ⟨h.1.trans henqueue, fun heq ↦ ?_⟩
    have := h.2
    omega
  · next hpc => exact hkeep (.inl hpc) h
  · next hpc =>
    refine ⟨hkeep (.inr hpc) h.1, ?_⟩
    rw [(hwriting (.inr hpc) h.1).2.2, h.2]

theorem CellOk.mono (h : CellOk capacity s k)
    (hcell : s'.ring.cells (index capacity k) = s.ring.cells (index capacity k))
    (hmem : ∀ c ∈ s.accepted, c ∈ s'.accepted)
    (hnew : ∀ c ∈ s'.accepted, c ∈ s.accepted ∨ c.admissionSequence ≠ k) :
    CellOk capacity s' k := by
  rcases h with ⟨c, hc, hseq, hold⟩ | ⟨hnone, hturn⟩
  · exact .inl ⟨c, hmem c hc, hseq, hcell.trans hold⟩
  · refine .inr ⟨fun c hc ↦ (hnew c hc).elim (hnone c) id, ?_⟩
    rw [Ring.turn, hcell]
    exact hturn

theorem forall_calls_update {P : ℕ → PublishCall → Prop}
    (hother : ∀ t' call', t' ≠ t → s.publishers t' = some call' → P t' call')
    (hself : ∀ call', a = some call' → P t call') :
    ∀ t' call', Function.update s.publishers t a t' = some call' → P t' call' := by
  intro t' call' hcall
  by_cases ht : t' = t
  · rw [ht, Function.update_self] at hcall
    rw [ht]
    exact hself call' hcall
  · rw [Function.update_of_ne ht] at hcall
    exact hother t' call' ht hcall

namespace Inv

section

variable (h : Inv capacity s)

include h

/-- No two publications hold one position, if the thread that moved holds none or held it before. -/
theorem exclusive_update
    (ha : ∀ call', a = some call' → call'.isWriting → ∀ t' call'', t' ≠ t →
      s.publishers t' = some call'' → call''.isWriting → call''.position ≠ call'.position) :
    ∀ t₁ t₂ c₁ c₂, Function.update s.publishers t a t₁ = some c₁ →
      Function.update s.publishers t a t₂ = some c₂ → c₁.isWriting → c₂.isWriting →
        c₁.position = c₂.position → t₁ = t₂ := by
  intro t₁ t₂ c₁ c₂ h₁ h₂ hw₁ hw₂ heq
  by_cases ht₁ : t₁ = t <;> by_cases ht₂ : t₂ = t
  · rw [ht₁, ht₂]
  · rw [ht₁, Function.update_self] at h₁
    rw [Function.update_of_ne ht₂] at h₂
    exact absurd heq.symm (ha c₁ h₁ hw₁ t₂ c₂ ht₂ h₂ hw₂)
  · rw [ht₂, Function.update_self] at h₂
    rw [Function.update_of_ne ht₁] at h₁
    exact absurd heq (ha c₂ h₂ hw₂ t₁ c₁ ht₁ h₁ hw₁)
  · rw [Function.update_of_ne ht₁] at h₁
    rw [Function.update_of_ne ht₂] at h₂
    exact h.exclusive t₁ t₂ c₁ c₂ h₁ h₂ hw₁ hw₂ heq

theorem quiet {results : List (RecordHandle × PublishResult)}
    (haccepted : State.accepted { s with results := results } = s.accepted)
    (ha : ∀ call', a = some call' → CallOk capacity s call' ∧ ¬call'.isWriting) :
    Inv capacity
      { s with publishers := Function.update s.publishers t a, results := results } := by
  obtain ⟨s', hs'⟩ : ∃ s' : State,
      s' = { s with publishers := Function.update s.publishers t a, results := results } := ⟨_, rfl⟩
  have hmono : ∀ call', CallOk capacity s call' → CallOk capacity s' call' := by
    intro call' hcall
    subst hs'
    refine hcall.mono le_rfl le_rfl (fun _ _ hk ↦ hk) fun _ hw ↦ ⟨hw.unconsumed, ?_, rfl⟩
    intro c hc
    exact hw.unaccepted c (haccepted ▸ hc)
  rw [← hs']
  have hacc : s'.accepted = s.accepted := by
    subst hs'
    exact haccepted
  have hring : s'.ring = s.ring ∧ s'.consumed = s.consumed ∧ s'.reserved = s.reserved ∧
      s'.consumer = s.consumer ∧ s'.returned = s.returned := by
    subst hs'
    exact ⟨rfl, rfl, rfl, rfl, rfl⟩
  obtain ⟨hring, hconsumed, hreserved, hconsumer, hreturned⟩ := hring
  refine ⟨?_, ?_, ?_, ?_, ?_, ?_, fun k ↦ ?_, ?_, ?_, fun c hc ↦ ?_, ?_, ?_, ?_⟩
  · rw [hconsumed, hring]
    exact h.consumed_le
  · rw [hconsumed, hring]
    exact h.le_consumed
  · rw [hreserved, hring]
    exact h.reserved
  · rw [hacc, hreserved]
    exact h.accepted
  · rw [hacc]
    exact h.once
  · rw [hacc, hconsumed]
    exact h.past
  · rw [hconsumed, CellOk, hacc, hring]
    exact h.cell k
  · subst hs'
    exact forall_calls_update (fun t' call' _ hcall ↦ hmono call' (h.calls t' call' hcall))
      fun call' hcall ↦ hmono call' (ha call' hcall).1
  · subst hs'
    exact h.exclusive_update fun call' hcall hw ↦ absurd hw (ha call' hcall).2
  · rw [hconsumer] at hc
    have hok := h.consumer c hc
    unfold ConsumerOk at hok ⊢
    rw [hacc, hring]
    exact hok
  · rw [hreturned, hring]
    exact h.returned
  · rw [hreturned]
    exact h.order
  · rw [hreturned, hacc]
    exact h.fromAccepted

theorem lt_of_writing (hw : Writing s position record) : position < s.ring.enqueuePosition := by
  rw [← h.reserved]
  exact (List.getElem?_eq_some_iff.mp hw.reserved).1

theorem writing (hcall : s.publishers t = some call) (hw : call.isWriting) :
    Writing s call.position call.record := by
  have hok := h.calls t call hcall
  unfold CallOk at hok
  rcases hw with hpc | hpc <;> rw [hpc] at hok
  · exact hok
  · exact hok.1

theorem reserve (hcall : s.publishers t = some call) (hpc : call.pc = .exchange)
    (heq : s.ring.enqueuePosition = call.position) (actions : ℕ) :
    Inv capacity
      { s with
        ring := { s.ring with enqueuePosition := call.position + 1 }
        publishers := Function.update s.publishers t
          (some { call with pc := .writeEnvelope, actions := actions })
        reserved := s.reserved ++ [call.record] } := by
  have hroom : s.ring.enqueuePosition < s.consumed + capacity := by
    have hok := h.calls t call hcall
    unfold CallOk at hok
    rw [hpc] at hok
    exact hok.2 heq.symm
  have hkeep : ∀ (k : ℕ) r, s.reserved[k]? = some r →
      (s.reserved ++ [call.record])[k]? = some r := fun k r hk ↦ by
    rw [List.getElem?_append_left (List.getElem?_eq_some_iff.mp hk).1, hk]
  refine { h with
    consumed_le := h.consumed_le.trans (heq ▸ Nat.le_succ _)
    le_consumed := ?_
    reserved := ?_
    accepted := fun c hc ↦ hkeep _ _ (h.accepted c hc)
    calls := ?_
    exclusive := ?_ }
  · exact heq ▸ hroom
  · rw [List.length_append, h.reserved, heq]
    rfl
  · refine forall_calls_update (fun t' call' _ hcall' ↦ ?_) fun call' hcall' ↦ ?_
    · exact (h.calls t' call' hcall').mono (heq ▸ Nat.le_succ _) le_rfl hkeep
        fun _ hw ↦ ⟨hw.unconsumed, hw.unaccepted, rfl⟩
    · cases hcall'
      refine ⟨heq ▸ h.consumed_le, ?_, fun c hc ↦ ?_⟩
      · rw [← heq, ← h.reserved, List.getElem?_concat_length]
      · exact (heq ▸ h.lt_of_accepted hc).ne
  · refine h.exclusive_update fun call' hcall' _ t' call'' _ hcall'' hw'' ↦ ?_
    cases hcall'
    exact (heq ▸ h.lt_of_writing (h.writing hcall'' hw'')).ne

/-- Reserved positions without a record, and those of the lap, have cells of their own. -/
theorem setCell_of_ne (hadmitted : Admitted capacity) (hw : Writing s position record) (cell : Cell)
    (hne : k ≠ position) (hk : s.consumed ≤ k) (hlap : k < s.consumed + capacity) :
    (s.ring.setCell capacity position cell).cells (index capacity k) =
      s.ring.cells (index capacity k) := by
  have hlow := hw.unconsumed
  have hhigh := (h.lt_of_writing hw).trans_le h.le_consumed
  exact hadmitted.setCell_of_ne _ _ hne (by omega) (by omega)

theorem calls_setCell (hadmitted : Admitted capacity) (hcall : s.publishers t = some call)
    (hw : call.isWriting) (cell : Cell) {results : List (RecordHandle × PublishResult)}
    {publishers : ℕ → Option PublishCall}
    (haccepted : ∀ c ∈ State.accepted { s with results := results }, c ∈ s.accepted ∨
      c.admissionSequence = call.position)
    {t' : ℕ} {call' : PublishCall} (ht : t' ≠ t) (hcall' : s.publishers t' = some call') :
    CallOk capacity
      { s with
        ring := s.ring.setCell capacity call.position cell
        publishers := publishers
        results := results } call' := by
  refine (h.calls t' call' hcall').mono le_rfl le_rfl (fun _ _ hk ↦ hk) fun hw' hwriting' ↦ ?_
  have hne : call'.position ≠ call.position := fun heq ↦
    ht (h.exclusive t' t call' call hcall' hcall hw' hw heq)
  refine ⟨hwriting'.unconsumed, fun c hc ↦ ?_, ?_⟩
  · rcases haccepted c hc with hold | hnew
    · exact hwriting'.unaccepted c hold
    · exact hnew ▸ hne.symm
  · exact congrArg Cell.envelope <| h.setCell_of_ne hadmitted (h.writing hcall hw) cell hne
      hwriting'.unconsumed ((h.lt_of_writing hwriting').trans_le h.le_consumed)

theorem writeEnvelope (hadmitted : Admitted capacity) (hcall : s.publishers t = some call)
    (hpc : call.pc = .writeEnvelope) :
    Inv capacity
      { s with
        ring := s.ring.setCell capacity call.position
          ⟨s.ring.turn capacity call.position, ⟨call.record, call.position⟩⟩
        publishers := Function.update s.publishers t (some { call with pc := .storeTurn }) } := by
  have hw : Writing s call.position call.record := h.writing hcall (.inl hpc)
  refine { h with cell := fun k hk hlap ↦ ?_, calls := ?_, exclusive := ?_ }
  · by_cases heq : k = call.position
    · subst heq
      refine .inr ⟨hw.unaccepted, ?_⟩
      rcases h.cell _ hk hlap with ⟨c, hc, hseq, -⟩ | ⟨-, hturn⟩
      · exact absurd hseq (hw.unaccepted c hc)
      · rw [Ring.turn, Ring.setCell_self]
        exact hturn
    · exact (h.cell k hk hlap).mono (h.setCell_of_ne hadmitted hw _ heq hk hlap)
        (fun _ hc ↦ hc) fun _ hc ↦ .inl hc
  · refine forall_calls_update (fun t' call' ht hcall' ↦ ?_) fun call' hcall' ↦ ?_
    · exact h.calls_setCell hadmitted hcall (.inl hpc) _ (fun _ hc ↦ .inl hc) ht hcall'
    · cases hcall'
      exact ⟨⟨hw.unconsumed, hw.reserved, hw.unaccepted⟩,
        congrArg Cell.envelope (Ring.setCell_self ..)⟩
  · refine h.exclusive_update fun call' hcall' _ t' call'' ht hcall'' hw'' heq ↦ ?_
    cases hcall'
    exact ht (h.exclusive t' t call'' call hcall'' hcall hw'' (.inl hpc) heq)

theorem storeTurn (hadmitted : Admitted capacity) (hcall : s.publishers t = some call)
    (hpc : call.pc = .storeTurn) (actions : ℕ)
    (hs' : s' = { s with
      ring := s.ring.setCell capacity call.position
        ⟨call.position + 1, (s.ring.cells (index capacity call.position)).envelope⟩
      publishers := Function.update s.publishers t none
      results := s.results ++ [(call.record,
        { status := .accepted, admissionSequence := some call.position,
          publicationActions := actions })] }) : Inv capacity s' := by
  have hw : Writing s call.position call.record := h.writing hcall (.inr hpc)
  have henvelope : (s.ring.cells (index capacity call.position)).envelope =
      ⟨call.record, call.position⟩ := by
    have hok := h.calls t call hcall
    unfold CallOk at hok
    rw [hpc] at hok
    exact hok.2
  have hlap := (h.lt_of_writing hw).trans_le h.le_consumed
  have haccepted : s'.accepted = s.accepted ++ [⟨call.record, call.position⟩] := by
    subst hs'
    exact List.filterMap_append
  have hmem : ∀ c ∈ s.accepted, c ∈ s'.accepted := fun c hc ↦ by
    rw [haccepted]
    exact List.mem_append_left _ hc
  have hcases : ∀ c ∈ s'.accepted, c ∈ s.accepted ∨ c = ⟨call.record, call.position⟩ :=
    fun c hc ↦ by
      rw [haccepted, List.mem_append, List.mem_singleton] at hc
      exact hc
  subst hs'
  refine { h with
    accepted := fun c hc ↦ ?_
    once := ?_
    past := fun k hk ↦ (h.past k hk).imp fun c hc ↦ ⟨hmem c hc.1, hc.2⟩
    cell := fun k hk hlap ↦ ?_
    calls := ?_
    exclusive := h.exclusive_update fun call' hcall' ↦ nomatch hcall'
    consumer := fun c hc ↦ ?_
    fromAccepted := fun c hc ↦ hmem c (h.fromAccepted c hc) }
  · rcases hcases c hc with hold | rfl
    · exact h.accepted c hold
    · exact hw.reserved
  · rw [haccepted, List.map_append]
    refine h.once.append (List.nodup_singleton _) ?_
    rw [List.map_singleton, List.disjoint_singleton, List.mem_map]
    rintro ⟨c, hc, hseq⟩
    exact hw.unaccepted c hc hseq
  · by_cases heq : k = call.position
    · subst heq
      refine .inl ⟨⟨call.record, call.position⟩, ?_, rfl, ?_⟩
      · rw [haccepted]
        exact List.mem_append_right _ List.mem_cons_self
      · rw [Ring.setCell_self, henvelope]
    · refine (h.cell k hk hlap).mono (h.setCell_of_ne hadmitted hw _ heq hk hlap) hmem
        fun c hc ↦ (hcases c hc).imp_right fun hnew ↦ ?_
      rw [hnew]
      exact Ne.symm heq
  · refine forall_calls_update (fun t' call' ht hcall' ↦ ?_) fun call' hcall' ↦ nomatch hcall'
    exact h.calls_setCell hadmitted hcall (.inr hpc) _
      (fun c hc ↦ (hcases c hc).imp_right fun hnew ↦ by rw [hnew]) ht hcall'
  · have hok := h.consumer c hc
    unfold ConsumerOk at hok ⊢
    split at hok
    · trivial
    · exact hok
    · exact hok
    · exact ⟨hok.1, hok.2.imp fun c hc ↦ ⟨hmem c hc.1, hc.2⟩⟩
    · exact ⟨hok.1, hmem _ hok.2.1, hok.2.2⟩
    · exact ⟨hok.1, hmem _ hok.2.1, hok.2.2⟩

theorem publish_quiet {outcome : Outcome PublishCall PublishResult}
    (hstep : publishStep capacity s.ring call = (s.ring, outcome))
    (hrunning : ∀ call', outcome = .running call' → CallOk capacity s call' ∧ ¬call'.isWriting)
    (hreturned : ∀ result, outcome = .returned result → result.status ≠ .accepted) :
    Inv capacity (s.publish capacity t call) := by
  unfold State.publish
  rw [hstep]
  dsimp only
  rw [if_pos rfl]
  cases outcome with
  | running call' =>
    refine h.quiet rfl fun _ hcall' ↦ ?_
    cases hcall'
    exact hrunning call' rfl
  | returned result =>
    exact h.quiet (accepted_of_ne (hreturned result rfl)) nofun

theorem publish_nextProbe
    (hstep : publishStep capacity s.ring call = (s.ring, call.nextProbe s.ring.enqueuePosition)) :
    Inv capacity (s.publish capacity t call) := by
  refine h.publish_quiet hstep (fun call' heq ↦ ?_) fun result heq ↦ ?_
  all_goals
    unfold PublishCall.nextProbe at heq
    split at heq
  · cases heq
    exact ⟨le_rfl, nofun⟩
  · cases heq
  · cases heq
  · cases heq
    nofun

theorem publish (hadmitted : Admitted capacity) (htwo : 2 ≤ capacity)
    (hcall : s.publishers t = some call) : Inv capacity (s.publish capacity t call) := by
  have hok := h.calls t call hcall
  unfold CallOk at hok
  cases hpc : call.pc with
  | loadPosition =>
    refine h.publish_quiet (by unfold publishStep; rw [hpc]) (fun call' heq ↦ ?_) fun _ heq ↦ ?_
    · cases heq
      exact ⟨le_rfl, nofun⟩
    · cases heq
  | loadTurn =>
    rw [hpc] at hok
    by_cases hturn : s.ring.turn capacity call.position = call.position
    · refine h.publish_quiet (by unfold publishStep; rw [hpc]; exact if_pos hturn)
        (fun call' heq ↦ ?_) fun _ heq ↦ ?_
      · cases heq
        refine ⟨⟨hok, fun heq ↦ ?_⟩, nofun⟩
        exact h.room_of_turn hadmitted htwo (heq ▸ hturn)
      · cases heq
    · by_cases hlt : s.ring.turn capacity call.position < call.position
      · refine h.publish_quiet
          (by unfold publishStep; rw [hpc]; exact (if_neg hturn).trans (if_pos hlt))
          (fun call' heq ↦ ?_) fun _ heq ↦ ?_
        · cases heq
        · cases heq
          nofun
      · refine h.publish_quiet
          (by unfold publishStep; rw [hpc]; exact (if_neg hturn).trans (if_neg hlt))
          (fun call' heq ↦ ?_) fun _ heq ↦ ?_
        · cases heq
          exact ⟨hok, nofun⟩
        · cases heq
  | exchange =>
    by_cases heq : s.ring.enqueuePosition = call.position
    · have hreserve := h.reserve hcall hpc heq (call.actions + 1)
      unfold State.publish publishStep
      rw [hpc]
      dsimp only
      rw [if_pos heq]
      dsimp only
      rw [if_neg (by omega)]
      exact hreserve
    · exact h.publish_nextProbe (by unfold publishStep; rw [hpc]; exact if_neg heq)
  | reload => exact h.publish_nextProbe (by unfold publishStep; rw [hpc])
  | writeEnvelope =>
    have hwrite := h.writeEnvelope hadmitted hcall hpc
    unfold State.publish publishStep
    rw [hpc]
    dsimp only [Ring.setCell]
    rw [if_pos rfl]
    exact hwrite
  | storeTurn =>
    refine h.storeTurn hadmitted hcall hpc (call.actions + 4) ?_
    unfold State.publish publishStep
    rw [hpc]
    dsimp only [Ring.setCell]
    rw [if_pos rfl]

end

end Inv

/-! ### What the consumption does to the ring -/

variable {consumption : ConsumeCall}

namespace Inv

/-- Until the consumption has given its cell to the next lap, nothing more is consumed than was
returned. -/
theorem consumed_eq (h : s.consumer = some consumption) (hpc : consumption.pc ≠ .storePosition) :
    s.consumed = s.ring.dequeuePosition := by
  rw [State.consumed, h, Option.any_some, decide_eq_false hpc]
  rfl

theorem consume_quiet (h : Inv capacity s) {next : Option ConsumeCall}
    {consumptions : List ConsumeResult}
    (hconsumed : s.consumed = s.ring.dequeuePosition)
    (hreturned : State.returned { s with consumptions := consumptions } = s.returned)
    (hnext : ∀ c, next = some c → ConsumerOk s c ∧ c.pc ≠ .storePosition) :
    Inv capacity { s with consumer := next, consumptions := consumptions } := by
  obtain ⟨s', hs'⟩ : ∃ s' : State,
      s' = { s with consumer := next, consumptions := consumptions } := ⟨_, rfl⟩
  have hconsumed' : s'.consumed = s.consumed := by
    subst hs'
    cases next with
    | none => exact hconsumed.symm
    | some c => exact (consumed_eq rfl (hnext c rfl).2).trans hconsumed.symm
  have hreturned' : s'.returned = s.returned := by
    subst hs'
    exact hreturned
  rw [← hs']
  subst hs'
  refine { h with
    consumed_le := hconsumed' ▸ h.consumed_le
    le_consumed := hconsumed' ▸ h.le_consumed
    past := hconsumed' ▸ h.past
    cell := fun k hk hlap ↦ ?_
    calls := fun t call hcall ↦ ?_
    consumer := fun c hc ↦ (hnext c hc).1
    returned := hreturned' ▸ h.returned
    order := hreturned' ▸ h.order
    fromAccepted := fun c hc ↦ h.fromAccepted c (hreturned' ▸ hc) }
  · rw [hconsumed'] at hk hlap
    exact h.cell k hk hlap
  · exact (h.calls t call hcall).mono le_rfl hconsumed'.ge (fun _ _ hk ↦ hk)
      fun _ hw ↦ ⟨hconsumed' ▸ hw.unconsumed, hw.unaccepted, rfl⟩

/-- A consumption that has read its envelope has that of the oldest accepted record. -/
theorem consumed_mem (h : Inv capacity s) (hcall : s.consumer = some consumption)
    (hpc : consumption.pc = .storeTurn ∨ consumption.pc = .storePosition) :
    consumption.position = s.ring.dequeuePosition ∧ consumption.consumed ∈ s.accepted ∧
      consumption.consumed.admissionSequence = consumption.position := by
  have hok := h.consumer consumption hcall
  unfold ConsumerOk at hok
  rcases hpc with hpc | hpc <;> rwa [hpc] at hok

theorem giveBack (h : Inv capacity s) (hadmitted : Admitted capacity)
    (hcall : s.consumer = some consumption) (hpc : consumption.pc = .storeTurn) {envelope}
    (hs' : s' = { s with
      ring := s.ring.setCell capacity consumption.position
        ⟨consumption.position + capacity, envelope⟩
      consumer := some { consumption with pc := .storePosition } }) : Inv capacity s' := by
  have hold : s.consumed = s.ring.dequeuePosition := consumed_eq hcall (by rw [hpc]; nofun)
  obtain ⟨hposition, hmem, hseq⟩ := h.consumed_mem hcall (.inl hpc)
  have hreserved : consumption.position < s.ring.enqueuePosition := hseq ▸ h.lt_of_accepted hmem
  have hpos := hadmitted.pos
  have hlap := h.le_consumed
  have hnew : s'.consumed = s.consumed + 1 := by
    subst hs'
    exact congrArg (· + 1) hold.symm
  subst hs'
  refine { h with
    consumed_le := ?_
    le_consumed := ?_
    past := fun k hk ↦ ?_
    cell := fun k hk hk' ↦ ?_
    calls := fun t call hcall' ↦ ?_
    consumer := fun c hc ↦ ?_ }
  · rw [hnew, hold, ← hposition]
    exact hreserved
  · rw [hnew]
    exact hlap.trans (by omega)
  · rw [hnew] at hk
    rcases Nat.lt_succ_iff_lt_or_eq.mp hk with hlt | rfl
    · exact h.past k hlt
    · exact ⟨_, hmem, by rw [hseq, hposition, hold]⟩
  · rw [hnew] at hk hk'
    by_cases heq : k = consumption.position + capacity
    · subst heq
      refine .inr ⟨fun c hc ↦ ?_, ?_⟩
      · have := h.lt_of_accepted hc
        omega
      · rw [Ring.turn, hadmitted.index_add, Ring.setCell_self]
    · exact (h.cell k (by omega) (by omega)).mono
        (hadmitted.setCell_of_ne _ _ (by omega) (by omega) (by omega)) (fun _ hc ↦ hc)
        fun _ hc ↦ .inl hc
  · refine (h.calls t call hcall').mono le_rfl (hnew ▸ Nat.le_succ _) (fun _ _ hk ↦ hk)
      fun _ hw ↦ ⟨?_, hw.unaccepted, ?_⟩
    · -- the position that was consumed has a record
      have hne := hw.unaccepted _ hmem
      have hle := hw.unconsumed
      rw [hnew]
      omega
    · have hne := hw.unaccepted _ hmem
      have hlt := h.lt_of_writing hw
      have hle := hw.unconsumed
      exact congrArg Cell.envelope <|
        hadmitted.setCell_of_ne _ _ (by omega) (by omega) (by omega)
  · cases hc
    exact ⟨hposition, hmem, hseq⟩

theorem giveOut (h : Inv capacity s) (hcall : s.consumer = some consumption)
    (hpc : consumption.pc = .storePosition)
    (hs' : s' = { s with
      ring := { s.ring with dequeuePosition := consumption.position + 1 }
      consumer := none
      consumptions := s.consumptions ++
        [{ status := .record, record := some consumption.consumed }] }) : Inv capacity s' := by
  obtain ⟨hposition, hmem, hseq⟩ := h.consumed_mem hcall (.inr hpc)
  have hconsumed : s'.consumed = s.consumed := by
    subst hs'
    rw [State.consumed, State.consumed, hcall, Option.any_some, decide_eq_true hpc, hposition]
    rfl
  have hreturned : s'.returned = s.returned ++ [consumption.consumed] := by
    subst hs'
    exact List.filterMap_append
  subst hs'
  refine { h with
    consumed_le := hconsumed ▸ h.consumed_le
    le_consumed := hconsumed ▸ h.le_consumed
    past := hconsumed ▸ h.past
    cell := fun k hk hlap ↦ ?_
    calls := fun t call hcall' ↦ ?_
    consumer := nofun
    returned := ?_
    order := ?_
    fromAccepted := fun c hc ↦ ?_ }
  · rw [hconsumed] at hk hlap
    exact h.cell k hk hlap
  · exact (h.calls t call hcall').mono le_rfl hconsumed.ge (fun _ _ hk ↦ hk)
      fun _ hw ↦ ⟨hconsumed ▸ hw.unconsumed, hw.unaccepted, rfl⟩
  · rw [hreturned, List.length_append, h.returned, hposition]
    rfl
  · rw [hreturned, List.map_append, List.length_append, h.order, List.length_singleton,
      List.range_succ, List.map_singleton, hseq, hposition, h.returned]
  · rw [hreturned, List.mem_append, List.mem_singleton] at hc
    rcases hc with hold | rfl
    · exact h.fromAccepted c hold
    · exact hmem

theorem consume (h : Inv capacity s) (hadmitted : Admitted capacity)
    (hcall : s.consumer = some consumption) : Inv capacity (s.consume capacity consumption) := by
  have hok := h.consumer consumption hcall
  unfold ConsumerOk at hok
  unfold State.consume consumeStep
  cases hpc : consumption.pc with
  | loadPosition =>
    have hconsumed := consumed_eq hcall (by rw [hpc]; nofun)
    refine h.consume_quiet hconsumed rfl fun c hc ↦ ?_
    cases hc
    exact ⟨rfl, nofun⟩
  | loadTurn =>
    have hconsumed := consumed_eq hcall (by rw [hpc]; nofun)
    rw [hpc] at hok
    dsimp only
    by_cases hturn : s.ring.turn capacity consumption.position = consumption.position + 1
    · rw [if_neg (not_not_intro hturn)]
      refine h.consume_quiet hconsumed rfl fun c hc ↦ ?_
      cases hc
      refine ⟨⟨hok, ?_⟩, nofun⟩
      -- the turn of the oldest position is that of an accepted record
      have hpos := hadmitted.pos
      rcases h.cell consumption.position (by omega) (by omega) with ⟨c, hc, hseq, -⟩ | ⟨-, hfree⟩
      · exact ⟨c, hc, hseq⟩
      · omega
    · rw [if_pos hturn]
      refine h.consume_quiet hconsumed rfl fun c hc ↦ ?_
      cases hc
      exact ⟨hok, nofun⟩
  | loadEnqueue =>
    have hconsumed := consumed_eq hcall (by rw [hpc]; nofun)
    refine h.consume_quiet hconsumed ?_ nofun
    exact List.filterMap_append.trans (List.append_nil _)
  | readEnvelope =>
    have hconsumed := consumed_eq hcall (by rw [hpc]; nofun)
    rw [hpc] at hok
    obtain ⟨hposition, c, hc, hseq⟩ := hok
    refine h.consume_quiet hconsumed rfl fun c' hc' ↦ ?_
    cases hc'
    have hpos := hadmitted.pos
    have hcell : s.ring.cells (index capacity consumption.position) =
        ⟨consumption.position + 1, c⟩ := by
      rcases h.cell consumption.position (by omega) (by omega) with
        ⟨c', hc', hseq', hcell⟩ | ⟨hnone, -⟩
      · rw [hcell, h.eq_of_sequence hc' hc (hseq'.trans hseq.symm)]
      · exact absurd hseq (hnone c hc)
    refine ⟨⟨hposition, ?_, ?_⟩, nofun⟩
    · rw [hcell]
      exact hc
    · rw [hcell]
      exact hseq
  | storeTurn => exact h.giveBack hadmitted hcall hpc rfl
  | storePosition => exact h.giveOut hcall hpc rfl

theorem step (h : Inv capacity s) (hadmitted : Admitted capacity) (htwo : 2 ≤ capacity)
    {action : Action} (hstep : s.step capacity action = some s') : Inv capacity s' := by
  cases action with
  | tryPublish thread producerIndex record =>
    simp only [State.step, State.tryPublish] at hstep
    split at hstep
    · cases hstep
    · next hidle =>
      split at hstep
      · cases hstep
        have hsame : Function.update s.publishers thread none = s.publishers := by
          rw [← Option.not_isSome_iff_eq_none.mp hidle, Function.update_eq_self]
        have hquiet : Inv capacity { s with
            publishers := Function.update s.publishers thread none
            results := s.results ++ [(record, { status := .invalid, publicationActions := 3 })] } :=
          h.quiet (accepted_of_ne nofun) nofun
        rwa [hsame] at hquiet
      · cases hstep
        refine h.quiet rfl fun call' hcall' ↦ ?_
        cases hcall'
        exact ⟨trivial, nofun⟩
  | publish thread =>
    simp only [State.step, Option.map_eq_some_iff] at hstep
    obtain ⟨call, hcall, rfl⟩ := hstep
    exact h.publish hadmitted htwo hcall
  | tryConsume =>
    simp only [State.step] at hstep
    split at hstep
    · cases hstep
    · next hidle =>
      cases hstep
      have hconsumed : s.consumed = s.ring.dequeuePosition := by
        rw [State.consumed, Option.not_isSome_iff_eq_none.mp hidle]
        rfl
      refine h.consume_quiet hconsumed rfl fun c hc ↦ ?_
      cases hc
      exact ⟨trivial, nofun⟩
  | consume =>
    simp only [State.step, Option.map_eq_some_iff] at hstep
    obtain ⟨call, hcall, rfl⟩ := hstep
    exact h.consume hadmitted hcall

theorem init (hadmitted : Admitted capacity) : Inv capacity (machine capacity).init where
  consumed_le := le_rfl
  le_consumed := Nat.zero_le _
  reserved := rfl
  accepted := nofun
  once := List.nodup_nil
  past := nofun
  cell := fun k _ hk ↦ by
    refine .inr ⟨nofun, ?_⟩
    change index capacity k = k
    rw [hadmitted.index_eq]
    exact Nat.mod_eq_of_lt (hk.trans_eq (Nat.zero_add _))
  calls := nofun
  exclusive := nofun
  consumer := nofun
  returned := rfl
  order := rfl
  fromAccepted := nofun

theorem of_reachable (hadmitted : Admitted capacity) (htwo : 2 ≤ capacity)
    (h : (machine capacity).Reachable s) : Inv capacity s :=
  h.invariant (init hadmitted) fun _ _ _ hs hstep ↦ hs.step hadmitted htwo hstep

/-! ### The queue -/

/-- The cell of an accepted record that was not consumed. -/
theorem kept (h : Inv capacity s) (hc : c ∈ s.accepted) (hlow : s.consumed ≤ c.admissionSequence) :
    s.ring.cells (index capacity c.admissionSequence) = ⟨c.admissionSequence + 1, c⟩ := by
  have hlap := (h.lt_of_accepted hc).trans_le h.le_consumed
  rcases h.cell _ hlow hlap with ⟨c', hc', hseq, hcell⟩ | ⟨hnone, -⟩
  · rw [hcell, h.eq_of_sequence hc' hc hseq]
  · exact absurd rfl (hnone c hc)

theorem bounded (h : Inv capacity s) :
    (s.accepted.filter (s.consumed ≤ ·.admissionSequence)).length ≤ capacity := by
  have hnodup : ((s.accepted.filter (s.consumed ≤ ·.admissionSequence)).map
      (·.admissionSequence)).Nodup := (List.filter_sublist.map _).nodup h.once
  have hsubset : (s.accepted.filter (s.consumed ≤ ·.admissionSequence)).map
      (·.admissionSequence) ⊆ List.range' s.consumed capacity := by
    intro k hk
    obtain ⟨c, hc, rfl⟩ := List.mem_map.mp hk
    obtain ⟨hmem, hlow⟩ := List.mem_filter.mp hc
    have hlt := (h.lt_of_accepted hmem).trans_le h.le_consumed
    exact List.mem_range'_1.mpr ⟨of_decide_eq_true hlow, hlt⟩
  have hle := (List.subperm_of_subset hnodup hsubset).length_le
  rwa [List.length_map, List.length_range'] at hle

end Inv

/-- A consumption that nothing interrupts takes the record that its cell holds. -/
theorem run_consumeAlone (hidle : s.consumer = none)
    (hcell : s.ring.cells (index capacity s.ring.dequeuePosition) =
      ⟨s.ring.dequeuePosition + 1, c⟩) :
    ∃ s', (machine capacity).run (fun _ _ ↦ True) s State.consumeAlone = some s' ∧
      s'.returned = s.returned ++ [c] := by
  refine ⟨{ s with
    ring := { s.ring.setCell capacity s.ring.dequeuePosition
      ⟨s.ring.dequeuePosition + capacity, c⟩ with
        dequeuePosition := s.ring.dequeuePosition + 1 }
    consumer := none
    consumptions := s.consumptions ++ [{ status := .record, record := some c }] },
    ?_, List.filterMap_append⟩
  simp [State.consumeAlone, Machine.run, machine, State.step, hidle, State.consume, consumeStep,
    Ring.turn, hcell, Ring.setCell]

theorem PublishCall.status_of_nextProbe (h : call.nextProbe position = .returned result) :
    result.status = .contended := by
  unfold nextProbe at h
  split at h
  · cases h
  · cases h
    rfl

/-- Only a load that finds a turn below the position decides for `kFull`. -/
theorem publishStep_full {ring : Ring} (h : (publishStep capacity ring call).2 = .returned result)
    (hfull : result.status = .full) :
    call.pc = .loadTurn ∧ ring.turn capacity call.position < call.position := by
  unfold publishStep at h
  cases hpc : call.pc with
  | loadPosition =>
    rw [hpc] at h
    cases h
  | loadTurn =>
    refine ⟨rfl, ?_⟩
    rw [hpc] at h
    dsimp only at h
    split at h
    · cases h
    · split at h
      · next hlt => exact hlt
      · cases h
  | exchange =>
    rw [hpc] at h
    dsimp only at h
    split at h
    · cases h
    · cases hfull.symm.trans (call.status_of_nextProbe h)
  | reload =>
    rw [hpc] at h
    cases hfull.symm.trans (call.status_of_nextProbe h)
  | writeEnvelope =>
    rw [hpc] at h
    cases h
  | storeTurn =>
    rw [hpc] at h
    cases h
    cases hfull

theorem publish_results
    (h : (s.publish capacity t call).results = s.results ++ [(record, result)]) :
    (publishStep capacity s.ring call).2 = .returned result := by
  unfold State.publish at h
  dsimp only at h
  split at h
  · exact absurd (congrArg List.length h) (by simp)
  · next heq =>
    rw [heq]
    cases List.append_cancel_left h
    rfl

/-- Only the load of the enqueue position decides for `kEmpty`. -/
theorem consumeStep_empty {ring : Ring} {result : ConsumeResult}
    (h : (consumeStep capacity ring consumption).2 = .returned result)
    (hempty : result.status = .empty) :
    consumption.pc = .loadEnqueue ∧ ring.enqueuePosition ≤ consumption.position := by
  unfold consumeStep at h
  cases hpc : consumption.pc with
  | loadEnqueue =>
    rw [hpc] at h
    cases h
    refine ⟨rfl, le_of_not_gt fun hlt ↦ ?_⟩
    rw [if_pos hlt] at hempty
    cases hempty
  | loadTurn =>
    rw [hpc] at h
    dsimp only at h
    split at h <;> cases h
  | storePosition =>
    rw [hpc] at h
    cases h
    cases hempty
  | _ =>
    rw [hpc] at h
    cases h

theorem consume_consumptions {result : ConsumeResult}
    (h : (s.consume capacity consumption).consumptions = s.consumptions ++ [result]) :
    (consumeStep capacity s.ring consumption).2 = .returned result := by
  unfold State.consume at h
  dsimp only at h
  split at h
  · exact absurd (congrArg List.length h) (by simp)
  · next heq =>
    rw [heq]
    cases List.append_cancel_left h
    rfl

/-- From two cells on, the ring is a lossless queue in every interleaving. -/
theorem ring_fifo (hadmitted : Admitted capacity) (htwo : 2 ≤ capacity)
    (h : (machine capacity).Reachable s) : Fifo capacity s := by
  have hinv : Inv capacity s := .of_reachable hadmitted htwo h
  refine ⟨hinv.order, hinv.fromAccepted, hinv.once, fun c ↦ hinv.kept, hinv.bounded, ?_, ?_, ?_⟩
  · intro c hc hseq hidle
    have hconsumed : s.consumed = s.ring.dequeuePosition := by
      rw [State.consumed, hidle]
      rfl
    rw [hinv.returned] at hseq
    have hcell := hinv.kept hc (hconsumed.trans hseq.symm).le
    rw [hseq] at hcell
    exact run_consumeAlone hidle hcell
  · intro thread s' record result hstep hresults hfull
    simp only [State.step, Option.map_eq_some_iff] at hstep
    obtain ⟨call, hcall, rfl⟩ := hstep
    obtain ⟨hpc, hturn⟩ := publishStep_full (publish_results hresults) hfull
    have hok := hinv.calls thread call hcall
    unfold CallOk at hok
    rw [hpc] at hok
    exact hinv.full_of_turn hadmitted hok hturn
  · intro s' result hstep hconsumptions hempty
    simp only [State.step, Option.map_eq_some_iff] at hstep
    obtain ⟨consumption, hcall, rfl⟩ := hstep
    obtain ⟨hpc, hle⟩ := consumeStep_empty (consume_consumptions hconsumptions) hempty
    have hconsumed := Inv.consumed_eq hcall (by rw [hpc]; nofun)
    have hok := hinv.consumer consumption hcall
    unfold ConsumerOk at hok
    rw [hpc] at hok
    have hdequeue : s.consumed = s.ring.enqueuePosition :=
      le_antisymm hinv.consumed_le (by rw [hconsumed, ← hok]; exact hle)
    exact ⟨by rw [hinv.returned, ← hconsumed, hdequeue], hdequeue⟩

theorem admitted_two : Admitted 2 := ⟨by decide, by decide, by decide⟩

/-- The handle of a one byte record. -/
def byteHandle (slotIndex : ℕ) : RecordHandle := ⟨slotIndex, 1, 1, 1⟩

/-- A whole uncontended publication. -/
def publishAlone (thread slotIndex : ℕ) : List Action :=
  .tryPublish thread thread (byteHandle slotIndex) :: List.replicate 5 (.publish thread)

/-- The second producer loses the first position and publishes before the first one does. The
records are taken in the order of the positions. -/
theorem ring_fifo_two_producers : ∃ s, (machine 2).Reachable s ∧
    (s.accepted = [⟨byteHandle 6, 1⟩, ⟨byteHandle 5, 0⟩] ∧
      s.returned = [⟨byteHandle 5, 0⟩, ⟨byteHandle 6, 1⟩]) ∧ Fifo 2 s := by
  obtain ⟨s, hs, htest⟩ := Machine.Reach.exists_of_run (machine 2) (fun _ _ ↦ True)
    (fun s ↦ decide (s.accepted = [⟨byteHandle 6, 1⟩, ⟨byteHandle 5, 0⟩] ∧
      s.returned = [⟨byteHandle 5, 0⟩, ⟨byteHandle 6, 1⟩]))
    ([.tryPublish 0 0 (byteHandle 5), .tryPublish 1 1 (byteHandle 6), .publish 0, .publish 1,
        .publish 0, .publish 1, .publish 0] ++ List.replicate 5 (.publish 1) ++
      List.replicate 2 (.publish 0) ++ State.consumeAlone ++ State.consumeAlone) (by decide +kernel)
  exact ⟨s, hs, of_decide_eq_true htest, ring_fifo admitted_two le_rfl hs⟩

/-- A ring of one cell is admitted, and there a second producer overwrites the record that the
first published: both publications are accepted, and the consumer waits for the lost one. -/
theorem one_cell_overwrites : Admitted 1 ∧ ∃ s, (machine 1).Reachable s ∧
    (s.accepted = [⟨byteHandle 5, 0⟩, ⟨byteHandle 6, 1⟩] ∧ s.consumed = 0 ∧
      s.ring.cells 0 = ⟨2, ⟨byteHandle 6, 1⟩⟩ ∧ s.consumptions = [{ status := .pending }]) ∧
    ¬Fifo 1 s := by
  refine ⟨⟨by decide, by decide, by decide⟩, ?_⟩
  obtain ⟨s, hs, htest⟩ := Machine.Reach.exists_of_run (machine 1) (fun _ _ ↦ True)
    (fun s ↦ decide (s.accepted = [⟨byteHandle 5, 0⟩, ⟨byteHandle 6, 1⟩] ∧ s.consumed = 0 ∧
      s.ring.cells 0 = ⟨2, ⟨byteHandle 6, 1⟩⟩ ∧ s.consumptions = [{ status := .pending }]))
    (publishAlone 0 5 ++ publishAlone 1 6 ++ State.consumeAlone.take 4) (by decide +kernel)
  have hlost := of_decide_eq_true htest
  refine ⟨s, hs, hlost, fun hfifo ↦ ?_⟩
  obtain ⟨haccepted, hconsumed, hcell, -⟩ := hlost
  have hkept := hfifo.kept ⟨byteHandle 5, 0⟩ (haccepted ▸ List.mem_cons_self) hconsumed.le
  have hsame : s.ring.cells 0 = ⟨1, ⟨byteHandle 5, 0⟩⟩ := hkept
  rw [hcell] at hsame
  cases hsame

end Ulog.Mpsc
