import Ulog.Testing.Destination

/-!
# The structured destination loses nothing

A slot is out under a claim, holds a Record that waits, or is out under an observation, and never
two of these: claims and observations own their slots in the sense of `Handles.Owning`, so no stamp
check ever fails and the generations, which wrap around, never have to tell two owners apart.

A published Record fits. Its source texts and its message lie behind one another in the Record's own
bytes, so three texts packed without a header fit the destination's bound as well: `copyTexts_eq`.
-/

namespace Ulog.Destination

open ByteMemory

variable {config : Config} {s s' : State} {w w' : World} {index c k admissionSequence : ℕ}
  {record : RecordView} {o : Observation} {claim : Claim}

/-! ## Copied texts -/

theorem copyText_of_fits {backing : Mem} {destination capacity cursor : ℕ} {source : Bytes}
    (hfit : cursor + source.length ≤ capacity) :
    copyText backing destination capacity cursor source =
      (write backing (destination + cursor) source, cursor + source.length,
        ⟨⟨cursor, source.length⟩, true⟩) := by
  have hsize : min (capacity - cursor) source.length = source.length := by omega
  rw [copyText, if_pos (show cursor ≤ capacity by omega)]
  simp only [hsize, List.take_length, beq_self_eq_true]

theorem copyUtf8Text_of_fits {backing : Mem} {destination capacity cursor : ℕ} {source : Bytes}
    (hfit : cursor + source.length ≤ capacity) :
    copyUtf8Text backing destination capacity cursor source =
      copyText backing destination capacity cursor source := by
  have hsize : min (capacity - cursor) source.length = source.length := by omega
  rw [copyUtf8Text, if_pos (show cursor ≤ capacity by omega)]
  simp only [hsize, lt_irrefl, if_false, List.take_length, beq_self_eq_true]
  rw [copyText_of_fits hfit]

/-- The three texts of a Record as `Store` packs them. -/
def packed (record : RecordView) : Bytes :=
  record.sourcePath ++ record.sourceFunction ++ record.message

/-- Where the texts of a Record that fits are copied to. -/
def Copied.ofRecord (admissionSequence : ℕ) (record : RecordView) : Copied where
  admissionSequence := admissionSequence
  record := record
  sourcePath := ⟨⟨0, record.sourcePath.length⟩, true⟩
  sourceFunction := ⟨⟨record.sourcePath.length, record.sourceFunction.length⟩, true⟩
  message :=
    ⟨⟨record.sourcePath.length + record.sourceFunction.length, record.message.length⟩, true⟩

theorem copyTexts_eq (hfit : (packed record).length ≤ config.maximumRecordBytes) :
    s.copyTexts config index admissionSequence record =
      ({ s with backing := write s.backing (slotBacking config index) (packed record) },
        .ofRecord admissionSequence record) := by
  rw [packed, List.length_append, List.length_append] at hfit
  have hpath := @copyText_of_fits s.backing (slotBacking config index) config.maximumRecordBytes 0
    record.sourcePath (by omega)
  have hfunction := @copyText_of_fits
    (write s.backing (slotBacking config index + 0) record.sourcePath) (slotBacking config index)
    config.maximumRecordBytes (0 + record.sourcePath.length) record.sourceFunction (by omega)
  simp only [State.copyTexts, hpath, hfunction]
  rw [copyUtf8Text_of_fits (by omega), copyText_of_fits (by omega), packed, write_append,
    write_append]
  simp only [Nat.zero_add, Nat.add_zero, Copied.ofRecord, List.length_append]

theorem packed_fits {conv : Charconv} (r : PublishedRecord conv)
    (hlimit : r.limit ≤ config.maximumRecordBytes) :
    (packed r.view).length ≤ config.maximumRecordBytes := by
  obtain ⟨hreads, -, -, hbound⟩ := r.reads_message
  rw [packed, List.length_append, List.length_append, hreads.sourcePath, hreads.sourceFunction,
    hreads.message]
  have hstart : messageStart r.source =
    serializedRecordMetadataBytes + r.source.fileName.length + r.source.functionName.length := rfl
  have hsource : r.content.source = r.source := rfl
  rw [hsource]
  omega

/-! ## Slots and their bytes -/

/-- The bytes of a slot are what they were. -/
def SameBytes (config : Config) (m m' : Mem) (index : ℕ) : Prop :=
  ∀ j < config.maximumRecordBytes,
    m' (slotBacking config index + j) = m (slotBacking config index + j)

theorem storedText_congr (h : SameBytes config s.backing s'.backing index) (range : TextRange) :
    s'.storedText config index range = s.storedText config index range := by
  unfold State.storedText
  split
  · rfl
  · next hrange =>
    refine read_congr fun i hi hi' ↦ ?_
    have := h (i - slotBacking config index) (by omega)
    rwa [Nat.add_sub_cancel' (by omega)] at this

/-- A slot shows the same as long as its bytes and everything but its state stay. -/
theorem slotValues_congr (h : SameBytes config s.backing s'.backing index)
    (hslot : ∃ state generation, s'.slots index =
      { s.slots index with state := state, generation := generation }) :
    s'.slotValues config index = s.slotValues config index := by
  obtain ⟨state, generation, hslot⟩ := hslot
  simp only [State.slotValues, hslot, storedText_congr h]

theorem sameBytes_write {m : Mem} {index' : ℕ} (hne : index' ≠ index) {bytes : Bytes}
    (hfit : bytes.length ≤ config.maximumRecordBytes) :
    SameBytes config m (write m (slotBacking config index) bytes) index' := by
  intro j hj
  refine write_apply_of_outside ?_
  unfold slotBacking
  rcases Nat.lt_or_gt_of_ne hne with hlt | hlt
  · have := Nat.mul_le_mul_right config.maximumRecordBytes (Nat.succ_le_of_lt hlt)
    rw [Nat.succ_mul] at this
    omega
  · have := Nat.mul_le_mul_right config.maximumRecordBytes (Nat.succ_le_of_lt hlt)
    rw [Nat.succ_mul] at this
    omega

/-- The bytes of a slot are the packed texts of a Record. -/
structure Holds (config : Config) (backing : Mem) (index : ℕ) (record : RecordView) : Prop where
  fits : (packed record).length ≤ config.maximumRecordBytes
  read : read backing (slotBacking config index) (packed record).length = packed record

theorem Holds.congr {m m' : Mem} (h : Holds config m index record)
    (hsame : SameBytes config m m' index) : Holds config m' index record := by
  refine ⟨h.fits, Eq.trans (read_congr fun i hi hi' ↦ ?_) h.read⟩
  have hfits := h.fits
  have := hsame (i - slotBacking config index) (by omega)
  rwa [Nat.add_sub_cancel' hi] at this

/-- A commit shows the Record whose texts were copied: no text is cut, and the slot is truncated if
the Record is. -/
theorem Holds.slotValues_commit (h : Holds config s.backing index record)
    (hindex : index < config.capacityRecords) :
    (s.commit index (.ofRecord admissionSequence record)).slotValues config index =
      .ofRecord admissionSequence record := by
  have hfits := h.fits
  obtain ⟨hsource, hmessage⟩ := read_append h.read
  obtain ⟨hpath, hfunction⟩ := read_append hsource
  rw [packed, List.length_append, List.length_append] at hfits
  rw [List.length_append] at hmessage
  have htext : ∀ {range : TextRange} {text : Bytes},
      range.offset + range.size ≤ config.maximumRecordBytes →
      ByteMemory.read s.backing (slotBacking config index + range.offset) range.size = text →
      (s.commit index (.ofRecord admissionSequence record)).storedText config index range =
        text := by
    intro range text hrange hread
    rw [State.storedText, if_neg (by omega)]
    exact hread
  have hslot : (s.commit index (.ofRecord admissionSequence record)).slots index = _ :=
    Function.update_self ..
  have hpath' := @htext (Copied.ofRecord admissionSequence record).sourcePath.range _
    (by dsimp only [Copied.ofRecord]; omega) hpath
  have hfunction' := @htext (Copied.ofRecord admissionSequence record).sourceFunction.range _
    (by dsimp only [Copied.ofRecord]; omega) hfunction
  have hmessage' := @htext (Copied.ofRecord admissionSequence record).message.range _
    (by dsimp only [Copied.ofRecord]; omega) hmessage
  have htruncated : (record.truncated || !true || !true || !true) = record.truncated := by simp
  rw [State.slotValues, hslot]
  dsimp only
  rw [hpath', hfunction', hmessage']
  unfold Copied.ofRecord
  dsimp only
  rw [htruncated, Values.ofRecord]

/-! ## Who has a slot -/

/-- The generation under which a slot is in a state. -/
def State.under (s : State) : SlotState → ℕ → Option ℕ :=
  Handles.stampIn (fun i ↦ (s.slots i).state) fun i ↦ (s.slots i).generation

theorem State.setSlot_of_ne {j : ℕ} (hne : j ≠ index) (slot : SlotMetadata) :
    (s.setSlot index slot).slots j = s.slots j :=
  Function.update_of_ne hne _ _

theorem State.setSlot_self (s : State) (index : ℕ) (slot : SlotMetadata) :
    (s.setSlot index slot).slots index = slot :=
  Function.update_self ..

theorem State.under_setSlot_of_ne {state : SlotState} {j : ℕ} (hne : j ≠ index)
    (slot : SlotMetadata) : (s.setSlot index slot).under state j = s.under state j :=
  Handles.stampIn_congr (congrArg SlotMetadata.state (State.setSlot_of_ne hne slot))
    (congrArg SlotMetadata.generation (State.setSlot_of_ne hne slot))

theorem slotValues_setSlot_of_ne {j : ℕ} (hne : j ≠ index) (slot : SlotMetadata) :
    (s.setSlot index slot).slotValues config j = s.slotValues config j :=
  slotValues_congr (fun _ _ ↦ rfl) ⟨_, _, State.setSlot_of_ne hne slot⟩

theorem State.waitForWrite_cases (config : Config) (s : State) :
    s.waitForWrite config = (s, none) ∨
      ∃ index < config.capacityRecords, (s.slots index).state = .free ∧
        s.waitForWrite config =
          (s.setSlot index
            { s.slots index with
              generation := nextGeneration (s.slots index).generation
              state := .reserved },
            some ⟨index, nextGeneration (s.slots index).generation⟩) := by
  unfold State.waitForWrite
  split
  · exact .inl rfl
  · split
    · exact .inl rfl
    · next index hfind =>
      have hindex := List.mem_range.mp (List.mem_of_find?_eq_some hfind)
      have hfree := List.find?_some hfind
      exact .inr ⟨index, hindex, beq_iff_eq.mp hfree, rfl⟩

theorem State.tryTake_cases (config : Config) (s : State) :
    (s.tryTake config = (s, none) ∧ ∀ i < config.capacityRecords, (s.slots i).state ≠ .ready) ∨
      ∃ index < config.capacityRecords, (s.slots index).state = .ready ∧
        (∀ i < config.capacityRecords, (s.slots i).state = .ready →
          (s.slots index).admissionSequence ≤ (s.slots i).admissionSequence) ∧
        s.tryTake config =
          (s.setSlot index { s.slots index with state := .held },
            some ⟨index, (s.slots index).generation⟩) := by
  have hspec := selectLowest_spec (fun i ↦ (s.slots i).state == .ready)
    (fun i ↦ (s.slots i).admissionSequence) config.capacityRecords
  unfold State.tryTake State.selectReady
  cases hselected : selectLowest (fun i ↦ (s.slots i).state == .ready)
      (fun i ↦ (s.slots i).admissionSequence) config.capacityRecords with
  | none =>
    rw [hselected] at hspec
    exact .inl ⟨rfl, fun i hi ↦ beq_eq_false_iff_ne.mp (hspec i hi)⟩
  | some index =>
    rw [hselected] at hspec
    obtain ⟨hindex, hready, hlowest⟩ := hspec
    exact .inr ⟨index, hindex, beq_iff_eq.mp hready,
      fun i hi hi' ↦ hlowest i hi (beq_iff_eq.mpr hi'), rfl⟩

structure Inv (config : Config) (w : World) : Prop where
  outside : ∀ i, config.capacityRecords ≤ i → (w.state.slots i).state = .free
  claims : Handles.Owning (·.identity.index) (·.identity.generation) w.claims
    (w.state.under .reserved)
  observations : Handles.Owning (·.identity.index) (·.identity.generation) w.observations
    (w.state.under .held)
  copied : ∀ c claim copied, w.claims c = some claim → claim.copied = some copied →
    ∃ n record, copied = .ofRecord n record ∧
      Holds config w.state.backing claim.identity.index record
  shown : ∀ i, (w.state.slots i).state = .ready ∨ (w.state.slots i).state = .held →
    w.stored[w.numbers i]? = some (w.state.slotValues config i)
  ready : ∀ i, (w.state.slots i).state = .ready → w.numbers i ∉ w.taken
  held : ∀ h o, w.observations h = some o →
    w.numbers o.identity.index = o.number ∧ o.number ∈ w.taken
  distinct : ∀ i j, (w.state.slots i).state = .ready → (w.state.slots j).state = .ready →
    w.numbers i = w.numbers j → i = j
  available : ∀ n < w.stored.length, n ∉ w.taken →
    ∃ i, (w.state.slots i).state = .ready ∧ w.numbers i = n
  once : w.taken.Nodup
  taken : ∀ n ∈ w.taken, n < w.stored.length

namespace Inv

theorem init : Inv config (machine config).init where
  outside := fun _ _ ↦ rfl
  claims := .of_none fun _ ↦ rfl
  observations := .of_none fun _ ↦ rfl
  copied := nofun
  shown := nofun
  ready := nofun
  held := nofun
  distinct := nofun
  available := nofun
  once := List.nodup_nil
  taken := nofun

section

variable (h : Inv config w)

include h

theorem lt_capacity {i : ℕ} (hi : (w.state.slots i).state ≠ .free) : i < config.capacityRecords :=
  lt_of_not_ge fun hle ↦ hi (h.outside i hle)

theorem state_of_claim (hc : w.claims c = some claim) :
    (w.state.slots claim.identity.index).state = .reserved ∧
      (w.state.slots claim.identity.index).generation = claim.identity.generation :=
  Handles.stampIn_eq_some.mp (h.claims.owned hc)

theorem state_of_observation (ho : w.observations k = some o) :
    (w.state.slots o.identity.index).state = .held ∧
      (w.state.slots o.identity.index).generation = o.identity.generation :=
  Handles.stampIn_eq_some.mp (h.observations.owned ho)

theorem observe (ho : w.observations k = some o) :
    w.state.observe config o.identity = w.state.slotValues config o.identity.index := by
  obtain ⟨hstate, hgeneration⟩ := h.state_of_observation ho
  have hlt := h.lt_capacity (i := o.identity.index) (by rw [hstate]; nofun)
  rw [State.observe, State.findHeldSlot, if_pos ⟨hlt, hstate, hgeneration⟩]

theorem numbers_lt {i : ℕ} (hi : (w.state.slots i).state = .ready) :
    w.numbers i < w.stored.length :=
  (List.getElem?_eq_some_iff.mp (h.shown i (.inl hi))).1

theorem index_ne_of_observation (ho : w.observations k = some o)
    (hindex : (w.state.slots index).state ≠ .held) : o.identity.index ≠ index := by
  rintro rfl
  exact hindex (h.state_of_observation ho).1

theorem releaseSlotHandle_eq {identity : SlotIdentity} {state : SlotState}
    (hstate : (w.state.slots identity.index).state = state) (hne : state ≠ .free)
    (hgeneration : (w.state.slots identity.index).generation = identity.generation) :
    w.state.releaseSlotHandle config identity state =
      w.state.setSlot identity.index { w.state.slots identity.index with state := .free } :=
  if_pos ⟨h.lt_capacity (hstate ▸ hne), hstate, hgeneration⟩

/-- What one slot does not change as long as it is neither ready nor held, nor becomes so. -/
theorem setSlot {slot : SlotMetadata} (hindex : index < config.capacityRecords)
    (hold : (w.state.slots index).state ≠ .ready) (hnew : slot.state ≠ .ready)
    (hheld : slot.state ≠ .held) {claims : ℕ → Option Claim} {observations : ℕ → Option Observation}
    (hclaims : Handles.Owning (·.identity.index) (·.identity.generation) claims
      ((w.state.setSlot index slot).under .reserved))
    (hobservations : Handles.Owning (·.identity.index) (·.identity.generation) observations
      ((w.state.setSlot index slot).under .held))
    (hcopied : ∀ c claim copied, claims c = some claim → claim.copied = some copied →
      w.claims c = some claim)
    (hobserved : ∀ k o, observations k = some o → w.observations k = some o) :
    Inv config
      { w with
        state := w.state.setSlot index slot
        claims := claims
        observations := observations } := by
  have hslot : ∀ j, (w.state.setSlot index slot).slots j =
      if j = index then slot else w.state.slots j := fun j ↦ Function.update_apply ..
  have hready : ∀ j, ((w.state.setSlot index slot).slots j).state = .ready →
      (w.state.slots j).state = .ready := by
    intro j hj
    rw [hslot] at hj
    split at hj
    · exact absurd hj hnew
    · exact hj
  refine {
    outside := fun i hi ↦ ?_
    claims := hclaims
    observations := hobservations
    copied := fun c claim copied hc hcopy ↦
      h.copied c claim copied (hcopied c claim copied hc hcopy) hcopy
    shown := fun i hi ↦ ?_
    ready := fun i hi ↦ h.ready i (hready i hi)
    held := fun k o ho ↦ h.held k o (hobserved k o ho)
    distinct := fun i j hi hj ↦ h.distinct i j (hready i hi) (hready j hj)
    available := fun n hn htaken ↦ ?_
    once := h.once
    taken := h.taken }
  · rw [State.setSlot_of_ne (by omega)]
    exact h.outside i hi
  · have hne : i ≠ index := by
      rintro rfl
      rw [State.setSlot_self] at hi
      exact hi.elim hnew hheld
    rw [State.setSlot_of_ne hne] at hi
    rw [slotValues_setSlot_of_ne hne]
    exact h.shown i hi
  · obtain ⟨i, hi, hnumber⟩ := h.available n hn htaken
    have hne : i ≠ index := fun heq ↦ hold (heq ▸ hi)
    refine ⟨i, ?_, hnumber⟩
    rw [State.setSlot_of_ne hne]
    exact hi

theorem waitForWrite (hc : w.claims c = none) : Inv config (w.waitForWrite config c) := by
  unfold World.waitForWrite
  rcases State.waitForWrite_cases config w.state with heq | ⟨index, hindex, hfree, heq⟩
  · rw [heq]
    dsimp only [Option.map_none]
    rw [Handles.update_none hc]
    exact h
  · rw [heq]
    refine h.setSlot hindex (by rw [hfree]; nofun) ?_ ?_ ?_ ?_ (fun c' claim copied hc' hcopy ↦ ?_)
      fun _ _ ho ↦ ho
    · nofun
    · nofun
    · refine h.claims.grant (Handles.stampIn_of_ne (by rw [hfree]; nofun)) ?_
        fun k hk ↦ State.under_setSlot_of_ne hk _
      exact Handles.stampIn_eq_some.mpr (by rw [State.setSlot_self]; exact ⟨rfl, rfl⟩)
    · exact h.observations.elsewhere (Handles.stampIn_of_ne (by rw [hfree]; nofun)) fun k hk ↦
        State.under_setSlot_of_ne hk _
    · by_cases heq : c' = c
      · rw [heq, Option.map_some, Function.update_self] at hc'
        cases hc'
        cases hcopy
      · rwa [Function.update_of_ne heq] at hc'

theorem resetClaim (c : ℕ) : Inv config (w.resetClaim config c) := by
  unfold World.resetClaim
  split
  · exact h
  · next claim hc =>
    obtain ⟨hstate, hgeneration⟩ := h.state_of_claim hc
    rw [h.releaseSlotHandle_eq hstate nofun hgeneration]
    have hindex := h.lt_capacity (i := claim.identity.index) (by rw [hstate]; nofun)
    refine h.setSlot hindex (by rw [hstate]; nofun) ?_ ?_ ?_ ?_
      (fun c' claim' copied hc' _ ↦ ?_) fun _ _ ho ↦ ho
    · nofun
    · nofun
    · exact h.claims.release hc fun k hk ↦ State.under_setSlot_of_ne hk _
    · exact h.observations.elsewhere (Handles.stampIn_of_ne (by rw [hstate]; nofun)) fun k hk ↦
        State.under_setSlot_of_ne hk _
    · exact Handles.eq_some_of_update_none hc'

theorem release (k : ℕ) : Inv config (w.release config k) := by
  unfold World.release
  split
  · exact h
  · next o ho =>
    obtain ⟨hstate, hgeneration⟩ := h.state_of_observation ho
    rw [h.releaseSlotHandle_eq hstate nofun hgeneration]
    have hindex := h.lt_capacity (i := o.identity.index) (by rw [hstate]; nofun)
    refine h.setSlot hindex (by rw [hstate]; nofun) ?_ ?_ ?_ ?_ (fun _ _ _ hc _ ↦ hc)
      fun k' o' ho' ↦ ?_
    · nofun
    · nofun
    · exact h.claims.elsewhere (Handles.stampIn_of_ne (by rw [hstate]; nofun)) fun k hk ↦
        State.under_setSlot_of_ne hk _
    · exact h.observations.release ho fun k hk ↦ State.under_setSlot_of_ne hk _
    · exact Handles.eq_some_of_update_none ho'

theorem copy (hc : w.claims c = some claim)
    (hfit : (packed record).length ≤ config.maximumRecordBytes) :
    Inv config (w.copy config c claim admissionSequence record) := by
  have hreserved := (h.state_of_claim hc).1
  unfold World.copy
  rw [copyTexts_eq hfit]
  dsimp only
  refine { h with
    claims := h.claims.modify hc rfl rfl
    copied := fun c' claim' copied hc' hcopy ↦ ?_
    shown := fun i hi ↦ ?_ }
  · dsimp only at hc'
    by_cases heq : c' = c
    · rw [heq, Function.update_self] at hc'
      cases hc'
      cases hcopy
      exact ⟨admissionSequence, record, rfl, hfit, read_write_same ..⟩
    · rw [Function.update_of_ne heq] at hc'
      obtain ⟨n, record', hn, hholds⟩ := h.copied c' claim' copied hc' hcopy
      refine ⟨n, record', hn, hholds.congr (sameBytes_write (fun hindex ↦ heq ?_) hfit)⟩
      exact h.claims.unique hc' hc hindex
  · have hne : i ≠ claim.identity.index := by
      rintro rfl
      rw [hreserved] at hi
      exact hi.elim nofun nofun
    have hsame : State.slotValues config
        { w.state with
          backing := write w.state.backing (slotBacking config claim.identity.index)
            (packed record) } i = w.state.slotValues config i :=
      slotValues_congr (sameBytes_write hne hfit) ⟨_, _, rfl⟩
    exact (h.shown i hi).trans (congrArg some hsame.symm)

theorem commit {identity : SlotIdentity} {copied : Copied}
    (hc : w.claims c = some ⟨identity, some copied⟩) :
    Inv config (w.commit config c identity copied) := by
  obtain ⟨hstate, hgeneration⟩ := h.state_of_claim hc
  dsimp only at hstate hgeneration
  have howns : w.state.owns identity = true := by
    rw [State.owns, hstate, hgeneration, beq_self_eq_true, beq_self_eq_true]
    rfl
  obtain ⟨n, record, rfl, hholds⟩ := h.copied c _ copied hc rfl
  have hindex := h.lt_capacity (i := identity.index) (by rw [hstate]; nofun)
  have hvalues : _ = Values.ofRecord n record := hholds.slotValues_commit hindex
  have hslot : ∀ j, j ≠ identity.index →
      (w.state.commit identity.index (.ofRecord n record)).slots j = w.state.slots j :=
    fun j hj ↦ State.setSlot_of_ne hj _
  have hnumber : ∀ j, j ≠ identity.index →
      Function.update w.numbers identity.index w.stored.length j = w.numbers j :=
    fun j hj ↦ Function.update_of_ne hj _ _
  have hobservation : ∀ {k o}, w.observations k = some o → o.identity.index ≠ identity.index :=
    fun ho ↦ h.index_ne_of_observation ho (by rw [hstate]; nofun)
  unfold World.commit
  rw [if_pos howns]
  refine {
    outside := fun i hi ↦ ?_
    claims := h.claims.release hc fun k hk ↦ State.under_setSlot_of_ne hk _
    observations := h.observations.congr fun k o ho ↦ State.under_setSlot_of_ne (hobservation ho) _
    copied := fun c' claim copied hc' hcopy ↦ ?_
    shown := fun i hi ↦ ?_
    ready := fun i hi ↦ ?_
    held := fun k o ho ↦ ?_
    distinct := fun i j hi hj hij ↦ ?_
    available := fun n' hn htaken ↦ ?_
    once := h.once
    taken := fun n' hn ↦ ?_ }
  all_goals dsimp only at *
  · rw [hslot i (by omega)]
    exact h.outside i hi
  · exact h.copied c' claim copied (Handles.eq_some_of_update_none hc') hcopy
  · by_cases heq : i = identity.index
    · rw [heq, Function.update_self, List.getElem?_concat_length, hvalues]
      rfl
    · rw [hslot i heq] at hi
      have hold := h.shown i hi
      rw [hnumber i heq, List.getElem?_append_left (List.getElem?_eq_some_iff.mp hold).1, hold]
      exact congrArg some (slotValues_setSlot_of_ne heq _).symm
  · by_cases heq : i = identity.index
    · rw [heq, Function.update_self]
      exact fun hmem ↦ lt_irrefl _ (h.taken _ hmem)
    · rw [hslot i heq] at hi
      rw [hnumber i heq]
      exact h.ready i hi
  · rw [hnumber _ (hobservation ho)]
    exact h.held k o ho
  · by_cases hi' : i = identity.index <;> by_cases hj' : j = identity.index
    · rw [hi', hj']
    · rw [hslot j hj'] at hj
      rw [hi', Function.update_self, hnumber j hj'] at hij
      exact absurd (h.numbers_lt hj) (hij ▸ lt_irrefl _)
    · rw [hslot i hi'] at hi
      rw [hj', Function.update_self, hnumber i hi'] at hij
      exact absurd (h.numbers_lt hi) (hij ▸ lt_irrefl _)
    · rw [hslot i hi'] at hi
      rw [hslot j hj'] at hj
      rw [hnumber i hi', hnumber j hj'] at hij
      exact h.distinct i j hi hj hij
  · rw [List.length_append, List.length_singleton] at hn
    by_cases heq : n' = w.stored.length
    · refine ⟨identity.index, ?_, by rw [Function.update_self, heq]⟩
      exact congrArg SlotMetadata.state (State.setSlot_self ..)
    · obtain ⟨i, hi, hin⟩ := h.available n' (by omega) htaken
      have hne : i ≠ identity.index := by
        rintro rfl
        rw [hstate] at hi
        cases hi
      exact ⟨i, by rw [hslot i hne, hi], by rw [hnumber i hne, hin]⟩
  · rw [List.length_append]
    exact Nat.lt_add_right _ (h.taken n' hn)

theorem tryTake (k : ℕ) : Inv config (w.tryTake config k) := by
  unfold World.tryTake
  rcases State.tryTake_cases config w.state with ⟨heq, -⟩ | ⟨index, hindex, hready, -, heq⟩
  · rw [heq]
    exact h
  have hnumber := h.numbers_lt hready
  have htaken := h.ready index hready
  have hvalues : (w.state.setSlot index { w.state.slots index with state := .held }).slotValues
      config index = w.state.slotValues config index :=
    slotValues_congr (fun _ _ ↦ rfl) ⟨_, _, State.setSlot_self ..⟩
  have hold : ∀ {i}, ((w.state.setSlot index { w.state.slots index with state := .held }).slots
      i).state = .ready → i ≠ index ∧ (w.state.slots i).state = .ready := by
    intro i hi
    have hne : i ≠ index := by
      rintro rfl
      rw [State.setSlot_self] at hi
      cases hi
    rw [State.setSlot_of_ne hne] at hi
    exact ⟨hne, hi⟩
  rw [heq]
  refine {
    outside := fun i hi ↦ ?_
    claims := h.claims.elsewhere (Handles.stampIn_of_ne (by rw [hready]; nofun)) fun k hk ↦
      State.under_setSlot_of_ne hk _
    observations := ?_
    copied := h.copied
    shown := fun i hi ↦ ?_
    ready := fun i hi ↦ ?_
    held := fun k' o ho ↦ ?_
    distinct := fun i j hi hj ↦ h.distinct i j (hold hi).2 (hold hj).2
    available := fun n hn hfree ↦ ?_
    once := ?_
    taken := fun n hn ↦ ?_ }
  all_goals dsimp only at *
  · rw [State.setSlot_of_ne (by omega)]
    exact h.outside i hi
  · refine h.observations.grant (Handles.stampIn_of_ne (by rw [hready]; nofun)) ?_
      fun j hj ↦ State.under_setSlot_of_ne hj _
    exact Handles.stampIn_eq_some.mpr (by rw [State.setSlot_self]; exact ⟨rfl, rfl⟩)
  · by_cases hi' : i = index
    · rw [hi', hvalues]
      exact h.shown index (.inl hready)
    · rw [State.setSlot_of_ne hi'] at hi
      rw [slotValues_setSlot_of_ne hi']
      exact h.shown i hi
  · obtain ⟨hne, hi⟩ := hold hi
    rw [List.mem_append, List.mem_singleton]
    exact not_or_intro (h.ready i hi) fun hsame ↦ hne (h.distinct i index hi hready hsame)
  · by_cases hk : k' = k
    · rw [hk, Function.update_self] at ho
      cases ho
      exact ⟨rfl, List.mem_append_right _ List.mem_cons_self⟩
    · rw [Function.update_of_ne hk] at ho
      exact ⟨(h.held k' o ho).1, List.mem_append_left _ (h.held k' o ho).2⟩
  · rw [List.mem_append, List.mem_singleton, not_or] at hfree
    obtain ⟨i, hi, hin⟩ := h.available n hn hfree.1
    have hne : i ≠ index := by
      rintro rfl
      exact hfree.2 hin.symm
    exact ⟨i, by rw [State.setSlot_of_ne hne, hi], hin⟩
  · rw [← List.concat_eq_append]
    exact h.once.concat htaken
  · rw [List.mem_append, List.mem_singleton] at hn
    rcases hn with hn | rfl
    · exact h.taken n hn
    · exact hnumber

theorem moveClaim (c c' : ℕ) : Inv config (w.moveClaim config c c') := by
  unfold World.moveClaim
  split
  · exact h
  · have hreset := h.resetClaim c'
    exact { hreset with
      claims := hreset.claims.move c c'
      copied := fun _ claim copied hi hcopy ↦
        hreset.copied _ claim copied (Handles.move_source hi) hcopy }

theorem moveObservation (k k' : ℕ) : Inv config (w.moveObservation config k k') := by
  unfold World.moveObservation
  split
  · exact h
  · have hrelease := h.release k'
    exact { hrelease with
      observations := hrelease.observations.move k k'
      held := fun _ o hi ↦ hrelease.held _ o (Handles.move_source hi) }

theorem step {action : Action} (hok : Published config w action)
    (hstep : w.step config action = some w') : Inv config w' := by
  cases action with
  | waitForWrite c =>
    obtain ⟨hc, ⟨⟩⟩ := Option.ite_none_left_eq_some.mp hstep
    exact h.waitForWrite (Option.not_isSome_iff_eq_none.mp hc)
  | copy c admissionSequence record =>
    obtain ⟨conv, r, hlimit, rfl⟩ := hok
    simp only [World.step] at hstep
    split at hstep
    · cases hstep
      exact h
    · next claim hc =>
      split at hstep
      · cases hstep
      · cases hstep
        split
        · exact h
        · exact h.copy hc (packed_fits r hlimit)
  | commit c =>
    simp only [World.step] at hstep
    split at hstep
    · next identity copied hc =>
      cases hstep
      exact h.commit hc
    · cases hstep
  | resetClaim c =>
    obtain ⟨-, ⟨⟩⟩ := Option.ite_none_left_eq_some.mp hstep
    exact h.resetClaim c
  | moveClaim c c' =>
    obtain ⟨-, ⟨⟩⟩ := Option.ite_none_left_eq_some.mp hstep
    exact h.moveClaim c c'
  | tryTake k =>
    obtain ⟨-, ⟨⟩⟩ := Option.ite_none_left_eq_some.mp hstep
    exact h.tryTake k
  | release k =>
    cases hstep
    exact h.release k
  | moveObservation k k' =>
    cases hstep
    exact h.moveObservation k k'
  | resume =>
    cases hstep
    exact { h with }
  | stop =>
    cases hstep
    exact { h with }

end

end Inv

/-! ## Nothing is lost -/

theorem resetClaim_stored (c : ℕ) : (w.resetClaim config c).stored = w.stored := by
  unfold World.resetClaim
  split <;> rfl

theorem release_stored (k : ℕ) : (w.release config k).stored = w.stored := by
  unfold World.release
  split <;> rfl

theorem step_stored {action : Action} (hstep : w.step config action = some w') :
    w.stored <+: w'.stored := by
  cases action <;> simp only [World.step] at hstep <;>
    grind [World.waitForWrite, World.copy, World.commit, World.moveClaim, World.tryTake,
      World.moveObservation, resetClaim_stored, release_stored, List.prefix_append]

namespace Inv

/-- An observation shows the Record it was taken for. -/
theorem observed (h : Inv config w) (ho : w.observations k = some o) :
    w.stored[o.number]? = some (w.state.observe config o.identity) := by
  rw [h.observe ho, ← (h.held k o ho).1]
  exact h.shown _ (.inr (h.state_of_observation ho).1)

theorem lowest (h : Inv config w) (hstep : w.step config (.tryTake k) = some w') :
    (w' = w ∧ ∀ n < w.stored.length, n ∈ w.taken) ∨
      ∃ n v, w'.taken = w.taken ++ [n] ∧ w.stored[n]? = some v ∧
        (∃ identity, w'.observations k = some ⟨identity, n⟩) ∧
        ∀ (n' : ℕ) v', w.stored[n']? = some v' → n' ∉ w.taken →
          v.admissionSequence ≤ v'.admissionSequence := by
  obtain ⟨-, ⟨⟩⟩ := Option.ite_none_left_eq_some.mp hstep
  unfold World.tryTake
  rcases State.tryTake_cases config w.state with ⟨heq, hnone⟩ | ⟨index, -, hready, hlowest, heq⟩
  · left
    rw [heq]
    refine ⟨rfl, fun n hn ↦ ?_⟩
    by_contra htaken
    obtain ⟨i, hi, -⟩ := h.available n hn htaken
    exact hnone i (h.lt_capacity (by rw [hi]; nofun)) hi
  · right
    rw [heq]
    refine ⟨w.numbers index, w.state.slotValues config index, rfl, h.shown index (.inl hready),
      ⟨_, Function.update_self ..⟩, fun n' v' hv' htaken ↦ ?_⟩
    obtain ⟨i, hi, rfl⟩ := h.available n' (List.getElem?_eq_some_iff.mp hv').1 htaken
    have hvalue := Option.some.inj ((h.shown i (.inl hi)).symm.trans hv')
    rw [← hvalue]
    exact hlowest i (h.lt_capacity (by rw [hi]; nofun)) hi

theorem claimed (h : Inv config w) (hstep : w.step config (.waitForWrite c) = some w')
    (hclaim : w'.claims c = some claim) :
    (w.state.slots claim.identity.index).state = .free ∧
      ∀ k o, w.observations k = some o → o.identity.index ≠ claim.identity.index := by
  obtain ⟨-, ⟨⟩⟩ := Option.ite_none_left_eq_some.mp hstep
  unfold World.waitForWrite at hclaim
  rcases State.waitForWrite_cases config w.state with heq | ⟨index, -, hfree, heq⟩
  · rw [heq] at hclaim
    dsimp only [Option.map_none] at hclaim
    rw [Function.update_self] at hclaim
    cases hclaim
  · rw [heq] at hclaim
    dsimp only [Option.map_some] at hclaim
    rw [Function.update_self] at hclaim
    cases hclaim
    exact ⟨hfree, fun k o ho ↦ h.index_ne_of_observation ho (by rw [hfree]; nofun)⟩

end Inv

/-- In every run that stores published Records the destination is lossless. -/
theorem destination_lossless (h : (machine config).Reach (Published config) w) :
    Lossless config w := by
  have hinv : Inv config w := h.invariant Inv.init fun _ _ _ hs hok hstep ↦ hs.step hok hstep
  refine ⟨?_, ⟨hinv.once, hinv.taken⟩, fun _ _ ↦ hinv.lowest,
    fun k o ho ↦ ⟨(hinv.held k o ho).2, hinv.observed ho⟩, ?_, fun _ _ _ ↦ hinv.claimed⟩
  · intro n v hv htaken
    obtain ⟨i, hi, rfl⟩ := hinv.available n (List.getElem?_eq_some_iff.mp hv).1 htaken
    have hshown := hinv.shown i (.inl hi)
    exact ⟨i, hinv.lt_capacity (by rw [hi]; nofun), hi, Option.some.inj (hshown.symm.trans hv)⟩
  · intro action w' hok hstep k k' o ho ho'
    have hbefore := hinv.observed ho
    have hafter := (hinv.step hok hstep).observed ho'
    obtain ⟨later, hlater⟩ := step_stored hstep
    rw [← hlater, List.getElem?_append_left (List.getElem?_eq_some_iff.mp hbefore).1,
      hbefore] at hafter
    exact (Option.some.inj hafter).symm

/-- A destination of two small slots. -/
def twoSlots : Config where
  capacityRecords := 2
  maximumRecordBytes := 128

/-- A Record with the source `a`, `b` and the message `é`. -/
def accentRecord : PublishedRecord .blank where
  slot := {}
  limit := 128
  level := .info
  source := ⟨[0x61], [0x62], 7, 9⟩
  timestamp := 5
  calls := [.append (.text [0xC3, 0xA9])]
  started := _
  finished := _
  record := _
  begin_eq := rfl
  publish_eq := rfl

/-- Two Records are stored out of order. The slot of the lower sequence is reused for a third one
while the other Record waits. -/
theorem destination_lossless_taken : ∃ w, (machine twoSlots).Reach (Published twoSlots) w ∧
    (w.stored.map (·.admissionSequence) = [5, 3, 7] ∧ w.taken = [1, 0, 2] ∧
      (w.state.slots 1).generation = 2 ∧ ∀ v ∈ w.stored, v.message = [0xC3, 0xA9]) ∧
    Lossless twoSlots w := by
  obtain ⟨w, hrun, htest⟩ := (Option.any_eq_true (fun w : World ↦
    decide (w.stored.map (·.admissionSequence) = [5, 3, 7] ∧ w.taken = [1, 0, 2] ∧
      (w.state.slots 1).generation = 2 ∧ ∀ v ∈ w.stored, v.message = [0xC3, 0xA9]))
    ((machine twoSlots).run (fun _ _ ↦ True) (machine twoSlots).init
      [.waitForWrite 0, .waitForWrite 1, .copy 0 5 accentRecord.view, .copy 1 3 accentRecord.view,
        .commit 0, .commit 1, .tryTake 0, .release 0, .waitForWrite 0,
        .copy 0 7 accentRecord.view, .commit 0, .tryTake 0, .tryTake 1])).mp (by decide +kernel)
  have hw : (machine twoSlots).Reach (Published twoSlots) w := by
    refine Machine.Reach.init.of_run_of_forall (fun a ha w ↦ ?_) hrun
    cases a with
    | copy c n record =>
      refine ⟨_, accentRecord, le_rfl, ?_⟩
      simp only [List.mem_cons, Action.copy.injEq, reduceCtorEq, List.not_mem_nil, false_or,
        or_false] at ha
      rcases ha with ⟨-, -, hrecord⟩ | ⟨-, -, hrecord⟩ | ⟨-, -, hrecord⟩ <;> exact hrecord
    | _ => trivial
  exact ⟨w, hw, of_decide_eq_true htest, destination_lossless hw⟩

end Ulog.Destination
