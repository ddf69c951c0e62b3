import Mathlib.Data.Nat.ModEq
import Ulog.Credit.Ledger

/-!
# Steps on one slot of the ledger

Every step of the ledger works on one producer slot and on the centre. What it takes from one place
it puts into another: the cache and the mailbox of the slot, the centre, a register of the running
call, or a handle. Amounts are words, so a sum of places is kept modulo the word size, and kept
exactly as long as it is itself a word.
-/

namespace Ulog

/-! ## What each place holds -/

def CreditSlot.credit (c : CreditSlot) : ℕ := c.localCredit + c.returnedCredit

def ReservePc.register (chargeBytes : ℕ) : ReservePc → ℕ
  | .gather returned => returned
  | .refill deficit => deficit
  | .chargeLogical => chargeBytes
  | _ => 0

def ReconcilePc.register : ReconcilePc → ℕ
  | .gather returned => returned
  | _ => 0

/-- The charge of a live `Reservation` or `Ownership`. -/
def Handle.liveCharge : Handle → ℕ
  | .reservation _ _ charge => charge
  | .ownership _ _ charge => charge
  | _ => 0

/-- The credit in the registers of a call on a handle. -/
def Handle.register : Handle → ℕ
  | .committing _ _ _ retainedCharge => retainedCharge
  | .releasing _ charge => charge
  | _ => 0

def Handle.weight (h : Handle) : ℕ := h.liveCharge + h.register

/-- The bytes a handle contributes to the logical charge of slot `i`. -/
def Handle.logicalBytes (i : ℕ) : Handle → ℕ
  | .reservation producer requested _ => if producer = i then requested else 0
  | .ownership producer retained _ => if producer = i then retained else 0
  | .committing producer requested _ _ => if producer = i then requested else 0
  | _ => 0

/-- The slot that a handle belongs to. -/
def Handle.producer : Handle → ℕ
  | .reservation producer _ _ | .ownership producer _ _ | .committing producer _ _ _
  | .releasing producer _ => producer
  | .empty | .pending => 0

/-- The credit that a slot can get at: the centre, its cache and its mailbox. -/
def CreditLedger.available (l : CreditLedger) (producer : ℕ) : ℕ :=
  l.centralAvailable + (l.slots producer).credit

/-! ## Words -/

theorem wrapAdd_of_lt {a b : ℕ} (h : a + b < wordModulus) : wrapAdd a b = a + b :=
  Nat.mod_eq_of_lt h

theorem wrapSub_of_le {a b : ℕ} (hle : b ≤ a) (ha : a < wordModulus) : wrapSub a b = a - b := by
  rw [wrapSub, show a + (wordModulus - b) = a - b + wordModulus by omega, Nat.add_mod_right,
    Nat.mod_eq_of_lt (by omega)]

theorem wrapAdd_modEq (a b : ℕ) : wrapAdd a b ≡ a + b [MOD wordModulus] := Nat.mod_modEq _ _

theorem wrapSub_add_modEq {a b : ℕ} (hb : b ≤ wordModulus) :
    wrapSub a b + b ≡ a [MOD wordModulus] := by
  have h : wrapSub a b + b ≡ a + (wordModulus - b) + b [MOD wordModulus] :=
    (Nat.mod_modEq _ _).add_right b
  rw [show a + (wordModulus - b) + b = a + wordModulus by omega] at h
  exact h.trans (Nat.add_modEq_right)

theorem accountingCharge_bounds {bytes : ℕ} (h : accountingCharge bytes ≠ 0) :
    bytes ≤ accountingCharge bytes ∧ accountingQuantumBytes ≤ accountingCharge bytes := by
  have hq : accountingQuantumBytes = 64 := rfl
  rw [accountingCharge] at h ⊢
  simp only [hq] at h ⊢
  split at h
  · exact absurd rfl h
  · next hok =>
    rw [if_neg hok]
    omega

/-- The same amount of credit before and after, as far as words can tell. -/
structure Balanced (a b : ℕ) : Prop where
  modEq : b ≡ a [MOD wordModulus]
  eq : a < wordModulus → b = a

namespace Balanced

variable {a b c x : ℕ}

theorem of_eq (h : b = a) : Balanced a b := ⟨h ▸ rfl, fun _ ↦ h⟩

theorem trans (hab : Balanced a b) (hbc : Balanced b c) : Balanced a c := by
  refine ⟨hbc.modEq.trans hab.modEq, fun ha ↦ ?_⟩
  have hb := hab.eq ha
  rw [hbc.eq (hb.trans_lt ha), hb]

theorem add_right (h : Balanced a b) (x : ℕ) : Balanced (a + x) (b + x) := by
  refine ⟨h.modEq.add_right x, fun hlt ↦ ?_⟩
  rw [h.eq (by omega)]

theorem wrapAdd (x a b : ℕ) : Balanced (x + (a + b)) (x + wrapAdd a b) := by
  refine ⟨(wrapAdd_modEq a b).add_left x, fun hlt ↦ ?_⟩
  rw [wrapAdd_of_lt (by omega)]

theorem wrapSub (hle : b ≤ a) (hb : b ≤ wordModulus) :
    Balanced (x + a) (x + (wrapSub a b + b)) := by
  refine ⟨(wrapSub_add_modEq hb).add_left x, fun hlt ↦ ?_⟩
  rw [wrapSub_of_le hle (by omega)]
  omega

end Balanced

/-! ## Steps on a slot -/

/-- What a step of the thread of slot `producer` leaves alone. -/
structure SlotMove (producer : ℕ) (l l' : CreditLedger) : Prop where
  capacityBytes : l'.capacityBytes = l.capacityBytes
  producerCount : l'.producerCount = l.producerCount
  slots : ∀ i, i ≠ producer → l'.slots i = l.slots i

namespace CreditLedger

theorem slots_setSlot_self (l : CreditLedger) (producer : ℕ) (v : CreditSlot) :
    (l.setSlot producer v).slots producer = v := Function.update_self ..

theorem slots_setSlot_of_ne (l : CreditLedger) {producer i : ℕ} (h : i ≠ producer)
    (v : CreditSlot) : (l.setSlot producer v).slots i = l.slots i := Function.update_of_ne h ..

theorem available_setSlot (l : CreditLedger) (producer : ℕ) (v : CreditSlot) :
    (l.setSlot producer v).available producer = l.centralAvailable + v.credit :=
  congrArg (fun c ↦ l.centralAvailable + CreditSlot.credit c) (l.slots_setSlot_self producer v)

theorem slotMove_setSlot (l : CreditLedger) (producer : ℕ) (v : CreditSlot) :
    SlotMove producer l (l.setSlot producer v) :=
  ⟨rfl, rfl, fun _ hi ↦ l.slots_setSlot_of_ne hi v⟩

theorem slotMove_refl (l : CreditLedger) (producer : ℕ) : SlotMove producer l l :=
  ⟨rfl, rfl, fun _ _ ↦ rfl⟩

end CreditLedger

/-! ## Calls on handles -/

/-- A handle names a slot of the ledger and its sizes fit together. -/
def Handle.Ok (producers capacity : ℕ) : Handle → Prop
  | .empty | .pending => True
  | .reservation producer requested charge =>
    producer < producers ∧ charge = accountingCharge requested ∧ charge ≠ 0 ∧ charge ≤ capacity
  | .ownership producer retained charge =>
    producer < producers ∧ charge = accountingCharge retained ∧ charge ≠ 0 ∧ charge ≤ capacity
  | .committing producer requested retained retainedCharge =>
    producer < producers ∧ retained ≤ requested ∧ requested ≤ capacity ∧
      retainedCharge = accountingCharge retained ∧ retainedCharge ≠ 0 ∧ retainedCharge ≤ capacity
  | .releasing producer charge => producer < producers ∧ charge ≤ capacity

theorem Handle.logicalBytes_of_ne {h : Handle} {i : ℕ} (hi : i ≠ h.producer) :
    h.logicalBytes i = 0 := by
  cases h <;> first | rfl | exact if_neg (Ne.symm hi)

/-- What one step of a call on a handle does to the slot of the handle. -/
structure HandleStep (l : CreditLedger) (h : Handle) (l' : CreditLedger) (h' : Handle) : Prop
    extends SlotMove h.producer l l' where
  centralAvailable : l'.centralAvailable = l.centralAvailable
  localCredit : (l'.slots h.producer).localCredit = (l.slots h.producer).localCredit
  credit : Balanced ((l.slots h.producer).credit + h.weight)
    ((l'.slots h.producer).credit + h'.weight)
  logical : (l'.slots h.producer).logicalCharge + h.logicalBytes h.producer
    ≡ (l.slots h.producer).logicalCharge + h'.logicalBytes h.producer [MOD wordModulus]
  logical_lt : (l.slots h.producer).logicalCharge < wordModulus →
    (l'.slots h.producer).logicalCharge < wordModulus
  producer : h' = .empty ∨ h'.producer = h.producer
  ok : h'.Ok l'.producerCount l'.capacityBytes
  pending : h' = .pending ↔ h = .pending

namespace CreditLedger

variable {l : CreditLedger}

theorem handleStep_refl {h : Handle} (hok : h.Ok l.producerCount l.capacityBytes) :
    HandleStep l h l h :=
  ⟨slotMove_refl l _, rfl, rfl, .of_eq rfl, rfl, id, .inr rfl, hok, Iff.rfl⟩

/-- `fetch_sub` on the logical charge of a slot, together with the handle it belongs to. -/
theorem handleStep_subLogical {bytes : ℕ} {h h' : Handle} (hbytes : bytes < wordModulus)
    (hlogical : h.logicalBytes h.producer = h'.logicalBytes h.producer + bytes)
    (hweight : h'.weight = h.weight) (hproducer : h'.producer = h.producer)
    (hok : h'.Ok l.producerCount l.capacityBytes) (hpending : h' = .pending ↔ h = .pending) :
    HandleStep l h (l.subLogical h.producer bytes) h' := by
  have hself : (l.subLogical h.producer bytes).slots h.producer = _ := slots_setSlot_self ..
  refine ⟨slotMove_setSlot .., rfl, ?_, ?_, ?_, ?_, .inr hproducer, hok, hpending⟩ <;> rw [hself]
  · rfl
  · rw [hweight]
    exact .of_eq rfl
  · have hmod := (wrapSub_add_modEq (a := (l.slots h.producer).logicalCharge) hbytes.le).add_right
      (h'.logicalBytes h.producer)
    rw [hlogical]
    rwa [Nat.add_assoc, Nat.add_comm bytes] at hmod
  · exact fun _ ↦ Nat.mod_lt _ (by decide)

theorem handleStep_returnToMailbox {bytes : ℕ} {h h' : Handle}
    (hlogical : h.logicalBytes h.producer = h'.logicalBytes h.producer)
    (hweight : h.weight = h'.weight + bytes) (hproducer : h' = .empty ∨ h'.producer = h.producer)
    (hok : h'.Ok l.producerCount l.capacityBytes) (hpending : h' = .pending ↔ h = .pending) :
    HandleStep l h (l.returnToMailbox h.producer bytes) h' := by
  rw [returnToMailbox]
  split
  · next hzero =>
    refine ⟨slotMove_refl l _, rfl, rfl, .of_eq (by omega), by rw [hlogical], id, hproducer, hok,
      hpending⟩
  · have hself := l.slots_setSlot_self h.producer ((l.slots h.producer).setReturned
      (wrapAdd (l.slots h.producer).returnedCredit bytes))
    refine ⟨slotMove_setSlot .., rfl, ?_, ?_, ?_, ?_, hproducer, hok, hpending⟩ <;> rw [hself]
    · rfl
    · have hadd := Balanced.wrapAdd ((l.slots h.producer).localCredit + h'.weight)
        (l.slots h.producer).returnedCredit bytes
      rw [hweight]
      simp only [CreditSlot.credit, CreditSlot.setReturned]
      convert hadd using 1 <;> omega
    · rw [hlogical]
      rfl
    · exact id

section Calls

variable {h : Handle} (hcapacity : l.capacityBytes < wordModulus)
  (hok : h.Ok l.producerCount l.capacityBytes)

include hcapacity hok

theorem handleStep_startRelease :
    HandleStep l h (l.startRelease h).1 (l.startRelease h).2 := by
  cases h with
  | reservation producer requested charge | ownership producer requested charge =>
    obtain ⟨hp, hcharge, hne, hle⟩ := hok
    have hbound := accountingCharge_bounds (hcharge ▸ hne)
    simp only [startRelease]
    refine handleStep_subLogical (by omega) ?_ ?_ rfl ⟨hp, hle⟩ (by simp)
    · exact (if_pos rfl).trans (Nat.zero_add _).symm
    · exact Nat.add_comm ..
  | empty | pending | committing | releasing => exact handleStep_refl hok

theorem handleStep_startCommit (retained : ℕ) :
    HandleStep l h (l.startCommit retained h).1 (l.startCommit retained h).2 := by
  cases h with
  | reservation producer requested charge =>
    simp only [startCommit]
    split
    · exact handleStep_startRelease hcapacity hok
    · next hfits =>
      push Not at hfits
      obtain ⟨hretained, hne, hle⟩ := hfits
      obtain ⟨hp, hcharge, hne', hle'⟩ := hok
      have hbound := accountingCharge_bounds (hcharge ▸ hne')
      refine handleStep_returnToMailbox rfl ?_ (.inr rfl) ?_ (by simp)
      · simp only [Handle.weight, Handle.liveCharge, Handle.register]
        omega
      · exact ⟨hp, hretained, by omega, rfl, hne, by omega⟩
  | empty | pending | ownership | committing | releasing => exact handleStep_refl hok

theorem handleStep_finishHandle :
    HandleStep l h (l.finishHandle h).1 (l.finishHandle h).2 := by
  cases h with
  | committing producer requested retained retainedCharge =>
    obtain ⟨hp, hretained, hrequested, hcharge, hne, hle⟩ := hok
    simp only [finishHandle]
    refine handleStep_subLogical (by omega) ?_ (Nat.add_comm ..) rfl ⟨hp, hcharge, hne, hle⟩
      (by simp)
    simp only [Handle.logicalBytes, Handle.producer, if_true]
    omega
  | releasing producer charge =>
    simp only [finishHandle]
    exact handleStep_returnToMailbox rfl (Nat.zero_add _ |>.trans (Nat.zero_add _).symm) (.inl rfl)
      trivial (by simp)
  | empty | pending | reservation | ownership => exact handleStep_refl hok

end Calls

end CreditLedger

/-! ## Calls of a slot's thread -/

/-- What the program counter knows about the cache of the slot. -/
def ReservePc.Ok (localCredit chargeBytes : ℕ) : ReservePc → Prop
  | .loadCentral deficit => localCredit + deficit = chargeBytes
  | .compareExchange deficit available =>
    localCredit + deficit = chargeBytes ∧ deficit ≤ available
  | .refill deficit => localCredit + deficit = chargeBytes
  | .takeLocal => chargeBytes ≤ localCredit
  | _ => True

/-- The credit that a `TryReserve` call holds after a step. -/
def ReserveResult.register (chargeBytes : ℕ) : ReserveResult → ℕ
  | .running call => call.pc.register chargeBytes
  | .refused => 0
  | .reserved => chargeBytes

/-- What one step of `TryReserve` does to its slot. -/
structure ReserveStep (l : CreditLedger) (c : ReserveCall) (l' : CreditLedger)
    (r : ReserveResult) : Prop extends SlotMove c.producer l l' where
  credit : Balanced (l.available c.producer + c.pc.register c.chargeBytes)
    (l'.available c.producer + r.register c.chargeBytes)
  running : ∀ c', r = .running c' →
    c' = { c with pc := c'.pc } ∧ c'.pc.Ok (l'.slots c.producer).localCredit c.chargeBytes
  logical : (l'.slots c.producer).logicalCharge =
    if r = .reserved then wrapAdd (l.slots c.producer).logicalCharge c.worstCaseBytes
    else (l.slots c.producer).logicalCharge

namespace CreditLedger

variable {l : CreditLedger} {c : ReserveCall}

theorem reserveStep_of_eq {r : ReserveResult} (hreg : r.register c.chargeBytes
      = c.pc.register c.chargeBytes) (hr : r ≠ .reserved)
    (hrunning : ∀ c', r = .running c' → c' = { c with pc := c'.pc } ∧
      c'.pc.Ok (l.slots c.producer).localCredit c.chargeBytes) : ReserveStep l c l r :=
  ⟨slotMove_refl l _, .of_eq (by rw [hreg]), hrunning, by rw [if_neg hr]⟩

theorem reserveStep_of_setSlot (v : CreditSlot) (pc' : ReservePc)
    (hcredit : Balanced (l.available c.producer + c.pc.register c.chargeBytes)
      (l.centralAvailable + v.credit + pc'.register c.chargeBytes))
    (hlogical : v.logicalCharge = (l.slots c.producer).logicalCharge)
    (hpc' : pc'.Ok v.localCredit c.chargeBytes) :
    ReserveStep l c (l.setSlot c.producer v) (.running { c with pc := pc' }) := by
  refine ⟨slotMove_setSlot .., ?_, ?_, ?_⟩
  · rw [available_setSlot]
    exact hcredit
  · rintro c' ⟨⟩
    rw [slots_setSlot_self]
    exact ⟨rfl, hpc'⟩
  · rw [slots_setSlot_self, if_neg nofun, hlogical]

theorem reserveStep_spec (hpc : c.pc.Ok (l.slots c.producer).localCredit c.chargeBytes)
    (hcharge : c.chargeBytes < wordModulus) (spurious : Bool) :
    ReserveStep l c (l.reserveStep c spurious).1 (l.reserveStep c spurious).2 := by
  obtain ⟨producer, worst, charge, pc⟩ := c
  dsimp only at hpc hcharge
  have havailable : l.available producer = l.centralAvailable +
    ((l.slots producer).localCredit + (l.slots producer).returnedCredit) := rfl
  cases pc with
  | drain =>
    refine reserveStep_of_setSlot _ _ (.of_eq ?_) rfl trivial
    dsimp only [CreditSlot.credit, CreditSlot.setReturned, ReservePc.register]
    omega
  | gather returned =>
    have hadd := Balanced.wrapAdd (l.centralAvailable + (l.slots producer).returnedCredit)
      (l.slots producer).localCredit returned
    simp only [reserveStep, addLocal, slots_setSlot_self, CreditSlot.setLocal]
    refine reserveStep_of_setSlot (c := ⟨producer, worst, charge, .gather returned⟩) _ _ ?_ rfl ?_
    · have hreg : ∀ (p : Prop) [Decidable p] (d : ℕ),
          (if p then ReservePc.loadCentral d else .takeLocal).register charge = 0 := by
        intro p _ d
        split <;> rfl
      rw [hreg]
      dsimp only [CreditSlot.credit, ReservePc.register]
      convert hadd using 1 <;> omega
    · split <;> simp only [ReservePc.Ok] <;> omega
  | loadCentral deficit =>
    simp only [reserveStep]
    split
    · next hle =>
      refine reserveStep_of_eq rfl (by simp) ?_
      rintro c' ⟨⟩
      exact ⟨rfl, hpc, hle⟩
    · exact reserveStep_of_eq rfl (by simp) (by simp)
  | compareExchange deficit expected =>
    obtain ⟨hlocal, hle⟩ := hpc
    simp only [reserveStep]
    split
    · next heq =>
      have hsub := Balanced.wrapSub (x := (l.slots producer).credit) hle (by omega)
      refine ⟨⟨rfl, rfl, fun _ _ ↦ rfl⟩, ?_, ?_, rfl⟩
      · simp only [ReserveResult.register, ReservePc.register, available, heq.1]
        convert hsub using 1 <;> omega
      · rintro c' ⟨⟩
        exact ⟨rfl, hlocal⟩
    · split
      · next hle =>
        refine reserveStep_of_eq rfl (by simp) ?_
        rintro c' ⟨⟩
        exact ⟨rfl, hlocal, hle⟩
      · exact reserveStep_of_eq rfl (by simp) (by simp)
  | refill deficit =>
    have hlocal : (l.slots producer).localCredit + deficit = charge := hpc
    have hadd := Balanced.wrapAdd (l.centralAvailable + (l.slots producer).returnedCredit)
      (l.slots producer).localCredit deficit
    refine reserveStep_of_setSlot _ _ ?_ rfl ?_
    · dsimp only [CreditSlot.credit, CreditSlot.setLocal, ReservePc.register]
      convert hadd using 1 <;> omega
    · dsimp only [CreditSlot.setLocal, ReservePc.Ok]
      rw [wrapAdd_of_lt (by omega), hlocal]
  | takeLocal =>
    have hsub := Balanced.wrapSub
      (x := l.centralAvailable + (l.slots producer).returnedCredit) hpc hcharge.le
    refine reserveStep_of_setSlot _ _ ?_ rfl trivial
    dsimp only [CreditSlot.credit, CreditSlot.setLocal, ReservePc.register]
    convert hsub using 1 <;> omega
  | chargeLogical =>
    simp only [reserveStep, addLogical]
    refine ⟨slotMove_setSlot .., ?_, nofun, ?_⟩
    · rw [available_setSlot]
      exact .of_eq rfl
    · rw [slots_setSlot_self]
      rfl

end CreditLedger

/-- What one step of `TryReconcileProducer` does to its slot. -/
structure ReconcileStep (producer : ℕ) (l : CreditLedger) (pc : ReconcilePc) (l' : CreditLedger)
    (r : ReconcilePc ⊕ Bool) : Prop extends SlotMove producer l l' where
  credit : Balanced (l.available producer + pc.register)
    (l'.available producer + r.elim ReconcilePc.register (fun _ ↦ 0))
  logical : (l'.slots producer).logicalCharge = (l.slots producer).logicalCharge

theorem CreditLedger.reconcileStep_spec (l : CreditLedger) (producer : ℕ) (pc : ReconcilePc) :
    ReconcileStep producer l pc (l.reconcileStep producer pc).1
      (l.reconcileStep producer pc).2 := by
  have havailable : l.available producer = l.centralAvailable +
    ((l.slots producer).localCredit + (l.slots producer).returnedCredit) := rfl
  cases pc with
  | loadLogical =>
    rw [reconcileStep]
    split <;> exact ⟨slotMove_refl l _, .of_eq rfl, rfl⟩
  | drain =>
    simp only [reconcileStep, drainMailbox]
    refine ⟨slotMove_setSlot .., .of_eq ?_, ?_⟩
    · rw [available_setSlot]
      dsimp only [Sum.elim_inl, ReconcilePc.register, CreditSlot.credit, CreditSlot.setReturned]
      omega
    · rw [slots_setSlot_self]
      rfl
  | gather returned =>
    have hadd := Balanced.wrapAdd (l.centralAvailable + (l.slots producer).returnedCredit)
      (l.slots producer).localCredit returned
    simp only [reconcileStep, addLocal]
    refine ⟨slotMove_setSlot .., ?_, ?_⟩
    · rw [available_setSlot]
      dsimp only [Sum.elim_inl, ReconcilePc.register, CreditSlot.credit, CreditSlot.setLocal]
      convert hadd using 1 <;> omega
    · rw [slots_setSlot_self]
      rfl
  | giveBack =>
    simp only [reconcileStep]
    split
    · exact ⟨slotMove_refl l _, .of_eq rfl, rfl⟩
    · have hadd := Balanced.wrapAdd (l.slots producer).returnedCredit l.centralAvailable
        (l.slots producer).localCredit
      have hself := l.slots_setSlot_self producer ((l.slots producer).setLocal 0)
      refine ⟨⟨rfl, rfl, fun i hi ↦ l.slots_setSlot_of_ne hi _⟩, ?_, ?_⟩
      · simp only [available, hself]
        dsimp only [Sum.elim_inr, ReconcilePc.register, CreditSlot.credit, CreditSlot.setLocal]
        convert hadd using 1 <;> omega
      · exact (congrArg CreditSlot.logicalCharge hself).trans rfl

end Ulog
