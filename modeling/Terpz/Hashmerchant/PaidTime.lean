import Terpz.Lib.Run
import Terpz.Hashmerchant.Tally
import Terpz.Hashmerchant.Keeper.Genesis

/-! The time that escrow buys: exact as long as the divisor, the products and the sums stay within
their bounds and no registration replaces a record that is paid for longer. -/
namespace Terpz.Hashmerchant
open Lib

/-- A failure that is a panic. -/
def Panics {α : Type} (x : Except Err α) : Prop := ∃ e, x = .error e ∧ e.kind = .panicked

section Panics
variable {α β : Type}

theorem not_panics_ok (a : α) : ¬ Panics (.ok a) := by
  rintro ⟨e, he, -⟩
  cases he

theorem panics_bind {x : Except Err α} {f : α → Except Err β} :
    Panics (x >>= f) ↔ Panics x ∨ ∃ a, x = .ok a ∧ Panics (f a) := by
  cases x with
  | error e =>
    change Panics (.error e : Except Err β) ↔ _
    simp [Panics]
  | ok a =>
    change Panics (f a) ↔ _
    simp [not_panics_ok]

theorem panics_failIf {c : Prop} [Decidable c] {e : Err} : Panics (failIf c e) ↔ c ∧ e.kind = .panicked := by
  unfold failIf
  split
  · next hc => simp [Panics, hc]
  · next hc => simp [hc, not_panics_ok]

end Panics

/-- The blocks an amount buys: one interval for each whole minimum. -/
def blocksBought (p : Params) (amount : Int) : Int := amount / p.minEscrowAmount * p.pruneInterval.toNat

/-- The contract has a record, paid to `start` and the blocks bought after it. -/
def PaidTo (s' : State) (addr : Text) (start : UInt64) (bought : Int) : Prop :=
  ∃ r', s'.escrows[addr]? = some r' ∧ (r'.paidUntilHeight.toNat : Int) = start.toNat + bought

/-- A message that buys time buys exactly what its amount pays for. -/
def BuysExactly (height : UInt64) (s s' : State) : Msg → Prop
  | .registerContract m => PaidTo s' m.contractAddr height (blocksBought s.getParams m.escrow.amount)
  | .refillEscrow m => ∃ r, s.escrows[m.contractAddr]? = some r ∧
      PaidTo s' m.contractAddr r.paidUntilHeight (blocksBought s.getParams m.amount.amount)
  | _ => True

/-- No record is lost or paid for less. -/
def KeepsPaid (s s' : State) : Prop :=
  ∀ (addr : Text) (r : EscrowRecord), s.escrows[addr]? = some r →
    ∃ r', s'.escrows[addr]? = some r' ∧ r.paidUntilHeight ≤ r'.paidUntilHeight

/-- The minimum is not zero, and the time bought ends at a height of 64 bits. -/
def Buyable (p : Params) (start : UInt64) (amount : Int) : Prop :=
  p.minEscrowAmount ≠ 0 ∧ start.toNat + blocksBought p amount < 2 ^ 64

/-- The height that an amount extends a paid height to, in words. -/
def extended (p : Params) (start : UInt64) (amount : Int) : UInt64 :=
  start + UInt64.ofNat (amount / p.minEscrowAmount).toNat * p.pruneInterval

/-- The registration is for an enabled chain, in the right denomination and for the minimum or more. -/
def Admits (s : State) (m : MsgRegisterContract) : Prop :=
  s.chains[m.chainUid]?.map RegisteredChain.enabled = some true ∧ m.escrow.denom = s.getParams.escrowDenom ∧
    s.getParams.minEscrowAmount ≤ m.escrow.amount

/-- Valid parameters, and records under their contract. -/
structure State.Ledger (s : State) : Prop where
  params : s.getParams.validate = .ok ()
  keyed : Table.Keyed EscrowRecord.contractAddr s.escrows

namespace Keeper
variable (k : Keeper)

/-- What a message does to paid time, whoever sends it. -/
structure PaidExactly (s : State) (d : Delivery) : Prop where
  noPanic : ¬ Panics (k.process s d)
  bought : ∀ s', k.process s d = .ok s' → BuysExactly d.height s s' d.msg
  kept : KeepsPaid s (k.deliver s d)

/-- The bank makes the transfer of a coin it can read. -/
def Pays (s : State) (sender : Text) (c : Coin) : Prop :=
  c.amount ≤ s.balances (k.senderAddress sender) c.denom ∧ k.sendRefused s (k.senderAddress sender) c = false

/-- If a registration is admitted: the denomination is one the bank reads, and once paid the amount buys
time within bounds, and no less than is already paid for. -/
def RegisterBounds (height : UInt64) (s : State) (m : MsgRegisterContract) : Prop :=
  Admits s m → k.validDenom m.escrow.denom = true ∧ (k.Pays s m.sender m.escrow →
    Buyable s.getParams height m.escrow.amount ∧ ∀ r, s.escrows[m.contractAddr]? = some r →
      r.paidUntilHeight.toNat ≤ height.toNat + blocksBought s.getParams m.escrow.amount)

/-- If a refill is for a record: the denomination is one the bank reads, and once paid the amount buys
time within bounds and can be added to the recorded coin. -/
def RefillBounds (s : State) (m : MsgRefillEscrow) : Prop :=
  ∀ r, s.escrows[m.contractAddr]? = some r → m.amount.denom = s.getParams.escrowDenom →
    k.validDenom m.amount.denom = true ∧ (k.Pays s m.sender m.amount →
      Buyable s.getParams r.paidUntilHeight m.amount.amount ∧ r.amount.denom = m.amount.denom ∧
        (r.amount.amount + m.amount.amount).natAbs < 2 ^ 256)

def WithinBounds (height : UInt64) (s : State) : Msg → Prop
  | .registerContract m => k.RegisterBounds height s m
  | .refillEscrow m => k.RefillBounds s m
  | _ => True

/-- Exactness at every message that passes `ValidateBasic`. -/
def ExactAt (s : State) : k.Operation → Prop
  | .message d => k.validateBasic d.msg = .ok () → k.PaidExactly s d
  | _ => True

/-- Bounds at every message that passes `ValidateBasic`. -/
def BoundedAt (s : State) : k.Operation → Prop
  | .message d => k.validateBasic d.msg = .ok () → k.WithinBounds d.height s d.msg
  | _ => True

/-- A contract reaches the module by messages only, so a callback keeps parameters valid and records
under their contract. -/
def SudoKeepsLedger : Prop := ∀ s a p, s.Ledger → (k.wasmSudo s a p).Ledger

end Keeper

section Arithmetic
variable {p : Params}

theorem panics_quoUint64 {a b : Int} (ha : 0 ≤ a) (hb : 0 ≤ b) :
    Panics (quoUint64 a b) ↔ b = 0 ∨ 2 ^ 64 ≤ a / b := by
  simp only [quoUint64, panics_bind, panics_failIf, not_panics_ok, failIf_eq_ok, and_true, exists_const, and_false,
    or_false, Int.tdiv_eq_ediv_of_nonneg ha, not_lt.mpr (Int.ediv_nonneg ha hb), false_or]
  constructor
  · rintro (h | h)
    · exact .inl h
    · exact .inr h.2
  · rintro (h | h)
    · exact .inl h
    · by_cases hz : b = 0
      · exact .inl hz
      · exact .inr ⟨hz, h⟩

theorem quoUint64_eq_ok {a b : Int} (ha : 0 ≤ a) (hb : 0 ≤ b) {u : UInt64} :
    quoUint64 a b = .ok u ↔ b ≠ 0 ∧ a / b < 2 ^ 64 ∧ u = UInt64.ofNat (a / b).toNat := by
  simp only [quoUint64, failIf_bind_eq_ok, Int.tdiv_eq_ediv_of_nonneg ha, not_or, not_lt, not_le,
    Int.ediv_nonneg ha hb, true_and, Except.ok.injEq, eq_comm (a := u), ne_eq]

variable {start : UInt64} {amount : Int}

/-- Time within bounds takes no more periods than 64 bits hold. -/
theorem Buyable.periods (hp : p.validate = .ok ()) (ha : 0 ≤ amount) (h : Buyable p start amount) :
    amount / p.minEscrowAmount < 2 ^ 64 := by
  obtain ⟨-, hinterval, -, hmin⟩ := Params.validate_eq_ok.mp hp
  have hone : 1 ≤ (p.pruneInterval.toNat : Int) := by
    have : p.pruneInterval.toNat ≠ 0 := fun hz => hinterval (UInt64.toNat_inj.mp hz)
    omega
  have hle := le_mul_of_one_le_right (Int.ediv_nonneg ha hmin) hone
  have hfits := h.2
  unfold blocksBought at hfits
  omega

/-- Within bounds the sum of words is the sum of numbers. -/
theorem Buyable.toNat_extended (hp : p.validate = .ok ()) (ha : 0 ≤ amount) (h : Buyable p start amount) :
    ((extended p start amount).toNat : Int) = start.toNat + blocksBought p amount := by
  have hperiods := h.periods hp ha
  have hfits := h.2
  have hq : 0 ≤ amount / p.minEscrowAmount := Int.ediv_nonneg ha (Params.validate_eq_ok.mp hp).2.2.2
  unfold blocksBought at hfits
  unfold extended blocksBought
  obtain ⟨q, hq⟩ := Int.eq_ofNat_of_zero_le hq
  rw [hq] at hperiods hfits ⊢
  rw [Int.toNat_natCast, UInt64.toNat_add, UInt64.toNat_mul, UInt64.toNat_ofNat',
    Nat.mod_eq_of_lt (show q < 2 ^ 64 by omega)]
  have hnat : start.toNat + q * p.pruneInterval.toNat < 2 ^ 64 := by exact_mod_cast hfits
  rw [Nat.mod_eq_of_lt (show q * p.pruneInterval.toNat < 2 ^ 64 by omega), Nat.mod_eq_of_lt hnat]
  push_cast
  rfl

end Arithmetic

namespace Keeper
variable {k : Keeper} {height : UInt64} {s s' : State}

section Send
variable {sender : Bytes} {c : Coin}

theorem panics_sendCoins (hc : 0 < c.amount) :
    Panics (k.sendCoinsFromAccountToModule s sender c) ↔ k.validDenom c.denom = false := by
  simp only [sendCoinsFromAccountToModule, panics_bind, panics_failIf, failIf_eq_ok, hc.ne', if_false, not_panics_ok,
    not_lt.mpr hc.le, ne_eq, not_false_eq_true, true_and, false_or, and_true, and_false, exists_const, or_false,
    reduceCtorEq]

theorem sendCoins_eq_ok (hc : 0 < c.amount) : k.sendCoinsFromAccountToModule s sender c = .ok s' ↔
    k.validDenom c.denom = true ∧ (c.amount ≤ s.balances sender c.denom ∧ k.sendRefused s sender c = false) ∧
      s' = s.transfer sender k.moduleAddress c := by
  simp only [sendCoinsFromAccountToModule, failIf_bind_eq_ok, hc.ne', if_false, not_lt.mpr hc.le, ne_eq,
    not_false_eq_true, true_and, false_or, not_or, not_lt, Bool.not_eq_false, Bool.not_eq_true, Except.ok.injEq,
    eq_comm (a := s')]

end Send

theorem not_panics_getRegisteredChain (uid : Text) : ¬ Panics (s.getRegisteredChain uid) := by
  unfold State.getRegisteredChain
  split <;> simp [Panics]

theorem not_panics_getEscrowRecord (addr : Text) : ¬ Panics (s.getEscrowRecord addr) := by
  unfold State.getEscrowRecord
  split <;> simp [Panics]

def registeredRecord (height : UInt64) (s : State) (m : MsgRegisterContract) : EscrowRecord :=
  ⟨m.contractAddr, m.escrow, extended s.getParams height m.escrow.amount, 0⟩

def refilledRecord (s : State) (m : MsgRefillEscrow) (r : EscrowRecord) : EscrowRecord :=
  { r with
    paidUntilHeight := extended s.getParams r.paidUntilHeight m.amount.amount
    amount := ⟨r.amount.denom, r.amount.amount + m.amount.amount⟩ }

/-- The state after an accepted registration. -/
def registered (k : Keeper) (height : UInt64) (s : State) (m : MsgRegisterContract) : State :=
  (s.transfer (k.senderAddress m.sender) k.moduleAddress m.escrow
    |>.setRegisteredContract ⟨m.contractAddr, m.chainUid, m.substoreKeys, true⟩).setEscrowRecord
      (registeredRecord height s m)

/-- The state after an accepted refill. -/
def refilled (k : Keeper) (s : State) (m : MsgRefillEscrow) (r : EscrowRecord) : State :=
  (s.transfer (k.senderAddress m.sender) k.moduleAddress m.amount).setEscrowRecord (refilledRecord s m r)

section Outcomes

theorem panics_coinAdd {a b : Coin} :
    Panics (a.add b) ↔ ¬ (a.denom = b.denom ∧ (a.amount + b.amount).natAbs < 2 ^ 256) := by
  simp only [Coin.add, intAdd, panics_bind, panics_failIf, failIf_eq_ok, not_panics_ok, and_true, and_false, or_false,
    exists_const, not_not, ne_eq]
  by_cases hd : a.denom = b.denom <;> simp [hd]

theorem coinAdd_eq_ok {a b c : Coin} : a.add b = .ok c ↔
    (a.denom = b.denom ∧ (a.amount + b.amount).natAbs < 2 ^ 256) ∧ c = ⟨a.denom, a.amount + b.amount⟩ := by
  simp only [Coin.add, intAdd, bind_eq_ok, failIf_eq_ok, exists_const, Except.ok.injEq, not_not, not_le, ne_eq,
    and_assoc, exists_and_left, exists_eq_left', eq_comm (a := c)]

variable (hp : s.getParams.validate = .ok ())
include hp

theorem registerContract_panics {m : MsgRegisterContract} (hm : 0 < m.escrow.amount) :
    Panics (k.registerContract height s m) ↔ Admits s m ∧
      (k.validDenom m.escrow.denom = false ∨ k.validDenom m.escrow.denom = true ∧ k.Pays s m.sender m.escrow ∧
        (s.getParams.minEscrowAmount = 0 ∨ 2 ^ 64 ≤ m.escrow.amount / s.getParams.minEscrowAmount)) := by
  have hmin := (Params.validate_eq_ok.mp hp).2.2.2
  simp only [registerContract, checkDenom, panics_bind, panics_failIf, not_panics_getRegisteredChain,
    State.getRegisteredChain_eq_ok, failIf_eq_ok, panics_sendCoins hm, sendCoins_eq_ok hm, panics_quoUint64 hm.le hmin,
    not_panics_ok, reduceCtorEq, and_false, exists_const, false_or, or_false, Admits, Pays, Option.map_eq_some_iff,
    Bool.not_eq_false, not_not, not_lt, ne_eq, and_assoc, exists_and_left, exists_eq_left]
  simp only [← and_assoc, exists_and_right]

theorem registerContract_eq_ok {m : MsgRegisterContract} (hm : 0 < m.escrow.amount) :
    k.registerContract height s m = .ok s' ↔ Admits s m ∧ k.validDenom m.escrow.denom = true ∧
      k.Pays s m.sender m.escrow ∧ (s.getParams.minEscrowAmount ≠ 0 ∧
        m.escrow.amount / s.getParams.minEscrowAmount < 2 ^ 64) ∧ s' = k.registered height s m := by
  have hmin := (Params.validate_eq_ok.mp hp).2.2.2
  simp only [registerContract, checkDenom, bind_eq_ok, State.getRegisteredChain_eq_ok, failIf_eq_ok, sendCoins_eq_ok hm,
    quoUint64_eq_ok hm.le hmin, exists_const, Admits, Pays, Option.map_eq_some_iff,
    Bool.not_eq_false, not_not, not_lt, ne_eq, and_assoc, exists_and_left, exists_eq_left, Except.ok.injEq, registered,
    registeredRecord, extended, eq_comm (a := s')]
  simp only [← and_assoc, exists_and_right]

theorem refillEscrow_panics {m : MsgRefillEscrow} (hm : 0 < m.amount.amount) :
    Panics (k.refillEscrow s m) ↔ ∃ r, s.escrows[m.contractAddr]? = some r ∧
      m.amount.denom = s.getParams.escrowDenom ∧
      (k.validDenom m.amount.denom = false ∨ k.validDenom m.amount.denom = true ∧ k.Pays s m.sender m.amount ∧
        ((s.getParams.minEscrowAmount = 0 ∨ 2 ^ 64 ≤ m.amount.amount / s.getParams.minEscrowAmount) ∨
          (s.getParams.minEscrowAmount ≠ 0 ∧ m.amount.amount / s.getParams.minEscrowAmount < 2 ^ 64) ∧
            ¬ (r.amount.denom = m.amount.denom ∧ (r.amount.amount + m.amount.amount).natAbs < 2 ^ 256))) := by
  have hmin := (Params.validate_eq_ok.mp hp).2.2.2
  simp only [refillEscrow, checkDenom, panics_coinAdd, panics_bind, panics_failIf, not_panics_getEscrowRecord,
    State.getEscrowRecord_eq_ok, failIf_eq_ok, panics_sendCoins hm, sendCoins_eq_ok hm, panics_quoUint64 hm.le hmin,
    quoUint64_eq_ok hm.le hmin, not_panics_ok, reduceCtorEq, and_false, exists_const, false_or, or_false, Pays,
    not_not, ne_eq, and_assoc, exists_and_left, exists_eq_left, exists_false]

theorem refillEscrow_eq_ok {m : MsgRefillEscrow} (hm : 0 < m.amount.amount) :
    k.refillEscrow s m = .ok s' ↔ ∃ r, s.escrows[m.contractAddr]? = some r ∧
      m.amount.denom = s.getParams.escrowDenom ∧ k.validDenom m.amount.denom = true ∧ k.Pays s m.sender m.amount ∧
      (s.getParams.minEscrowAmount ≠ 0 ∧ m.amount.amount / s.getParams.minEscrowAmount < 2 ^ 64) ∧
      (r.amount.denom = m.amount.denom ∧ (r.amount.amount + m.amount.amount).natAbs < 2 ^ 256) ∧
      s' = k.refilled s m r := by
  have hmin := (Params.validate_eq_ok.mp hp).2.2.2
  simp only [refillEscrow, checkDenom, coinAdd_eq_ok, bind_eq_ok, State.getEscrowRecord_eq_ok, failIf_eq_ok,
    sendCoins_eq_ok hm, quoUint64_eq_ok hm.le hmin, exists_const, Pays, not_not, ne_eq, and_assoc, exists_and_left,
    exists_eq_left, Except.ok.injEq, refilled, refilledRecord, extended, eq_comm (a := s')]

end Outcomes

section Step

/-- A record written for no less than before keeps what is paid. -/
private theorem keepsPaid_insert (r' : EscrowRecord) (h : s'.escrows = s.escrows.insert r'.contractAddr r')
    (hle : ∀ r, s.escrows[r'.contractAddr]? = some r → r.paidUntilHeight ≤ r'.paidUntilHeight) : KeepsPaid s s' := by
  intro addr r hr
  rw [h, Table.getElem?_insert]
  by_cases haddr : r'.contractAddr = addr
  · subst haddr
    rw [if_pos rfl]
    exact ⟨r', rfl, hle r hr⟩
  · rw [if_neg haddr]
    exact ⟨r, hr, UInt64.le_refl _⟩

/-- A message that is refused keeps what is paid. -/
private theorem keepsPaid_deliver {d : Delivery} (h : ∀ s', k.process s d = .ok s' → KeepsPaid s s') :
    KeepsPaid s (k.deliver s d) := by
  cases hp : k.process s d with
  | error e =>
    rw [deliver, hp]
    exact fun addr r hr => ⟨r, hr, UInt64.le_refl _⟩
  | ok s' =>
    rw [deliver_of_process hp]
    exact h s' hp

/-- The record that was written is the one found under its contract. -/
private theorem find_setEscrowRecord (t : State) (r : EscrowRecord) :
    (t.setEscrowRecord r).escrows[r.contractAddr]? = some r := by
  rw [State.setEscrowRecord, Table.getElem?_insert, if_pos rfl]

private theorem basic_register {m : MsgRegisterContract} (h : k.validateBasic (.registerContract m) = .ok ()) :
    0 < m.escrow.amount := by
  simp only [validateBasic, checkAddress, failIf_bind_eq_ok, failIf_eq_ok, not_le] at h
  exact h.2.2.2

private theorem basic_refill {m : MsgRefillEscrow} (h : k.validateBasic (.refillEscrow m) = .ok ()) :
    0 < m.amount.amount := by
  simp only [validateBasic, checkAddress, failIf_bind_eq_ok, failIf_eq_ok, not_le] at h
  exact h.2.2

private theorem register_exact_iff (hs : s.Ledger) {basic : Bool} {m : MsgRegisterContract}
    (hbasic : k.validateBasic (.registerContract m) = .ok ()) :
    k.PaidExactly s ⟨height, basic, .registerContract m⟩ ↔ k.RegisterBounds height s m := by
  have hm := basic_register hbasic
  have hprocess : k.process s ⟨height, basic, .registerContract m⟩ = k.registerContract height s m :=
    process_of_basic hbasic
  constructor
  · rintro ⟨hpanic, hbought, hkept⟩ hadm
    rw [hprocess, registerContract_panics hs.params hm] at hpanic
    have hdenom : k.validDenom m.escrow.denom = true := by
      by_contra hbad
      exact hpanic ⟨hadm, .inl (Bool.not_eq_true _ ▸ hbad)⟩
    refine ⟨hdenom, fun hpays => ?_⟩
    have harith : ¬ (s.getParams.minEscrowAmount = 0 ∨ 2 ^ 64 ≤ m.escrow.amount / s.getParams.minEscrowAmount) :=
      fun hbad => hpanic ⟨hadm, .inr ⟨hdenom, hpays, hbad⟩⟩
    rw [not_or, not_le] at harith
    have hok := hprocess.trans ((registerContract_eq_ok hs.params hm).mpr ⟨hadm, hdenom, hpays, harith, rfl⟩)
    obtain ⟨r', hr', hpaid⟩ := hbought _ hok
    change (r'.paidUntilHeight.toNat : Int) = height.toNat + _ at hpaid
    have hlt := r'.paidUntilHeight.toNat_lt
    refine ⟨⟨harith.1, by omega⟩, fun r hr => ?_⟩
    obtain ⟨r'', hr'', hle⟩ := hkept m.contractAddr r hr
    rw [deliver_of_process hok, hr'] at hr''
    cases hr''
    have := UInt64.le_iff_toNat_le.mp hle
    omega
  · intro h
    have haccepted {s' : State} (hok : k.process s ⟨height, basic, .registerContract m⟩ = .ok s') :
        s' = k.registered height s m ∧
          ((registeredRecord height s m).paidUntilHeight.toNat : Int) =
            height.toNat + blocksBought s.getParams m.escrow.amount ∧
          ∀ r, s.escrows[m.contractAddr]? = some r →
            r.paidUntilHeight.toNat ≤ height.toNat + blocksBought s.getParams m.escrow.amount := by
      rw [hprocess, registerContract_eq_ok hs.params hm] at hok
      obtain ⟨hadm, -, hpays, -, rfl⟩ := hok
      obtain ⟨hbuy, hold⟩ := (h hadm).2 hpays
      exact ⟨rfl, hbuy.toNat_extended hs.params hm.le, hold⟩
    refine ⟨?_, ?_, keepsPaid_deliver ?_⟩
    · rw [hprocess, registerContract_panics hs.params hm]
      rintro ⟨hadm, hbad | ⟨-, hpays, hbad⟩⟩
      · rw [(h hadm).1] at hbad
        cases hbad
      · have hbuy := ((h hadm).2 hpays).1
        exact hbad.elim hbuy.1 (not_le.mpr (hbuy.periods hs.params hm.le))
    · intro s' hok
      obtain ⟨rfl, hpaid, -⟩ := haccepted hok
      exact ⟨_, find_setEscrowRecord _ (registeredRecord height s m), hpaid⟩
    · intro s' hok
      obtain ⟨rfl, hpaid, hold⟩ := haccepted hok
      refine keepsPaid_insert (registeredRecord height s m) rfl fun r hr => UInt64.le_iff_toNat_le.mpr ?_
      have := hold r hr
      omega

private theorem refill_exact_iff (hs : s.Ledger) {basic : Bool} {m : MsgRefillEscrow}
    (hbasic : k.validateBasic (.refillEscrow m) = .ok ()) :
    k.PaidExactly s ⟨height, basic, .refillEscrow m⟩ ↔ k.RefillBounds s m := by
  have hm := basic_refill hbasic
  have hprocess : k.process s ⟨height, basic, .refillEscrow m⟩ = k.refillEscrow s m := process_of_basic hbasic
  constructor
  · rintro ⟨hpanic, hbought, -⟩ r hr hright
    rw [hprocess, refillEscrow_panics hs.params hm] at hpanic
    have hdenom : k.validDenom m.amount.denom = true := by
      by_contra hbad
      exact hpanic ⟨r, hr, hright, .inl (Bool.not_eq_true _ ▸ hbad)⟩
    refine ⟨hdenom, fun hpays => ?_⟩
    have harith : ¬ (s.getParams.minEscrowAmount = 0 ∨ 2 ^ 64 ≤ m.amount.amount / s.getParams.minEscrowAmount) :=
      fun hbad => hpanic ⟨r, hr, hright, .inr ⟨hdenom, hpays, .inl hbad⟩⟩
    rw [not_or, not_le] at harith
    have hadd : r.amount.denom = m.amount.denom ∧ (r.amount.amount + m.amount.amount).natAbs < 2 ^ 256 := by
      by_contra hbad
      exact hpanic ⟨r, hr, hright, .inr ⟨hdenom, hpays, .inr ⟨harith, hbad⟩⟩⟩
    have hok := hprocess.trans
      ((refillEscrow_eq_ok hs.params hm).mpr ⟨r, hr, hright, hdenom, hpays, harith, hadd, rfl⟩)
    obtain ⟨r₀, hr₀, r', -, hpaid⟩ := hbought _ hok
    rw [hr] at hr₀
    cases hr₀
    have hlt := r'.paidUntilHeight.toNat_lt
    exact ⟨⟨harith.1, by omega⟩, hadd⟩
  · intro h
    have haccepted {s' : State} (hok : k.process s ⟨height, basic, .refillEscrow m⟩ = .ok s') :
        ∃ r, s.escrows[m.contractAddr]? = some r ∧ s' = k.refilled s m r ∧
          ((refilledRecord s m r).paidUntilHeight.toNat : Int) =
            r.paidUntilHeight.toNat + blocksBought s.getParams m.amount.amount := by
      rw [hprocess, refillEscrow_eq_ok hs.params hm] at hok
      obtain ⟨r, hr, hright, -, hpays, -, -, rfl⟩ := hok
      exact ⟨r, hr, rfl, ((h r hr hright).2 hpays).1.toNat_extended hs.params hm.le⟩
    refine ⟨?_, ?_, keepsPaid_deliver ?_⟩
    · rw [hprocess, refillEscrow_panics hs.params hm]
      rintro ⟨r, hr, hright, hbad | ⟨-, hpays, hbad | ⟨-, hbad⟩⟩⟩
      · rw [(h r hr hright).1] at hbad
        cases hbad
      · have hbuy := ((h r hr hright).2 hpays).1
        exact hbad.elim hbuy.1 (not_le.mpr (hbuy.periods hs.params hm.le))
      · exact hbad ((h r hr hright).2 hpays).2
    · intro s' hok
      obtain ⟨r, hr, rfl, hpaid⟩ := haccepted hok
      have hkey : (refilledRecord s m r).contractAddr = m.contractAddr := hs.keyed _ r hr
      exact ⟨r, hr, _, hkey ▸ find_setEscrowRecord _ (refilledRecord s m r), hpaid⟩
    · intro s' hok
      obtain ⟨r, hr, rfl, hpaid⟩ := haccepted hok
      have hkey : (refilledRecord s m r).contractAddr = m.contractAddr := hs.keyed _ r hr
      refine keepsPaid_insert (refilledRecord s m r) rfl fun r₀ hr₀ => UInt64.le_iff_toNat_le.mpr ?_
      rw [hkey, hr] at hr₀
      cases hr₀
      have hbought : 0 ≤ blocksBought s.getParams m.amount.amount :=
        mul_nonneg (Int.ediv_nonneg hm.le (Params.validate_eq_ok.mp hs.params).2.2.2) (Int.natCast_nonneg _)
      omega

/-- Messages that touch neither records nor arithmetic. -/
private theorem exact_of_frame {d : Delivery} (hpanic : ¬ Panics (k.process s d))
    (hframe : ∀ s', k.process s d = .ok s' → s'.escrows = s.escrows)
    (hbuys : ∀ s', BuysExactly d.height s s' d.msg) : k.PaidExactly s d where
  noPanic := hpanic
  bought s' _ := hbuys s'
  kept := keepsPaid_deliver fun s' hok addr r hr => ⟨r, by rw [hframe s' hok, hr], UInt64.le_refl _⟩

/-- A message that passes `ValidateBasic` is exact in a state exactly if it is within bounds there. -/
theorem paidExactly_iff (hs : s.Ledger) (d : Delivery) (hbasic : k.validateBasic d.msg = .ok ()) :
    k.PaidExactly s d ↔ k.WithinBounds d.height s d.msg := by
  obtain ⟨height, basic, msg⟩ := d
  cases msg with
  | registerChain m =>
    refine iff_of_true (exact_of_frame ?_ ?_ (fun _ => trivial)) trivial
    · rw [process_of_basic hbasic]
      simp [handle, registerChain, checkAuthority, panics_bind, panics_failIf, not_panics_ok]
    · intro s' hok
      rw [process_of_basic hbasic] at hok
      rw [(registerChain_ok hok).2]
      rfl
  | registerContract m => exact register_exact_iff hs hbasic
  | refillEscrow m => exact refill_exact_iff hs hbasic
  | updateParams m =>
    refine iff_of_true (exact_of_frame ?_ ?_ (fun _ => trivial)) trivial
    · rw [process_of_basic hbasic]
      simp [handle, updateParams, checkAuthority, Params.validate, panics_bind, panics_failIf, not_panics_ok]
    · intro s' hok
      rw [process_of_basic hbasic] at hok
      rw [(updateParams_ok hok).2]
      rfl

end Step

section Reachable

/-- Parameters and records decide. -/
private theorem ledger_congr (h : s.Ledger) (hp : s'.params = s.params) (he : s'.escrows = s.escrows) : s'.Ledger := by
  refine ⟨?_, he ▸ h.keyed⟩
  rw [State.getParams, hp]
  exact h.params

/-- Genesis writes valid parameters and each record under its contract. -/
theorem ledger_initGenesis (hempty : s.escrows = ∅) {gs : GenesisState} (hgs : gs.validate = .ok ()) :
    (k.initGenesis s gs).Ledger := by
  obtain ⟨_, hparams, -⟩ := bind_eq_ok.mp hgs
  have hstart : (s.setParams gs.params).Ledger := by
    refine ⟨hparams, ?_⟩
    rw [State.setParams, hempty]
    exact Table.Keyed.empty
  have hchains := List.foldlRecOn (motive := State.Ledger) gs.registeredChains k.initChain hstart fun t ht c _ => by
    unfold initChain
    split
    · exact ledger_congr ht rfl rfl
    · exact ledger_congr ht rfl rfl
  have hcontracts := List.foldlRecOn (motive := State.Ledger) gs.registeredContracts State.setRegisteredContract hchains
    fun t ht c _ => ledger_congr ht rfl rfl
  have hescrows := List.foldlRecOn (motive := State.Ledger) gs.escrowRecords State.setEscrowRecord hcontracts
    fun t ht r _ => ⟨ht.params, ht.keyed.insert r⟩
  have hroots := List.foldlRecOn (motive := State.Ledger) gs.hashRoots State.setHashRoot hescrows
    fun t ht r _ => ledger_congr ht rfl rfl
  exact ledger_congr hroots rfl rfl

private theorem ledger_handle (h : s.Ledger) {msg : Msg} (hok : k.handle height s msg = .ok s') : s'.Ledger := by
  cases msg with
  | registerChain m =>
    obtain ⟨-, rfl⟩ := registerChain_ok hok
    exact ledger_congr h rfl rfl
  | registerContract m =>
    obtain ⟨periods, -, rfl⟩ := registerContract_ok hok
    exact ⟨h.params, h.keyed.insert _⟩
  | refillEscrow m =>
    obtain ⟨record, periods, -, -, -, rfl⟩ := refillEscrow_ok hok
    exact ⟨h.params, h.keyed.insert _⟩
  | updateParams m =>
    obtain ⟨hvalid, rfl⟩ := updateParams_ok hok
    exact ⟨hvalid, h.keyed⟩

theorem ledger_operate (hk : k.SudoKeepsLedger) (h : s.Ledger) (op : k.Operation) : (k.operate s op).Ledger :=
  k.operate_invariant h (fun _ _ _ hok => ledger_handle h hok) (fun _ _ ht => ledger_congr ht rfl rfl)
    (fun _ _ ht => ledger_congr ht rfl rfl) (fun _ _ ht => ledger_congr ht rfl rfl) hk

end Reachable

/-- In every run from a valid genesis, every message that passes `ValidateBasic` neither panics nor wraps,
buys exactly what it pays for and takes no paid time away, exactly if every such message is within
bounds in the state it meets. -/
theorem paid_time_exact_iff (k : Keeper) (hk : k.SudoKeepsLedger) (s : State) (hempty : s.escrows = ∅)
    (gs : GenesisState) (hgs : gs.validate = .ok ()) (ops : List k.Operation) :
    Along k.operate k.ExactAt (k.initGenesis s gs) ops ↔ Along k.operate k.BoundedAt (k.initGenesis s gs) ops := by
  refine along_congr (I := State.Ledger) (fun t op ht => ledger_operate hk ht op) ?_ (ledger_initGenesis hempty hgs) ops
  intro t op ht
  cases op with
  | message d => exact imp_congr_right (fun hbasic => paidExactly_iff ht d hbasic)
  | endBlock height => exact Iff.rfl
  | preBlock height votes order => exact Iff.rfl

section Decide
variable (k : Keeper) (s : State)

instance (sender : Text) (c : Coin) : Decidable (k.Pays s sender c) := inferInstanceAs (Decidable (_ ∧ _))

instance (p : Params) (start : UInt64) (amount : Int) : Decidable (Buyable p start amount) :=
  inferInstanceAs (Decidable (_ ∧ _))

instance (m : MsgRegisterContract) : Decidable (Admits s m) := inferInstanceAs (Decidable (_ ∧ _))

instance (height : UInt64) (m : MsgRegisterContract) : Decidable (k.RegisterBounds height s m) :=
  inferInstanceAs (Decidable (_ → _))

instance (m : MsgRefillEscrow) : Decidable (k.RefillBounds s m) := inferInstanceAs (Decidable (∀ r, _ = some r → _))

instance (height : UInt64) : (m : Msg) → Decidable (k.WithinBounds height s m)
  | .registerContract m => inferInstanceAs (Decidable (k.RegisterBounds height s m))
  | .refillEscrow m => inferInstanceAs (Decidable (k.RefillBounds s m))
  | .registerChain _ => isTrue trivial
  | .updateParams _ => isTrue trivial

instance : (op : k.Operation) → Decidable (k.BoundedAt s op)
  | .message d => inferInstanceAs (Decidable (k.validateBasic d.msg = .ok () → k.WithinBounds d.height s d.msg))
  | .endBlock _ => isTrue trivial
  | .preBlock _ _ _ => isTrue trivial

end Decide
end Keeper

/-- A genesis with one chain. -/
def chainGenesis (p : Params) : GenesisState := ⟨p, [sampleChain], [], [], [], 0⟩

/-- A registration and a refill under the default parameters are exact. -/
theorem registration_and_refill_exact : Along sampleKeeper.operate sampleKeeper.ExactAt
    (sampleKeeper.initGenesis sampleState (chainGenesis defaultParams))
    [.message (sampleRegister 10 2000000), .message (sampleRefill 20 1000000), .endBlock 30] :=
  (Keeper.paid_time_exact_iff sampleKeeper (fun _ _ _ h => h) sampleState rfl (chainGenesis defaultParams)
    (by decide +kernel) _).mpr (by decide +kernel)

/-- The height a sequence of messages leaves the sample contract paid to. -/
def paidAfter (p : Params) (ds : List Delivery) : Option UInt64 :=
  (run sampleKeeper.deliver (sampleKeeper.initGenesis sampleState (chainGenesis p)) ds).escrows[contractA]?.map
    EscrowRecord.paidUntilHeight

/-- A second registration takes paid time away; a minimum of zero, which is valid, makes a registration
divide by zero; and under a long interval the paid height wraps. -/
theorem paid_time_lost_panicked_and_wrapped :
    (paidAfter defaultParams [sampleRegister 10 2000000] = some 2010 ∧
      paidAfter defaultParams [sampleRegister 10 2000000, sampleRegister 20 1000000] = some 1020) ∧
    (∃ zero : Params, zero.validate = .ok () ∧ zero.minEscrowAmount = 0 ∧
      Panics (sampleKeeper.process (sampleKeeper.initGenesis sampleState (chainGenesis zero))
        (sampleRegister 10 1000000))) ∧
    ∃ long : Params, long.validate = .ok () ∧ blocksBought long 2000000 = 2 ^ 64 ∧
      paidAfter long [sampleRegister 10 2000000] = some 10 := by
  refine ⟨by decide +kernel, ⟨{ defaultParams with minEscrowAmount := 0 }, by decide +kernel, rfl, ?_⟩,
    ⟨{ defaultParams with pruneInterval := 2 ^ 63 }, by decide +kernel⟩⟩
  rw [Keeper.process_of_basic (by decide +kernel)]
  exact (Keeper.registerContract_panics (by decide +kernel) (by decide)).mpr (by decide +kernel)

end Terpz.Hashmerchant
