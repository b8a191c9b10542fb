import Terpz.Hashmerchant.Keeper.Store

/-! The four messages of the module. A handler that fails or panics leaves the state as it was. -/
namespace Terpz.Hashmerchant
open Lib

structure MsgRegisterChain where
  authority : Text
  chain : RegisteredChain

structure MsgRegisterContract where
  sender : Text
  contractAddr : Text
  chainUid : Text
  substoreKeys : List Text
  escrow : Coin

structure MsgRefillEscrow where
  sender : Text
  contractAddr : Text
  amount : Coin

structure MsgUpdateParams where
  authority : Text
  params : Params

inductive Msg where
  | registerChain (m : MsgRegisterChain)
  | registerContract (m : MsgRegisterContract)
  | refillEscrow (m : MsgRefillEscrow)
  | updateParams (m : MsgUpdateParams)

/-- `math.Int` holds 256 bits; a larger sum panics. -/
def intAdd (a b : Int) : Except Err Int := do
  failIf (2 ^ 256 ≤ (a + b).natAbs) ⟨.panicked, text "Int overflow"⟩
  .ok (a + b)

/-- `Quo` panics on zero and `Uint64` on what does not fit. -/
def quoUint64 (a b : Int) : Except Err UInt64 := do
  failIf (b = 0) ⟨.panicked, text "division by zero"⟩
  failIf (a.tdiv b < 0 ∨ 2 ^ 64 ≤ a.tdiv b) ⟨.panicked, text "Uint64() out of bounds"⟩
  .ok (UInt64.ofNat (a.tdiv b).toNat)

def Coin.add (a b : Coin) : Except Err Coin := do
  failIf (a.denom ≠ b.denom) ⟨.panicked, text "invalid coin denominations; " ++ a.denom ++ text ", " ++ b.denom⟩
  let amount ← intAdd a.amount b.amount
  .ok ⟨a.denom, amount⟩

def State.transfer (s : State) (source target : Bytes) (c : Coin) : State :=
  { s with balances := fun a d => s.balances a d - (if a = source ∧ d = c.denom then c.amount else 0) +
      (if a = target ∧ d = c.denom then c.amount else 0) }

theorem Coin.add_ok {a b c : Coin} (h : a.add b = .ok c) : a.denom = b.denom ∧ c = ⟨a.denom, a.amount + b.amount⟩ := by
  simp only [Coin.add, intAdd, bind_eq_ok, failIf_eq_ok, exists_const, not_not, ne_eq] at h
  obtain ⟨hdenom, amount, ⟨-, hamount⟩, h⟩ := h
  cases hamount
  cases h
  exact ⟨hdenom, rfl⟩

theorem State.transfer_zero (s : State) (source target : Bytes) {c : Coin} (hc : c.amount = 0) :
    s.transfer source target c = s := by
  simp [State.transfer, hc]

namespace Keeper
variable (k : Keeper)

/-- The coins are built with `NewCoins`, which drops a zero amount and panics on a bad coin. Assumed of the bank: it
refuses more than the balance, and what `sendRefused` says, and moves the coins otherwise. -/
def sendCoinsFromAccountToModule (s : State) (sender : Bytes) (c : Coin) : Except Err State := do
  failIf (c.amount < 0 ∨ c.amount ≠ 0 ∧ k.validDenom c.denom = false) ⟨.panicked, text "invalid coins"⟩
  if c.amount = 0 then .ok s
  else do
    failIf (s.balances sender c.denom < c.amount ∨ k.sendRefused s sender c = true) ⟨.insufficientFunds, []⟩
    .ok (s.transfer sender k.moduleAddress c)

/-- The sender is parsed without looking at the error. -/
def senderAddress (sender : Text) : Bytes := (k.accAddressFromBech32 sender).getD []

def checkAuthority (authority : Text) : Except Err Unit :=
  failIf (k.authority ≠ authority)
    ⟨.invalidSigner, text "unauthorised: expected " ++ k.authority ++ text ", got " ++ authority⟩

def checkDenom (p : Params) (c : Coin) : Except Err Unit :=
  failIf (c.denom ≠ p.escrowDenom)
    ⟨.insufficientEscrow, text "expected denom " ++ p.escrowDenom ++ text ", got " ++ c.denom⟩

def registerChain (s : State) (m : MsgRegisterChain) : Except Err State := do
  k.checkAuthority m.authority
  failIf (s.hasRegisteredChain m.chain.chainUid = true)
    ⟨.chainAlreadyExists, text "chain_uid: " ++ m.chain.chainUid⟩
  .ok (s.setRegisteredChain m.chain)

/-- Each minimum escrow buys one prune interval; a record already there is replaced. -/
def registerContract (height : UInt64) (s : State) (m : MsgRegisterContract) : Except Err State := do
  let chain ← s.getRegisteredChain m.chainUid
  failIf (chain.enabled = false) ⟨.chainDisabled, text "chain_uid: " ++ m.chainUid⟩
  let params := s.getParams
  checkDenom params m.escrow
  failIf (m.escrow.amount < params.minEscrowAmount)
    ⟨.insufficientEscrow, text "minimum " ++ intText params.minEscrowAmount ++ text ", got " ++ intText m.escrow.amount⟩
  let s ← k.sendCoinsFromAccountToModule s (k.senderAddress m.sender) m.escrow
  let periods ← quoUint64 m.escrow.amount params.minEscrowAmount
  let s := s.setRegisteredContract ⟨m.contractAddr, m.chainUid, m.substoreKeys, true⟩
  .ok (s.setEscrowRecord ⟨m.contractAddr, m.escrow, height + periods * params.pruneInterval, 0⟩)

def refillEscrow (s : State) (m : MsgRefillEscrow) : Except Err State := do
  let record ← s.getEscrowRecord m.contractAddr
  let params := s.getParams
  checkDenom params m.amount
  let s ← k.sendCoinsFromAccountToModule s (k.senderAddress m.sender) m.amount
  let periods ← quoUint64 m.amount.amount params.minEscrowAmount
  let amount ← record.amount.add m.amount
  .ok (s.setEscrowRecord
    { record with paidUntilHeight := record.paidUntilHeight + periods * params.pruneInterval, amount := amount })

def updateParams (s : State) (m : MsgUpdateParams) : Except Err State := do
  k.checkAuthority m.authority
  m.params.validate
  .ok (s.setParams m.params)

/-- Address checks of `ValidateBasic` wrap the parser's own error. -/
def checkAddress (role address : Text) : Except Err Unit :=
  failIf (k.accAddressFromBech32 address = none) ⟨.unauthorized, text "invalid " ++ role⟩

def validateBasic : Msg → Except Err Unit
  | .registerChain m => do
    k.checkAddress (text "authority") m.authority
    failIf (m.chain.chainUid = []) ⟨.invalidChainUid, text "chain_uid must not be empty"⟩
  | .registerContract m => do
    k.checkAddress (text "sender") m.sender
    failIf (m.contractAddr = []) ⟨.contractNotFound, text "contract_addr must not be empty"⟩
    failIf (m.chainUid = []) ⟨.invalidChainUid, text "chain_uid must not be empty"⟩
    failIf (m.escrow.amount ≤ 0) ⟨.insufficientEscrow, text "escrow must be positive"⟩
  | .refillEscrow m => do
    k.checkAddress (text "sender") m.sender
    failIf (m.contractAddr = []) ⟨.contractNotFound, text "contract_addr must not be empty"⟩
    failIf (m.amount.amount ≤ 0) ⟨.insufficientEscrow, text "amount must be positive"⟩
  | .updateParams m => do
    k.checkAddress (text "authority") m.authority
    m.params.validate

def handle (height : UInt64) (s : State) : Msg → Except Err State
  | .registerChain m => k.registerChain s m
  | .registerContract m => k.registerContract height s m
  | .refillEscrow m => k.refillEscrow s m
  | .updateParams m => k.updateParams s m

end Keeper

/-- One message: the block it comes in and whether it passes `ValidateBasic` first, as the messages of a
transaction do and those that a contract or a proposal routes may not. -/
structure Delivery where
  height : UInt64
  basic : Bool
  msg : Msg

namespace Keeper
variable (k : Keeper)

def process (s : State) (d : Delivery) : Except Err State := do
  (if d.basic then k.validateBasic d.msg else .ok ())
  k.handle d.height s d.msg

def deliver (s : State) (d : Delivery) : State :=
  match k.process s d with
  | .error _ => s
  | .ok s' => s'

variable {k} {height : UInt64} {s s' : State}

theorem sendCoinsFromAccountToModule_ok {sender : Bytes} {c : Coin}
    (h : k.sendCoinsFromAccountToModule s sender c = .ok s') :
    0 ≤ c.amount ∧ s' = s.transfer sender k.moduleAddress c := by
  rw [sendCoinsFromAccountToModule, failIf_bind_eq_ok, not_or, not_lt] at h
  obtain ⟨⟨hpos, -⟩, h⟩ := h
  split at h
  · next hzero =>
    cases h
    exact ⟨hpos, (State.transfer_zero s sender k.moduleAddress hzero).symm⟩
  · rw [failIf_bind_eq_ok] at h
    cases h.2
    exact ⟨hpos, rfl⟩

theorem registerChain_ok {m : MsgRegisterChain} (h : k.registerChain s m = .ok s') :
    s.chains[m.chain.chainUid]? = none ∧ s' = s.setRegisteredChain m.chain := by
  rw [registerChain, checkAuthority, failIf_bind_eq_ok, failIf_bind_eq_ok] at h
  obtain ⟨-, hnew, h⟩ := h
  cases h
  refine ⟨?_, rfl⟩
  rw [State.hasRegisteredChain, Std.ExtTreeMap.contains_eq_isSome_getElem?] at hnew
  simpa using hnew

/-- What an accepted registration checked and what it wrote. -/
theorem registerContract_ok {m : MsgRegisterContract} (h : k.registerContract height s m = .ok s') :
    ∃ periods, 0 ≤ m.escrow.amount ∧ s' = ((s.transfer (k.senderAddress m.sender) k.moduleAddress m.escrow
      |>.setRegisteredContract ⟨m.contractAddr, m.chainUid, m.substoreKeys, true⟩).setEscrowRecord
        ⟨m.contractAddr, m.escrow, height + periods * s.getParams.pruneInterval, 0⟩) := by
  simp only [registerContract, checkDenom, bind_eq_ok, failIf_eq_ok, exists_const] at h
  obtain ⟨chain, -, -, -, -, t, ht, periods, -, h⟩ := h
  obtain ⟨hpos, rfl⟩ := sendCoinsFromAccountToModule_ok ht
  cases h
  exact ⟨periods, hpos, rfl⟩

/-- What an accepted refill read and what it wrote. -/
theorem refillEscrow_ok {m : MsgRefillEscrow} (h : k.refillEscrow s m = .ok s') :
    ∃ record periods, s.escrows[m.contractAddr]? = some record ∧ 0 ≤ m.amount.amount ∧
      record.amount.denom = m.amount.denom ∧
      s' = (s.transfer (k.senderAddress m.sender) k.moduleAddress m.amount).setEscrowRecord
        { record with
          paidUntilHeight := record.paidUntilHeight + periods * s.getParams.pruneInterval
          amount := ⟨record.amount.denom, record.amount.amount + m.amount.amount⟩ } := by
  simp only [refillEscrow, checkDenom, bind_eq_ok, failIf_eq_ok, exists_const] at h
  obtain ⟨record, hrecord, -, t, ht, periods, -, amount, hadd, h⟩ := h
  obtain ⟨hpos, rfl⟩ := sendCoinsFromAccountToModule_ok ht
  obtain ⟨hdenom, rfl⟩ := Coin.add_ok hadd
  cases h
  exact ⟨record, periods, State.getEscrowRecord_eq_ok.mp hrecord, hpos, hdenom, rfl⟩

theorem updateParams_ok {m : MsgUpdateParams} (h : k.updateParams s m = .ok s') :
    m.params.validate = .ok () ∧ s' = s.setParams m.params := by
  simp only [updateParams, checkAuthority, bind_eq_ok, failIf_eq_ok, exists_const] at h
  obtain ⟨-, _, hvalid, h⟩ := h
  cases h
  exact ⟨hvalid, rfl⟩

theorem process_of_basic {d : Delivery} (h : k.validateBasic d.msg = .ok ()) :
    k.process s d = k.handle d.height s d.msg := by
  unfold process
  split
  · rw [h]
    rfl
  · rfl

theorem deliver_of_process {d : Delivery} (h : k.process s d = .ok s') : k.deliver s d = s' := by
  rw [deliver, h]

/-- A delivery changes nothing or is an accepted message. -/
theorem deliver_cases (s : State) (d : Delivery) :
    k.deliver s d = s ∨ k.handle d.height s d.msg = .ok (k.deliver s d) := by
  unfold deliver
  cases h : k.process s d with
  | error e => exact .inl rfl
  | ok s' =>
    unfold process at h
    obtain ⟨_, -, h⟩ := bind_eq_ok.mp h
    exact .inr h

end Keeper

/-! A module with one chain, and one account that can pay. -/

def sampleChain : RegisteredChain := ⟨text "c", text "chain", [], [text "a"], true, []⟩

def sampleState : State :=
  { State.empty.setRegisteredChain sampleChain with
    balances := fun a d => if a = List.replicate 20 1 ∧ d = text "uterp" then 100000000 else 0 }

def sampleRegister (height : UInt64) (amount : Int) : Delivery :=
  ⟨height, true, .registerContract ⟨accountA, contractA, text "c", [], ⟨text "uterp", amount⟩⟩⟩

def sampleRefill (height : UInt64) (amount : Int) : Delivery :=
  ⟨height, true, .refillEscrow ⟨accountA, contractA, ⟨text "uterp", amount⟩⟩⟩

end Terpz.Hashmerchant
