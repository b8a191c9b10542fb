import Terpz.Lib.Run
import Terpz.Tokenfactory.Keeper

/-! The messages of the module. A handler that fails or panics leaves the state as it was. -/
namespace Terpz.Tokenfactory
open Lib PrefixStore

structure MsgCreateDenom where
  sender : Text
  subdenom : Text

structure MsgMint where
  sender : Text
  amount : Coin
  mintToAddress : Text

structure MsgBurn where
  sender : Text
  amount : Coin
  burnFromAddress : Text

structure MsgForceTransfer where
  sender : Text
  amount : Coin
  transferFromAddress : Text
  transferToAddress : Text

structure MsgChangeAdmin where
  sender : Text
  denom : Text
  newAdmin : Text

structure MsgSetDenomMetadata where
  sender : Text
  metadata : Metadata

structure MsgUpdateParams where
  authority : Text
  params : Params

inductive Msg where
  | createDenom (m : MsgCreateDenom)
  | mint (m : MsgMint)
  | burn (m : MsgBurn)
  | forceTransfer (m : MsgForceTransfer)
  | changeAdmin (m : MsgChangeAdmin)
  | setDenomMetadata (m : MsgSetDenomMetadata)
  | updateParams (m : MsgUpdateParams)

/-- Whose signature the message needs. -/
def Msg.sender : Msg → Text
  | .createDenom m => m.sender
  | .mint m => m.sender
  | .burn m => m.sender
  | .forceTransfer m => m.sender
  | .changeAdmin m => m.sender
  | .setDenomMetadata m => m.sender
  | .updateParams m => m.authority

/-- A message with the circumstances of its block. -/
structure Delivery where
  ctx : Ctx
  msg : Msg

namespace Keeper
variable (k : Keeper) (ctx : Ctx)

/-- Address checks of `ValidateBasic` wrap the parser's own error. -/
def checkAddress (role address : Text) : Except Err Unit :=
  ((k.accAddressFromBech32 address).mapError
    (fun e => Err.of .invalidAddress (text "Invalid " ++ role ++ text " (" ++ e.message ++ text ")"))).map (fun _ => ())

def checkOptionalAddress (role address : Text) : Except Err Unit :=
  if address ≠ [] then k.checkAddress role address else .ok ()

/-- `Coin.IsValid`, and for some messages a positive amount. -/
def checkCoin (positive : Bool) (c : Coin) : Except Err Unit :=
  failIf (matchesDenom c.denom = false ∨ c.amount < 0 ∨ positive = true ∧ c.amount = 0) (.of .invalidCoins c.toText)

def validateBasic : Msg → Except Err Unit
  | .createDenom m => do
    k.checkAddress (text "sender address") m.sender
    let _ ← (getTokenDenom m.sender m.subdenom).mapError (fun e => Err.of .invalidDenom e.message)
    .ok ()
  | .mint m => do
    k.checkAddress (text "sender address") m.sender
    k.checkOptionalAddress (text "mint to address") m.mintToAddress
    checkCoin true m.amount
  | .burn m => do
    k.checkAddress (text "sender address") m.sender
    checkCoin true m.amount
    k.checkOptionalAddress (text "burn from address") m.burnFromAddress
  | .forceTransfer m => do
    k.checkAddress (text "sender address") m.sender
    k.checkAddress (text "from address") m.transferFromAddress
    k.checkAddress (text "to address") m.transferToAddress
    checkCoin false m.amount
  | .changeAdmin m => do
    k.checkAddress (text "sender address") m.sender
    k.checkAddress (text "address") m.newAdmin
    let _ ← k.deconstructDenom m.denom
    .ok ()
  | .setDenomMetadata m => do
    k.checkAddress (text "sender address") m.sender
    k.validateMetadata m.metadata
    let _ ← k.deconstructDenom m.metadata.base
    .ok ()
  | .updateParams m => do
    (k.accAddressFromBech32 m.authority).mapError
      (fun e => ⟨e.kind, text "invalid authority address: " ++ e.message⟩) >>= fun _ => m.params.validate

def createDenomMsg (s : State) (m : MsgCreateDenom) : Except Err (State × Text) := do
  k.validateBasic (.createDenom m)
  k.createDenom ctx s m.sender m.subdenom

/-- The sender is the admin stored now. -/
def checkAdmin (s : State) (denom sender : Text) : Except Err Unit := do
  let authorityMetadata ← k.getAuthorityMetadata s denom
  failIf (sender ≠ authorityMetadata.admin) (.registered .unauthorized)

def checkCapability (capability : Text) : Except Err Unit :=
  failIf (isCapabilityEnabled k.enabledCapabilities capability = false) (.registered .capabilityNotEnabled)

def mint (s : State) (m : MsgMint) : Except Err State := do
  failIf (s.bank.getDenomMetaData m.amount.denom = none)
    (.of .denomDoesNotExist (text "denom: " ++ m.amount.denom))
  k.checkAdmin s m.amount.denom m.sender
  let bank ← k.mintTo ctx s.bank m.amount (if m.mintToAddress = [] then m.sender else m.mintToAddress)
  .ok { s with bank := bank }

/-- Burning from an account that is named is a capability. -/
def checkBurnFrom (burnFromAddress : Text) : Except Err Unit :=
  if burnFromAddress = [] then .ok () else k.checkCapability enableBurnFrom

def burn (s : State) (m : MsgBurn) : Except Err State := do
  k.checkAdmin s m.amount.denom m.sender
  k.checkBurnFrom m.burnFromAddress
  let bank ← k.burnFrom ctx s.bank m.amount (if m.burnFromAddress = [] then m.sender else m.burnFromAddress)
  .ok { s with bank := bank }

def forceTransferMsg (s : State) (m : MsgForceTransfer) : Except Err State := do
  k.checkCapability enableForceTransfer
  k.checkAdmin s m.amount.denom m.sender
  let bank ← k.forceTransfer ctx s.bank m.amount m.transferFromAddress m.transferToAddress
  .ok { s with bank := bank }

def changeAdmin (s : State) (m : MsgChangeAdmin) : Except Err State := do
  k.checkAdmin s m.denom m.sender
  k.setAdmin s m.denom m.newAdmin

def setDenomMetadata (s : State) (m : MsgSetDenomMetadata) : Except Err State := do
  k.checkCapability enableSetMetadata
  k.validateMetadata m.metadata
  k.checkAdmin s m.metadata.base m.sender
  .ok { s with bank := s.bank.setDenomMetaData m.metadata }

def updateParams (s : State) (m : MsgUpdateParams) : Except Err State := do
  failIf (k.authority ≠ m.authority)
    (.of .invalidSigner (text "invalid authority; expected " ++ k.authority ++ text ", got " ++ m.authority))
  setParams s m.params

def handle (s : State) : Msg → Except Err State
  | .createDenom m => (k.createDenomMsg ctx s m).map Prod.fst
  | .mint m => k.mint ctx s m
  | .burn m => k.burn ctx s m
  | .forceTransfer m => k.forceTransferMsg ctx s m
  | .changeAdmin m => k.changeAdmin s m
  | .setDenomMetadata m => k.setDenomMetadata s m
  | .updateParams m => k.updateParams s m

def deliver (s : State) (d : Delivery) : State :=
  match k.handle d.ctx s d.msg with
  | .ok s' => s'
  | .error _ => s

/-- The admin of a denomination; none is stored for one that was given up or never created. -/
def IsAdmin (s : State) (denom sender : Text) : Prop := k.getAuthorityMetadata s denom = .ok ⟨sender⟩

section Handled
variable {k ctx} {s s' : State} {denom : Text}

theorem checkAdmin_eq_ok {sender : Text} {u : Unit} :
    k.checkAdmin s denom sender = .ok u ↔ k.IsAdmin s denom sender := by
  rw [checkAdmin, bind_eq_ok, IsAdmin]
  constructor
  · rintro ⟨⟨admin⟩, hget, hsender⟩
    have hsame : sender = admin := not_not.mp (failIf_eq_ok.mp hsender)
    rw [hget, hsame]
  · intro h
    exact ⟨_, h, failIf_eq_ok.mpr (not_not.mpr rfl)⟩

theorem setAuthorityMetadata_ok {metadata : DenomAuthorityMetadata}
    (h : k.setAuthorityMetadata s denom metadata = .ok s') :
    metadata.validate k.toAddresses = .ok () ∧
      s' = { s with store := s.store.set (authorityKey denom) (k.marshal metadata) } := by
  obtain ⟨_, hvalid, h⟩ := bind_eq_ok.mp h
  exact ⟨hvalid, (Except.ok.inj h).symm⟩

theorem createDenomAfterValidation_ok {creator : Text} (h : k.createDenomAfterValidation s creator denom = .ok s') :
    (DenomAuthorityMetadata.mk creator).validate k.toAddresses = .ok () ∧
      s' = { s with
        bank := s.bank.setDenomMetaData (denomMetaData denom)
        store := (s.store.set (authorityKey denom) (k.marshal ⟨creator⟩)).set (creatorKey creator denom) denom } := by
  obtain ⟨s₁, hset, h⟩ := bind_eq_ok.mp h
  obtain ⟨hvalid, rfl⟩ := setAuthorityMetadata_ok hset
  exact ⟨hvalid, (Except.ok.inj h).symm⟩

theorem fundCommunityPool_ok {b b' : Bank} {fee : List Coin} {creator : Text}
    (h : k.fundCommunityPool ctx b fee creator = .ok b') :
    ∃ l : Ledger Bytes Text, l.supply = b.ledger.supply ∧ b' = b.withLedger l := by
  unfold fundCommunityPool at h
  split at h
  · obtain ⟨addr, -, hsend⟩ := bind_eq_ok.mp h
    exact ⟨(b.ledger.post addr _).post _ _, rfl, Bank.sendCoins_ok hsend⟩
  · cases h
    exact ⟨b.ledger, rfl, rfl⟩

/-- What a creation did: the fee moved, the default description is set, and the sender is admin and creator. -/
theorem createDenomMsg_ok {m : MsgCreateDenom} (h : k.createDenomMsg ctx s m = .ok (s', denom)) :
    getTokenDenom m.sender m.subdenom = .ok denom ∧ (∃ a, k.accAddressFromBech32 m.sender = .ok a) ∧
    s.bank.denomMetaData denom = none ∧ ∃ l : Ledger Bytes Text, l.supply = s.bank.ledger.supply ∧ s' = { s with
      bank := (s.bank.withLedger l).setDenomMetaData (denomMetaData denom)
      store := (s.store.set (authorityKey denom) (k.marshal ⟨m.sender⟩)).set (creatorKey m.sender denom) denom } := by
  obtain ⟨_, hbasic, h⟩ := bind_eq_ok.mp h
  obtain ⟨denom', hdenom, h⟩ := bind_eq_ok.mp h
  obtain ⟨s₁, hcharge, h⟩ := bind_eq_ok.mp h
  obtain ⟨s₂, hcreate, h⟩ := bind_eq_ok.mp h
  cases h
  obtain ⟨_, haddress, -⟩ := bind_eq_ok.mp hbasic
  obtain ⟨a, ha, -⟩ := map_eq_ok.mp haddress
  obtain ⟨_, htoken, hnew⟩ := bind_eq_ok.mp hdenom
  simp only [failIf_bind_eq_ok, not_not] at hnew
  cases hnew.2
  obtain ⟨params, -, h⟩ := bind_eq_ok.mp hcharge
  obtain ⟨bank, hfund, h⟩ := bind_eq_ok.mp h
  rw [failIf_bind_eq_ok] at h
  cases h.2
  obtain ⟨l, hl, rfl⟩ := fundCommunityPool_ok hfund
  refine ⟨htoken, ?_, hnew.1, l, hl, (createDenomAfterValidation_ok hcreate).2⟩
  cases hparse : k.accAddressFromBech32 m.sender with
  | error e =>
    rw [hparse] at ha
    cases ha
  | ok a => exact ⟨a, rfl⟩

theorem mint_ok {m : MsgMint} (h : k.mint ctx s m = .ok s') :
    k.IsAdmin s m.amount.denom m.sender ∧ ∃ addr, k.blockedAddr addr = false ∧ s' = { s with
      bank := s.bank.withLedger ((s.bank.ledger.issue (amountOf [m.amount])).post addr (amountOf [m.amount])) } := by
  rw [mint, failIf_bind_eq_ok, bind_eq_ok] at h
  obtain ⟨-, _, hadmin, h⟩ := h
  obtain ⟨bank, hmint, h⟩ := bind_eq_ok.mp h
  cases h
  obtain ⟨addr, -, hfree, rfl⟩ := mintTo_ok hmint
  exact ⟨checkAdmin_eq_ok.mp hadmin, addr, hfree, rfl⟩

theorem burn_ok {m : MsgBurn} (h : k.burn ctx s m = .ok s') :
    k.IsAdmin s m.amount.denom m.sender ∧ ∃ addr, k.blockedAddr addr = false ∧ s' = { s with
      bank := s.bank.withLedger ((s.bank.ledger.issue (-amountOf [m.amount])).post addr (-amountOf [m.amount])) } := by
  obtain ⟨_, hadmin, h⟩ := bind_eq_ok.mp h
  obtain ⟨_, -, h⟩ := bind_eq_ok.mp h
  obtain ⟨bank, hburn, h⟩ := bind_eq_ok.mp h
  cases h
  obtain ⟨addr, -, hfree, rfl⟩ := burnFrom_ok hburn
  exact ⟨checkAdmin_eq_ok.mp hadmin, addr, hfree, rfl⟩

theorem forceTransferMsg_ok {m : MsgForceTransfer} (h : k.forceTransferMsg ctx s m = .ok s') :
    ∃ source target, k.accAddressFromBech32 m.transferFromAddress = .ok source ∧ k.blockedAddr target = false ∧
      s' = { s with
        bank := s.bank.withLedger
          ((s.bank.ledger.post source (-amountOf [m.amount])).post target (amountOf [m.amount])) } := by
  obtain ⟨_, -, h⟩ := bind_eq_ok.mp h
  obtain ⟨_, -, h⟩ := bind_eq_ok.mp h
  obtain ⟨bank, htransfer, h⟩ := bind_eq_ok.mp h
  cases h
  obtain ⟨source, target, hsource, -, hfree, rfl⟩ := forceTransfer_ok htransfer
  exact ⟨source, target, hsource, hfree, rfl⟩

theorem changeAdmin_ok {m : MsgChangeAdmin} (h : k.changeAdmin s m = .ok s') :
    k.IsAdmin s m.denom m.sender ∧ (DenomAuthorityMetadata.mk m.newAdmin).validate k.toAddresses = .ok () ∧
      s' = { s with store := s.store.set (authorityKey m.denom) (k.marshal ⟨m.newAdmin⟩) } := by
  obtain ⟨_, hadmin, h⟩ := bind_eq_ok.mp h
  obtain ⟨_, -, h⟩ := bind_eq_ok.mp h
  exact ⟨checkAdmin_eq_ok.mp hadmin, setAuthorityMetadata_ok h⟩

theorem setDenomMetadata_ok {m : MsgSetDenomMetadata} (h : k.setDenomMetadata s m = .ok s') :
    k.IsAdmin s m.metadata.base m.sender ∧ s' = { s with bank := s.bank.setDenomMetaData m.metadata } := by
  obtain ⟨_, -, h⟩ := bind_eq_ok.mp h
  obtain ⟨_, -, h⟩ := bind_eq_ok.mp h
  obtain ⟨_, hadmin, h⟩ := bind_eq_ok.mp h
  exact ⟨checkAdmin_eq_ok.mp hadmin, (Except.ok.inj h).symm⟩

theorem setParams_ok {p : Params} (h : setParams s p = .ok s') :
    p.validate = .ok () ∧ s' = { s with params := some p } := by
  obtain ⟨_, hvalid, h⟩ := bind_eq_ok.mp h
  refine ⟨?_, (Except.ok.inj h).symm⟩
  cases hp : p.validate with
  | error e =>
    rw [hp] at hvalid
    cases hvalid
  | ok u => rfl

theorem updateParams_ok {m : MsgUpdateParams} (h : k.updateParams s m = .ok s') :
    m.params.validate = .ok () ∧ s' = { s with params := some m.params } := by
  rw [updateParams, failIf_bind_eq_ok] at h
  exact setParams_ok h.2

/-- A delivery changes nothing, or its handler returned. -/
theorem deliver_cases (s : State) (d : Delivery) :
    k.deliver s d = s ∨ k.handle d.ctx s d.msg = .ok (k.deliver s d) := by
  unfold deliver
  cases h : k.handle d.ctx s d.msg with
  | error e => exact .inl rfl
  | ok s' => exact .inr rfl

end Handled
end Keeper
end Terpz.Tokenfactory
