import Terpz.Lib.PrefixStore
import Terpz.Tokenfactory.Bank

/-! The tokenfactory keeper: who administers a denomination, who created which, and the bank actions of an admin. -/
namespace Terpz.Tokenfactory
open Lib PrefixStore

structure State where
  bank : Bank
  store : PrefixStore UInt8 UInt8
  params : Option Params

/-- The keeper with what it is wired to; the encoding of the authority metadata reads back what it wrote, and reads
the metadata without an admin from no bytes. -/
structure Keeper extends Addresses where
  enabledCapabilities : List Text
  authority : Text
  moduleAddress : Bytes
  distributionAddress : Bytes
  blockedAddr : Bytes → Bool
  /-- `Metadata.Validate` of the bank module. -/
  validateMetadata : Metadata → Except Err Unit
  marshal : DenomAuthorityMetadata → Bytes
  unmarshal : Bytes → Except Err DenomAuthorityMetadata
  unmarshal_marshal : ∀ m, unmarshal (marshal m) = .ok m
  unmarshal_nil : unmarshal [] = .ok ⟨[]⟩

def authorityKey (denom : Text) : Bytes := denomPrefix denom ++ denomAuthorityMetadataKey

def creatorKey (creator denom : Text) : Bytes := creatorPrefix creator ++ denom

namespace Keeper
variable (k : Keeper) (ctx : Ctx)

def getAuthorityMetadata (s : State) (denom : Text) : Except Err DenomAuthorityMetadata :=
  k.unmarshal (s.store.get (authorityKey denom))

def setAuthorityMetadata (s : State) (denom : Text) (metadata : DenomAuthorityMetadata) : Except Err State := do
  metadata.validate k.toAddresses
  .ok { s with store := s.store.set (authorityKey denom) (k.marshal metadata) }

def setAdmin (s : State) (denom admin : Text) : Except Err State := do
  let metadata ← k.getAuthorityMetadata s denom
  k.setAuthorityMetadata s denom { metadata with admin := admin }

def addDenomFromCreator (s : State) (creator denom : Text) : State :=
  { s with store := s.store.set (creatorKey creator denom) denom }

def getDenomsFromCreator (s : State) (creator : Text) : List Text :=
  (s.store.iteratePrefix (creatorPrefix creator)).map (fun e => e.1.drop (creatorPrefix creator).length)

def getAllDenoms (s : State) : List Text := (s.store.iteratePrefix creatorsPrefix).map Prod.snd

/-- `GetParamSet` panics when nothing is stored. -/
def getParams (s : State) : Except Err Params :=
  match s.params with
  | none => .error ⟨.panicked, text "unexpected end of JSON input"⟩
  | some p => .ok p

/-- `SetParamSet` panics on invalid parameters. -/
def setParams (s : State) (p : Params) : Except Err State := do
  p.validate.mapError (fun e => ⟨.panicked, text "value from ParamSetPair is invalid: " ++ e.message⟩)
  .ok { s with params := some p }

def validateCreateDenom (s : State) (creatorAddr subdenom : Text) : Except Err Text := do
  let denom ← getTokenDenom creatorAddr subdenom
  failIf (s.bank.getDenomMetaData denom ≠ none) (.registered .denomExists)
  .ok denom

/-- The fee goes to the account of the distribution module. -/
def fundCommunityPool (bank : Bank) (fee : List Coin) (creatorAddr : Text) : Except Err Bank :=
  if fee ≠ [] then do
    let accAddr ← k.accAddressFromBech32 creatorAddr
    bank.sendCoins ctx accAddr k.distributionAddress fee
  else .ok bank

def chargeForCreateDenom (s : State) (creatorAddr : Text) : Except Err State := do
  let params ← getParams s
  let bank ← k.fundCommunityPool ctx s.bank params.denomCreationFee creatorAddr
  failIf (params.denomCreationGasConsume ≠ 0 ∧ ctx.outOfGas params.denomCreationGasConsume = true)
    ⟨.panicked, text "consume denom creation gas"⟩
  .ok { s with bank := bank }

/-- What a denomination is described as when it is created. -/
def denomMetaData (denom : Text) : Metadata where
  description := []
  denomUnits := [⟨denom, 0, []⟩]
  base := denom
  display := denom
  name := denom
  symbol := denom
  uri := []
  uriHash := []

def createDenomAfterValidation (s : State) (creatorAddr denom : Text) : Except Err State := do
  let s := { s with bank := s.bank.setDenomMetaData (denomMetaData denom) }
  let s ← k.setAuthorityMetadata s denom ⟨creatorAddr⟩
  .ok (addDenomFromCreator s creatorAddr denom)

def createDenom (s : State) (creatorAddr subdenom : Text) : Except Err (State × Text) := do
  let denom ← validateCreateDenom s creatorAddr subdenom
  let s ← k.chargeForCreateDenom ctx s creatorAddr
  let s ← k.createDenomAfterValidation s creatorAddr denom
  .ok (s, denom)

def sendCoinsFromModuleToAccount (bank : Bank) (recipientAddr : Bytes) (coins : List Coin) : Except Err Bank := do
  failIf (k.blockedAddr recipientAddr = true)
    (.of .sdkUnauthorized (k.addressString recipientAddr ++ text " is not allowed to receive funds"))
  bank.sendCoins ctx k.moduleAddress recipientAddr coins

def mintTo (bank : Bank) (amount : Coin) (mintTo : Text) : Except Err Bank := do
  let _ ← k.deconstructDenom amount.denom
  let coins ← newCoins amount
  let bank ← bank.mintCoins k.moduleAddress coins
  let addr ← k.accAddressFromBech32 mintTo
  failIf (k.blockedAddr addr = true) ⟨.other, text "failed to mint to blocked address: " ++ k.addressString addr⟩
  k.sendCoinsFromModuleToAccount ctx bank addr coins

def burnFrom (bank : Bank) (amount : Coin) (burnFrom : Text) : Except Err Bank := do
  let _ ← k.deconstructDenom amount.denom
  let addr ← k.accAddressFromBech32 burnFrom
  failIf (k.blockedAddr addr = true) ⟨.other, text "failed to burn from blocked address: " ++ k.addressString addr⟩
  let coins ← newCoins amount
  let bank ← bank.sendCoins ctx addr k.moduleAddress coins
  bank.burnCoins ctx k.moduleAddress coins

/-- Only the target is looked up among the blocked addresses. -/
def forceTransfer (bank : Bank) (amount : Coin) (fromAddr toAddr : Text) : Except Err Bank := do
  let _ ← k.deconstructDenom amount.denom
  let fromSdkAddr ← k.accAddressFromBech32 fromAddr
  let toSdkAddr ← k.accAddressFromBech32 toAddr
  failIf (k.blockedAddr toSdkAddr = true)
    ⟨.other, text "failed to force transfer to blocked address: " ++ k.addressString toSdkAddr⟩
  let coins ← newCoins amount
  bank.sendCoins ctx fromSdkAddr toSdkAddr coins

section Actions
variable {k ctx} {b b' : Bank} {amount : Coin} {who : Text}

/-- A mint adds to the supply and to the target, and nothing stays in the module account. -/
theorem mintTo_ok (h : k.mintTo ctx b amount who = .ok b') :
    ∃ addr, k.accAddressFromBech32 who = .ok addr ∧ k.blockedAddr addr = false ∧
      b' = b.withLedger ((b.ledger.issue (amountOf [amount])).post addr (amountOf [amount])) := by
  simp only [mintTo, sendCoinsFromModuleToAccount, bind_eq_ok, failIf_eq_ok, exists_const, Bool.not_eq_true] at h
  obtain ⟨_, -, coins, hcoins, b₁, hmint, addr, haddr, hfree, -, hsend⟩ := h
  refine ⟨addr, haddr, hfree, ?_⟩
  rw [Bank.sendCoins_ok hsend, Bank.mintCoins_ok hmint, newCoins_ok hcoins]
  simp only [Bank.withLedger, Ledger.post_issue, Ledger.post_neg_cancel]

/-- A burn takes from the supply and from the source, and nothing stays in the module account. -/
theorem burnFrom_ok (h : k.burnFrom ctx b amount who = .ok b') :
    ∃ addr, k.accAddressFromBech32 who = .ok addr ∧ k.blockedAddr addr = false ∧
      b' = b.withLedger ((b.ledger.issue (-amountOf [amount])).post addr (-amountOf [amount])) := by
  simp only [burnFrom, bind_eq_ok, failIf_eq_ok, exists_const, Bool.not_eq_true] at h
  obtain ⟨_, -, addr, haddr, hfree, coins, hcoins, b₁, hsend, hburn⟩ := h
  refine ⟨addr, haddr, hfree, ?_⟩
  rw [Bank.burnCoins_ok hburn, Bank.sendCoins_ok hsend, newCoins_ok hcoins]
  simp only [Bank.withLedger, Ledger.post_issue, Ledger.post_neg_cancel]

theorem forceTransfer_ok {toAddr : Text} (h : k.forceTransfer ctx b amount who toAddr = .ok b') :
    ∃ source target, k.accAddressFromBech32 who = .ok source ∧ k.accAddressFromBech32 toAddr = .ok target ∧
      k.blockedAddr target = false ∧
      b' = b.withLedger ((b.ledger.post source (-amountOf [amount])).post target (amountOf [amount])) := by
  simp only [forceTransfer, bind_eq_ok, failIf_eq_ok, exists_const, Bool.not_eq_true] at h
  obtain ⟨_, -, source, hsource, target, htarget, hfree, coins, hcoins, hsend⟩ := h
  refine ⟨source, target, hsource, htarget, hfree, ?_⟩
  rw [Bank.sendCoins_ok hsend, newCoins_ok hcoins]

end Actions
end Keeper
end Terpz.Tokenfactory
