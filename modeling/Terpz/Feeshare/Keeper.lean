import Terpz.Feeshare.Types
import Terpz.Lib.PrefixStore
import Terpz.Lib.Run
import Terpz.Lib.Table

/-! The feeshare keeper: the fee shares by contract, the indexes by deployer and by withdrawer, genesis, the messages
and the queries over the indexes. -/
namespace Terpz.Feeshare
open Lib PrefixStore

/-- The store by its prefixes: fee shares under the contract's bytes, the two indexes under the owner's bytes followed
by the contract's. -/
structure State where
  params : Params
  feeShares : Table FeeShare
  deployers : PrefixStore UInt8 UInt8
  withdrawers : PrefixStore UInt8 UInt8

def State.empty : State := ⟨.zero, ∅, ∅, ∅⟩

structure Keeper where
  addrs : Addresses
  govAddress : Text
  authority : Text

namespace Keeper
variable (k : Keeper)

def setParams (s : State) (p : Params) : Except Err State := do
  p.validate
  .ok { s with params := p }

def getFeeShare (s : State) (contract : Bytes) : Option FeeShare := s.feeShares[contract]?

def isFeeShareRegistered (s : State) (contract : Bytes) : Bool := (s.feeShares[contract]?).isSome

/-- A contract address that does not parse is a nil interface, and reading its bytes panics. -/
def setFeeShare (s : State) (feeshare : FeeShare) : Except Err State := do
  failIf (k.addrs.getContractAddr feeshare = []) Err.nilPointer
  .ok { s with feeShares := s.feeShares.insert (k.addrs.getContractAddr feeshare) feeshare }

def deleteFeeShare (s : State) (fee : FeeShare) : Except Err State := do
  failIf (k.addrs.getContractAddr fee = []) Err.nilPointer
  .ok { s with feeShares := s.feeShares.erase (k.addrs.getContractAddr fee) }

def setDeployerMap (s : State) (deployer contract : Bytes) : State :=
  { s with deployers := s.deployers.set (deployer ++ contract) [1] }

def deleteDeployerMap (s : State) (deployer contract : Bytes) : State :=
  { s with deployers := s.deployers.delete (deployer ++ contract) }

def setWithdrawerMap (s : State) (withdrawer contract : Bytes) : State :=
  { s with withdrawers := s.withdrawers.set (withdrawer ++ contract) [1] }

def deleteWithdrawerMap (s : State) (withdrawer contract : Bytes) : State :=
  { s with withdrawers := s.withdrawers.delete (withdrawer ++ contract) }

def isDeployerMapSet (s : State) (deployer contract : Bytes) : Bool := (s.deployers[deployer ++ contract]?).isSome

def isWithdrawerMapSet (s : State) (withdrawer contract : Bytes) : Bool :=
  (s.withdrawers[withdrawer ++ contract]?).isSome

/-- One share of the genesis file. -/
def importShare (s : State) (share : FeeShare) : Except Err State := do
  let contract := k.addrs.getContractAddr share
  let withdrawer := k.addrs.getWithdrawerAddr share
  let s ← k.setFeeShare s share
  let s := setDeployerMap s (k.addrs.getDeployerAddr share) contract
  .ok (if withdrawer ≠ [] then setWithdrawerMap s withdrawer contract else s)

def importShares (s : State) : List FeeShare → Except Err State
  | [] => .ok s
  | share :: shares => do
    let s ← k.importShare s share
    importShares s shares

def initGenesis (params : Params) (shares : List FeeShare) : Except Err State := do
  let s ← setParams .empty params
  k.importShares s shares

section Messages
variable (wasm : Bytes → Option ContractInfo)

/-- A contract without information is a nil pointer. -/
def contractInfo (contract : Bytes) : Except Err ContractInfo :=
  match wasm contract with
  | none => .error Err.nilPointer
  | some info => .ok info

def getIfContractWasCreatedFromFactory (info : ContractInfo) : Bool :=
  match k.addrs.accAddressFromBech32 info.creator with
  | .error _ => false
  | .ok creator =>
    if info.admin = k.govAddress then true
    else if info.admin = [] then (wasm creator).isSome
    else
      match k.addrs.accAddressFromBech32 info.admin with
      | .error _ => false
      | .ok admin => (wasm admin).isSome

def getContractAdminOrCreatorAddress (contract : Bytes) (deployer : Text) : Except Err Bytes := do
  let _ ← (k.addrs.accAddressFromBech32 deployer).mapError
    (fun _ => .of .invalidAddress (text "invalid deployer address " ++ deployer))
  let info ← contractInfo wasm contract
  if info.admin = [] then
    failIf (info.creator ≠ deployer)
      (.of .unauthorized (text "you are not the creator of this contract " ++ info.creator))
    (k.addrs.accAddressFromBech32 info.creator).mapError
      (fun _ => .of .invalidAddress (text "invalid creator address " ++ info.creator))
  else
    failIf (info.admin ≠ deployer)
      (.of .unauthorized (text "you are not an admin of this contract " ++ deployer))
    (k.addrs.accAddressFromBech32 info.admin).mapError
      (fun _ => .of .invalidAddress (text "invalid admin address " ++ info.admin))

/-- The contract of a message. -/
def parseContract (contractAddress : Text) : Except Err Bytes :=
  (k.addrs.accAddressFromBech32 contractAddress).mapError
    (fun e => .of .invalidAddress (text "invalid contract address (" ++ e.message ++ text ")"))

/-- The deployer of a contract to register: a contract of a factory registers itself. -/
def registeringDeployer (contract : Bytes) (contractAddress deployerAddress withdrawerAddress : Text) :
    Except Err Bytes := do
  let info ← contractInfo wasm contract
  if k.getIfContractWasCreatedFromFactory wasm info = true then
    failIf (withdrawerAddress ≠ contractAddress) (.of .feeShareInvalidWithdrawer
      (text "withdrawer address must be the same as the contract address if it is from a factory contract withdraw:" ++
        withdrawerAddress ++ text " contract:" ++ contractAddress))
    k.addrs.accAddressFromBech32 contractAddress
  else k.getContractAdminOrCreatorAddress wasm contract deployerAddress

def registerFeeShare (s : State) (contractAddress deployerAddress withdrawerAddress : Text) : Except Err State := do
  failIf (s.params.enableFeeShare = false) (.registered .feeShareDisabled)
  let contract ← k.parseContract contractAddress
  failIf (isFeeShareRegistered s contract = true) (.of .feeShareAlreadyRegistered
    (text "contract is already registered " ++ k.addrs.addressString contract))
  let withdrawer ← (k.addrs.accAddressFromBech32 withdrawerAddress).mapError
    (fun _ => .of .invalidAddress (text "invalid withdrawer address " ++ withdrawerAddress))
  let deployer ← k.registeringDeployer wasm contract contractAddress deployerAddress withdrawerAddress
  let s ← k.setFeeShare s (k.addrs.newFeeShare contract deployer withdrawer)
  .ok (setWithdrawerMap (setDeployerMap s deployer contract) withdrawer contract)

/-- The fee share of a message's contract. -/
def registeredShare (s : State) (contract : Bytes) (contractAddress : Text) : Except Err FeeShare :=
  match getFeeShare s contract with
  | none => .error (.of .feeShareContractNotRegistered
      (text "contract " ++ contractAddress ++ text " is not registered"))
  | some feeshare => .ok feeshare

def updateFeeShare (s : State) (contractAddress deployerAddress withdrawerAddress : Text) : Except Err State := do
  failIf (s.params.enableFeeShare = false) (.registered .feeShareDisabled)
  let contract ← k.parseContract contractAddress
  let feeshare ← registeredShare s contract contractAddress
  failIf (withdrawerAddress = feeshare.withdrawerAddress) (.of .feeShareAlreadyRegistered
    (text "feeshare with withdraw address " ++ withdrawerAddress ++ text " is already registered"))
  let _ ← k.getContractAdminOrCreatorAddress wasm contract deployerAddress
  let withdrawAddr ← (k.addrs.accAddressFromBech32 feeshare.withdrawerAddress).mapError
    (fun e => .of .invalidAddress (text "invalid withdrawer address (" ++ e.message ++ text ")"))
  let newWithdrawAddr ← (k.addrs.accAddressFromBech32 withdrawerAddress).mapError
    (fun _ => .of .invalidAddress (text "invalid WithdrawerAddress " ++ withdrawerAddress))
  let s := setWithdrawerMap (deleteWithdrawerMap s withdrawAddr contract) newWithdrawAddr contract
  k.setFeeShare s { feeshare with withdrawerAddress := k.addrs.addressString newWithdrawAddr }

def cancelFeeShare (s : State) (contractAddress deployerAddress : Text) : Except Err State := do
  failIf (s.params.enableFeeShare = false) (.registered .feeShareDisabled)
  let contract ← k.parseContract contractAddress
  let fee ← registeredShare s contract contractAddress
  let _ ← k.getContractAdminOrCreatorAddress wasm contract deployerAddress
  let s ← k.deleteFeeShare s fee
  let s := deleteDeployerMap s (k.addrs.getDeployerAddr fee) contract
  let withdrawAddr := k.addrs.getWithdrawerAddr fee
  .ok (if withdrawAddr ≠ [] then deleteWithdrawerMap s withdrawAddr contract else s)

def updateParams (s : State) (authority : Text) (params : Params) : Except Err State := do
  failIf (k.authority ≠ authority) (.of .invalidSigner (text "invalid authority; expected " ++ k.authority ++
    text ", got " ++ authority))
  setParams s params

end Messages

inductive Msg where
  | register (contractAddress deployerAddress withdrawerAddress : Text)
  | update (contractAddress deployerAddress withdrawerAddress : Text)
  | cancel (contractAddress deployerAddress : Text)
  | updateParams (authority : Text) (params : Params)

/-- The contract a message is about. -/
def Msg.contract? : Msg → Option Text
  | .register c _ _ | .update c _ _ | .cancel c _ => some c
  | .updateParams _ _ => none

/-- A message with the contracts of the chain when it is handled. -/
structure Delivery where
  wasm : Bytes → Option ContractInfo
  msg : Msg

def handle (s : State) (d : Delivery) : Except Err State :=
  match d.msg with
  | .register c dep w => k.registerFeeShare d.wasm s c dep w
  | .update c dep w => k.updateFeeShare d.wasm s c dep w
  | .cancel c dep => k.cancelFeeShare d.wasm s c dep
  | .updateParams authority params => k.updateParams s authority params

/-- A message that fails leaves the state. -/
def deliver (s : State) (d : Delivery) : State :=
  match k.handle s d with
  | .ok s' => s'
  | .error _ => s

section Queries

/-- The keys of an index under an owner, without the owner, as addresses. -/
def contractsUnder (index : PrefixStore UInt8 UInt8) (owner : Bytes) : List Text :=
  (index.iteratePrefix owner).map (fun e => k.addrs.addressString (e.1.drop owner.length))

def deployerFeeShares (s : State) (deployerAddress : Text) : Except Err (List Text) := do
  let deployer ← (k.addrs.accAddressFromBech32 deployerAddress).mapError (fun _ => ⟨.invalidArgument,
    text "invalid format for deployer " ++ deployerAddress ++ text ", should be bech32 ('terp...')"⟩)
  .ok (k.contractsUnder s.deployers deployer)

def withdrawerFeeShares (s : State) (withdrawerAddress : Text) : Except Err (List Text) := do
  let withdrawer ← (k.addrs.accAddressFromBech32 withdrawerAddress).mapError (fun _ => ⟨.invalidArgument,
    text "invalid format for withdraw addr " ++ withdrawerAddress ++ text ", should be bech32 ('terp...')"⟩)
  .ok (k.contractsUnder s.withdrawers withdrawer)

end Queries

def govText : Text := text "terp10d07y265gmmuvt4z0w9aw880jnsr700jag6fuq"

def sampleKeeper : Keeper := ⟨sampleAddresses, govText, govText⟩

end Keeper
end Terpz.Feeshare
