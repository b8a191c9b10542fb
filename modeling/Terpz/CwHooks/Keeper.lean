import Terpz.Lib.Attempt
import Terpz.Lib.PrefixStore
import Terpz.CwHooks.Types

/-! The cw-hooks keeper: the registered contracts, the loop that calls them, and the hooks that start it. -/
namespace Terpz.CwHooks
open Lib PrefixStore
open Hashmerchant (LegacyDec)

def paramsKey : Bytes := [0]
def keyPrefixStaking : Bytes := [1]
def keyPrefixGov : Bytes := [2]

/-- Staking hooks do nothing up to this height. -/
def skipUntilHeight : Int := 2

/-- A call of a contract, with the limit of the gas meter it was given. -/
structure Call where
  contract : Bytes
  msg : Bytes
  gasLimit : UInt64
  deriving DecidableEq, Repr

/-- The state of the chain and the calls made so far. -/
structure Context (σ : Type) where
  state : σ
  calls : List Call

/-- A lookup of another module: what it found and its error. -/
structure Lookup (α : Type) where
  found : Option α
  err : Option Err

/-- What the keeper is wired to, over the states `σ` of the chain. A contract may do anything when it is called: write,
and then return, fail, or run out of the gas it was given. -/
structure Keeper (σ : Type) where
  blockHeight : Int
  store : σ → PrefixStore UInt8 UInt8
  /-- The gas limit in the stored parameters. -/
  unmarshalParams : Bytes → UInt64
  marshal : SudoMsg → Bytes
  sudoContract : Bytes → Bytes → UInt64 → Attempt σ Failure Unit
  validator : σ → Bytes → Lookup ValidatorI
  delegation : σ → Bytes → Bytes → Lookup DelegationI
  proposal : σ → UInt64 → Except Err GovProposal
  vote : σ → UInt64 → Bytes → Except Err GovVote
  /-- The error of `fmt.Println`, if the output is closed. -/
  stdout : Option Err

namespace Keeper
variable {σ : Type} (k : Keeper σ)

def getAllContracts (s : σ) (keyPrefix : Bytes) : List Bytes :=
  ((k.store s).iteratePrefix keyPrefix).map (fun e => e.1.drop keyPrefix.length)

/-- Without parameters the limit is zero. -/
def contractGasLimit (s : σ) : UInt64 :=
  match (k.store s)[paramsKey]? with
  | none => 0
  | some bz => k.unmarshalParams bz

/-- The contract keeper's `Sudo` with a gas meter of its own. -/
def sudoCall (c : Bytes) (msgBz : Bytes) (gasLimit : UInt64) : Attempt (Context σ) Failure Unit := fun ctx =>
  let out := k.sudoContract c msgBz gasLimit ctx.state
  (⟨out.1, ctx.calls ++ [⟨c, msgBz, gasLimit⟩]⟩, out.2)

/-- The first error ends the loop, and a panic goes through it. -/
def callContracts (msgBz : Bytes) (gasLimit : UInt64) : List Bytes → Attempt (Context σ) Failure Unit
  | [] => pure ()
  | c :: cs => do
    k.sudoCall c msgBz gasLimit
    callContracts msgBz gasLimit cs

/-- The contracts and the limit are read before the first call. -/
def executeMessageOnContracts (keyPrefix : Bytes) (msgBz : Bytes) : Attempt (Context σ) Failure Unit := fun ctx =>
  k.callContracts msgBz (k.contractGasLimit ctx.state) (k.getAllContracts ctx.state keyPrefix) ctx

section Staking

/-- A staking hook after its lookup: what it returns for nothing found, and the message it makes of what it found. -/
def stakingHook {α : Type} (lookup : σ → Lookup α) (onMissing : Option Err → Except Failure Unit) (msg : α → SudoMsg) :
    Attempt (Context σ) Failure Unit := fun ctx =>
  if k.blockHeight ≤ skipUntilHeight then (ctx, .ok ())
  else
    let result := lookup ctx.state
    match result.found with
    | none => (ctx, onMissing result.err)
    | some found =>
      match result.err with
      | some e => (ctx, .error (.err e))
      | none => k.executeMessageOnContracts keyPrefixStaking (k.marshal (msg found)) ctx

def ignoreMissing (_ : Option Err) : Except Failure Unit := .ok ()

def returnMissing : Option Err → Except Failure Unit
  | none => .ok ()
  | some e => .error (.err e)

/-- The one hook that returns the error of a lookup that found nothing. -/
def afterValidatorCreated (valAddr : Bytes) : Attempt (Context σ) Failure Unit :=
  k.stakingHook (k.validator · valAddr) returnMissing (fun v => .afterValidatorCreated (newValidator v))

def afterValidatorRemoved (valAddr : Bytes) : Attempt (Context σ) Failure Unit :=
  k.stakingHook (k.validator · valAddr) ignoreMissing (fun v => .afterValidatorRemoved (newValidator v))

def beforeDelegationCreated (delAddr valAddr : Bytes) : Attempt (Context σ) Failure Unit :=
  k.stakingHook (k.delegation · delAddr valAddr) ignoreMissing (fun d => .beforeDelegationCreated (newDelegation d))

def beforeDelegationSharesModified (delAddr valAddr : Bytes) : Attempt (Context σ) Failure Unit :=
  k.stakingHook (k.delegation · delAddr valAddr) ignoreMissing
    (fun d => .beforeDelegationSharesModified (newDelegation d))

def afterDelegationModified (delAddr valAddr : Bytes) : Attempt (Context σ) Failure Unit :=
  k.stakingHook (k.delegation · delAddr valAddr) ignoreMissing (fun d => .afterDelegationModified (newDelegation d))

def beforeValidatorSlashed (valAddr : Bytes) (fraction : LegacyDec) : Attempt (Context σ) Failure Unit :=
  k.stakingHook (k.validator · valAddr) ignoreMissing
    (fun v => .beforeValidatorSlashed (newValidatorSlashed v fraction))

def beforeValidatorModified (valAddr : Bytes) : Attempt (Context σ) Failure Unit :=
  k.stakingHook (k.validator · valAddr) ignoreMissing (fun v => .beforeValidatorModified (newValidator v))

def afterValidatorBonded (valAddr : Bytes) : Attempt (Context σ) Failure Unit :=
  k.stakingHook (k.validator · valAddr) ignoreMissing (fun v => .afterValidatorBonded (newValidator v))

def afterValidatorBeginUnbonding (valAddr : Bytes) : Attempt (Context σ) Failure Unit :=
  k.stakingHook (k.validator · valAddr) ignoreMissing (fun v => .afterValidatorBeginUnbonding (newValidator v))

def beforeDelegationRemoved (delAddr valAddr : Bytes) : Attempt (Context σ) Failure Unit :=
  k.stakingHook (k.delegation · delAddr valAddr) ignoreMissing (fun d => .beforeDelegationRemoved (newDelegation d))

end Staking

section Gov

/-- The error of a contract is printed, and what the printing returned is returned in its place. -/
def printError (r : Except Failure Unit) : Except Failure Unit :=
  match r with
  | .error (.err _) =>
    match k.stdout with
    | some e => .error (.err e)
    | none => .ok ()
  | r => r

def notifyGov (msg : SudoMsg) : Attempt (Context σ) Failure Unit := fun ctx =>
  let out := k.executeMessageOnContracts keyPrefixGov (k.marshal msg) ctx
  (out.1, k.printError out.2)

def govHook {α : Type} (lookup : σ → Except Err α) (msg : α → SudoMsg) : Attempt (Context σ) Failure Unit := fun ctx =>
  match lookup ctx.state with
  | .error e => (ctx, .error (.err e))
  | .ok found => k.notifyGov (msg found) ctx

def afterProposalSubmission (proposalId : UInt64) : Attempt (Context σ) Failure Unit :=
  k.govHook (k.proposal · proposalId) (fun p => .afterProposalSubmission (newProposal p))

def afterProposalDeposit (proposalId : UInt64) : Attempt (Context σ) Failure Unit :=
  k.govHook (k.proposal · proposalId) (fun p => .afterProposalDeposit (newProposal p))

def afterProposalVote (proposalId : UInt64) (voterAddr : Bytes) : Attempt (Context σ) Failure Unit :=
  k.govHook (k.vote · proposalId voterAddr) (fun v => .afterProposalVote (newVote v))

/-- The id is printed as a Go `int`. -/
def afterProposalVotingPeriodEnded (proposalId : UInt64) : Attempt (Context σ) Failure Unit :=
  k.notifyGov (.afterProposalVotingPeriodEnded (signedDecimal proposalId.toInt64.toInt))

end Gov

end Keeper

/-- The hooks that notify contracts. -/
inductive Hook where
  | afterValidatorCreated (valAddr : Bytes)
  | afterValidatorRemoved (valAddr : Bytes)
  | beforeDelegationCreated (delAddr valAddr : Bytes)
  | beforeDelegationSharesModified (delAddr valAddr : Bytes)
  | afterDelegationModified (delAddr valAddr : Bytes)
  | beforeValidatorSlashed (valAddr : Bytes) (fraction : LegacyDec)
  | beforeValidatorModified (valAddr : Bytes)
  | afterValidatorBonded (valAddr : Bytes)
  | afterValidatorBeginUnbonding (valAddr : Bytes)
  | beforeDelegationRemoved (delAddr valAddr : Bytes)
  | afterProposalSubmission (proposalId : UInt64)
  | afterProposalDeposit (proposalId : UInt64)
  | afterProposalVote (proposalId : UInt64) (voterAddr : Bytes)
  | afterProposalVotingPeriodEnded (proposalId : UInt64)

def Keeper.hook {σ : Type} (k : Keeper σ) : Hook → Attempt (Context σ) Failure Unit
  | .afterValidatorCreated v => k.afterValidatorCreated v
  | .afterValidatorRemoved v => k.afterValidatorRemoved v
  | .beforeDelegationCreated d v => k.beforeDelegationCreated d v
  | .beforeDelegationSharesModified d v => k.beforeDelegationSharesModified d v
  | .afterDelegationModified d v => k.afterDelegationModified d v
  | .beforeValidatorSlashed v f => k.beforeValidatorSlashed v f
  | .beforeValidatorModified v => k.beforeValidatorModified v
  | .afterValidatorBonded v => k.afterValidatorBonded v
  | .afterValidatorBeginUnbonding v => k.afterValidatorBeginUnbonding v
  | .beforeDelegationRemoved d v => k.beforeDelegationRemoved d v
  | .afterProposalSubmission p => k.afterProposalSubmission p
  | .afterProposalDeposit p => k.afterProposalDeposit p
  | .afterProposalVote p v => k.afterProposalVote p v
  | .afterProposalVotingPeriodEnded p => k.afterProposalVotingPeriodEnded p

end Terpz.CwHooks
