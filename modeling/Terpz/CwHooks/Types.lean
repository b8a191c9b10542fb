import Terpz.Hashmerchant.Types

/-! What the hook contracts are told: records of the staking and governance modules, and the messages made of them. -/
namespace Terpz.CwHooks
open Lib
open Hashmerchant (LegacyDec)

inductive BondStatus where
  | unspecified | unbonded | unbonding | bonded
  deriving DecidableEq, Repr

def BondStatus.toText : BondStatus → Text
  | .unspecified => text "BOND_STATUS_UNSPECIFIED"
  | .unbonded => text "BOND_STATUS_UNBONDED"
  | .unbonding => text "BOND_STATUS_UNBONDING"
  | .bonded => text "BOND_STATUS_BONDED"

/-- What a hook reads off a validator of the staking module. -/
structure ValidatorI where
  moniker : Text
  operator : Text
  commission : LegacyDec
  tokens : Int
  status : BondStatus
  deriving DecidableEq, Repr

structure DelegationI where
  validatorAddr : Text
  delegatorAddr : Text
  shares : LegacyDec
  deriving DecidableEq, Repr

/-- What a hook reads off a proposal of the governance module; every stored proposal has a time of submission. -/
structure GovProposal where
  id : UInt64
  proposer : Text
  status : UInt32
  submitSecond : Nat
  metadata : Text
  title : Text
  summary : Text
  deriving DecidableEq, Repr

structure WeightedVoteOption where
  option : UInt32
  weight : Text
  deriving DecidableEq, Repr

structure GovVote where
  proposalId : UInt64
  voter : Text
  options : List WeightedVoteOption
  deriving DecidableEq, Repr

structure Validator where
  moniker : Text
  validatorAddress : Text
  commission : Text
  validatorTokens : Text
  bondedTokens : Text
  bondStatus : Text
  deriving DecidableEq, Repr

/-- The bonded tokens are filled with all the tokens of the validator. -/
def newValidator (val : ValidatorI) : Validator where
  moniker := val.moniker
  validatorAddress := val.operator
  commission := val.commission.toText
  validatorTokens := signedDecimal val.tokens
  bondedTokens := signedDecimal val.tokens
  bondStatus := val.status.toText

structure ValidatorSlashed where
  moniker : Text
  validatorAddress : Text
  slashedAmount : Text
  deriving DecidableEq, Repr

def newValidatorSlashed (val : ValidatorI) (fraction : LegacyDec) : ValidatorSlashed where
  moniker := val.moniker
  validatorAddress := val.operator
  slashedAmount := fraction.toText

structure Delegation where
  validatorAddress : Text
  delegatorAddress : Text
  shares : Text
  deriving DecidableEq, Repr

def newDelegation (del : DelegationI) : Delegation where
  validatorAddress := del.validatorAddr
  delegatorAddress := del.delegatorAddr
  shares := del.shares.toText

structure Proposal where
  proposalId : UInt64
  proposer : Text
  status : UInt64
  submitTime : Text
  metadata : Text
  title : Text
  summary : Text
  deriving DecidableEq, Repr

def newProposal (prop : GovProposal) : Proposal where
  proposalId := prop.id
  proposer := prop.proposer
  status := prop.status.toUInt64
  submitTime := decimal prop.submitSecond
  metadata := prop.metadata
  title := prop.title
  summary := prop.summary

structure Vote where
  proposalId : UInt64
  voterAddress : Text
  voteOption : List WeightedVoteOption
  deriving DecidableEq, Repr

def newVote (vote : GovVote) : Vote where
  proposalId := vote.proposalId
  voterAddress := vote.voter
  voteOption := vote.options

inductive SudoMsg where
  | afterValidatorCreated (v : Validator)
  | afterValidatorRemoved (v : Validator)
  | beforeValidatorModified (v : Validator)
  | afterValidatorBonded (v : Validator)
  | afterValidatorBeginUnbonding (v : Validator)
  | beforeValidatorSlashed (v : ValidatorSlashed)
  | beforeDelegationCreated (d : Delegation)
  | beforeDelegationSharesModified (d : Delegation)
  | afterDelegationModified (d : Delegation)
  | beforeDelegationRemoved (d : Delegation)
  | afterProposalSubmission (p : Proposal)
  | afterProposalDeposit (p : Proposal)
  | afterProposalVote (v : Vote)
  | afterProposalVotingPeriodEnded (id : Text)
  deriving DecidableEq, Repr

inductive ErrKind where
  | notFound | wasm | outOfGas | stdout
  deriving DecidableEq, Repr

structure Err where
  kind : ErrKind
  message : Text
  deriving DecidableEq, Repr

/-- How a call ends that does not return: with an error, or with a panic that nothing here recovers. -/
inductive Failure where
  | err (e : Err)
  | panic (e : Err)
  deriving DecidableEq, Repr

end Terpz.CwHooks
