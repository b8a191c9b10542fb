import Mathlib.Data.List.AList
import Terpz.Hashmerchant.Keeper.Store

/-! Processing of vote extensions: the tally over two maps, the quorum check, the write of each
confirmed root and the callbacks to the registered contracts. -/
namespace Terpz.Hashmerchant
open Lib

def oracleBundleMagic : Text := text "HMOR"

structure RootVote where
  root : Bytes
  height : UInt64
  blockTime : Int64
  votingPower : Int64
  attestations : List OracleAttestation
  deriving DecidableEq, Repr

structure TallyKey where
  chainUid : Text
  algo : Text
  deriving DecidableEq, Repr

/-- Votes for one pair of chain and algorithm, by the hexadecimal root. -/
abbrev RootMap := AList (fun _ : Text => List RootVote)

abbrev Tally := AList (fun _ : TallyKey => RootMap)

/-- What the module does to its environment, in order. -/
inductive Effect where
  | setHashRoot (root : HashRoot)
  | sudoCallback (contract : Bytes) (payload : SudoPayload)
  | rootConfirmed (chainUid algo : Text) (attestations : Nat)
  deriving DecidableEq, Repr

namespace Keeper
variable (k : Keeper)

def unpackOracleBundle (bz : Bytes) : Option (List OracleAttestation) :=
  if bz.length < oracleBundleMagic.length then some []
  else if bz.take oracleBundleMagic.length ≠ oracleBundleMagic then some []
  else k.unmarshalBundle (bz.drop oracleBundleMagic.length)

/-- A bundle that does not decode counts as no attestations. -/
def voteExtensionAttestations (data : VoteExtensionHashData) : List OracleAttestation :=
  if data.attestations ≠ [] then data.attestations
  else (k.unpackOracleBundle data.ics23Proof).getD []

/-- The entry a vote adds to the tally; empty and malformed extensions add none. -/
def rootVote (vote : ExtendedVoteInfo) : Option (TallyKey × RootVote) :=
  if vote.voteExtension = [] then none
  else (k.unmarshalVote vote.voteExtension).map (fun data =>
    (⟨data.chainUid, data.algo⟩,
      ⟨data.root, data.foreignHeight, data.foreignBlockTime, vote.power, k.voteExtensionAttestations data⟩))

def tallyVote (tally : Tally) (vote : ExtendedVoteInfo) : Tally :=
  match k.rootVote vote with
  | none => tally
  | some (key, v) =>
    let rootMap := (tally.lookup key).getD ∅
    tally.insert key (rootMap.insert (hex v.root) ((rootMap.lookup (hex v.root)).getD [] ++ [v]))

def tallyOf (votes : List ExtendedVoteInfo) : Tally := votes.foldl k.tallyVote ∅

end Keeper

/-- Powers are added in `int64`, so a sum may wrap. -/
def sumPower (powers : List Int64) : Int64 := powers.foldl (· + ·) 0

def quorumThreshold (p : Params) (votes : List ExtendedVoteInfo) : Int64 :=
  p.quorumFraction.mulTruncate (sumPower (votes.map ExtendedVoteInfo.power))

/-- One order in which the two maps of the tally may be visited. -/
structure IterationOrder (tally : Tally) where
  outer : List ((_ : TallyKey) × RootMap)
  inner : TallyKey → List ((_ : Text) × List RootVote)
  outer_perm : outer.Perm tally.entries
  inner_perm : ∀ e ∈ tally.entries, (inner e.1).Perm e.2.entries

/-- The message a contract is called with. -/
def sudoPayload (root : HashRoot) (attestations : List OracleAttestation) : SudoPayload where
  chainUid := root.chainUid
  algo := root.algo
  height := root.height
  root := root.root
  attestationCount := root.attestationCount
  blockTime := root.blockTime
  oracleSources := attestations.map (fun a => ⟨a.sourceId, a.value, a.height⟩)

namespace Keeper
variable (k : Keeper)

/-- The callback runs for the enabled contracts of the chain whose escrow is still paid. -/
def dispatchSudoCallback (height : UInt64) (root : HashRoot) (attestations : List OracleAttestation)
    (acc : State × List Effect) (c : RegisteredContract) : State × List Effect :=
  if c.chainUid ≠ root.chainUid ∨ c.enabled = false then acc
  else
    match acc.1.getEscrowRecord c.contractAddr with
    | .error _ => acc
    | .ok escrow =>
      if escrow.paidUntilHeight < height then acc
      else
        let payload := sudoPayload root attestations
        match k.accAddressFromBech32 c.contractAddr with
        | none => acc
        | some addr => (k.wasmSudo acc.1 addr payload, acc.2 ++ [.sudoCallback addr payload])

def dispatchSudoCallbacks (height : UInt64) (root : HashRoot) (attestations : List OracleAttestation)
    (acc : State × List Effect) : State × List Effect :=
  acc.1.contracts.values.foldl (k.dispatchSudoCallback height root attestations) acc

end Keeper

/-- The root written for the votes of one entry; the first vote speaks for all. -/
def confirmedRoot (key : TallyKey) (representative : RootVote) (votes : List RootVote) : HashRoot where
  chainUid := key.chainUid
  algo := key.algo
  height := representative.height
  root := representative.root
  attestationCount := UInt32.ofNat votes.length
  blockTime := representative.blockTime
  attestations := representative.attestations

namespace Keeper
variable (k : Keeper)

/-- Visit one entry: below the threshold nothing happens. -/
def confirmRoot (height : UInt64) (threshold : Int64) (key : TallyKey) (acc : State × List Effect)
    (e : (_ : Text) × List RootVote) : State × List Effect :=
  let votes := e.2
  if sumPower (votes.map RootVote.votingPower) < threshold then acc
  else
    match votes with
    | [] => acc
    | representative :: _ =>
      let root := confirmedRoot key representative votes
      let acc := (acc.1.setHashRoot root, acc.2 ++ [.setHashRoot root])
      let acc := k.dispatchSudoCallbacks height root representative.attestations acc
      (acc.1, acc.2 ++ [.rootConfirmed key.chainUid key.algo votes.length])

def processVoteExtensions (height : UInt64) (s : State) (votes : List ExtendedVoteInfo)
    (order : IterationOrder (k.tallyOf votes)) : State × List Effect :=
  let threshold := quorumThreshold s.getParams votes
  order.outer.foldl (fun acc e => (order.inner e.1).foldl (k.confirmRoot height threshold e.1) acc) (s, [])

end Keeper

namespace State

def disableContract (s : State) (addr : Text) : State :=
  match s.getRegisteredContract addr with
  | .error _ => s
  | .ok contract => s.setRegisteredContract { contract with enabled := false }

/-- The contracts whose record is paid to a height below the current one. -/
def expired (s : State) (currentHeight : UInt64) : List Text :=
  (s.escrows.values.filter (fun r => r.paidUntilHeight < currentHeight)).map EscrowRecord.contractAddr

def pruneExpiredEscrows (s : State) (currentHeight : UInt64) : State :=
  (s.expired currentHeight).foldl disableContract s

/-- The distance to the last prune is taken in `uint64`. -/
def endBlocker (s : State) (height : UInt64) : State :=
  if s.getParams.pruneInterval ≤ height - s.getPruneEpoch then
    (s.pruneExpiredEscrows height).setPruneEpoch height
  else s

end State
end Terpz.Hashmerchant
