import Terpz.Hashmerchant.Quorum

/-! The vote-extension handlers: a validator's report, its check by the others, and the way of a commit with reports
into the next block and back out of it. -/
namespace Terpz.Hashmerchant
open Lib

section Sidecar

/-- A digit of either case. -/
def fromHexChar (c : UInt8) : Option UInt8 :=
  if 48 ≤ c ∧ c ≤ 57 then some (c - 48)
  else if 97 ≤ c ∧ c ≤ 102 then some (c - 87)
  else if 65 ≤ c ∧ c ≤ 70 then some (c - 55)
  else none

/-- An odd digit is an error. -/
def decodeString : Text → Option Bytes
  | [] => some []
  | [_] => none
  | a :: b :: rest => do
    let hi ← fromHexChar a
    let lo ← fromHexChar b
    let tail ← decodeString rest
    pure ((hi <<< 4 ||| lo) :: tail)

structure SidecarAttestation where
  sourceId : Text
  value : Text
  height : UInt64
  timestamp : Int64
  custodySignature : Text

/-- What the sidecar answers, byte strings in hexadecimal. -/
structure SidecarResponse where
  chainUid : Text
  algo : Text
  root : Text
  foreignHeight : UInt64
  foreignBlockTime : Int64
  attestations : List SidecarAttestation

def SidecarAttestation.decode (a : SidecarAttestation) : Option OracleAttestation := do
  let value ← decodeString a.value
  let signature ← decodeString a.custodySignature
  pure ⟨a.sourceId, value, a.height, a.timestamp, signature, []⟩

/-- Sources and values are hashed in the order in which they are listed, with nothing between them. -/
def aggregateAttestationRoot (atts : List OracleAttestation) : Bytes :=
  if atts.length = 0 then [] else sha256 (atts.flatMap (fun a => a.sourceId ++ a.value))

/-- Any field that does not decode drops the whole answer; a missing root is made from the attestations. -/
def fetchSidecar (sr : SidecarResponse) : Option VoteExtensionHashData := do
  let rootBytes ← decodeString sr.root
  let attestations ← sr.attestations.mapM SidecarAttestation.decode
  let root :=
    if rootBytes.length = 0 ∧ attestations.length > 0 then aggregateAttestationRoot attestations else rootBytes
  pure ⟨sr.chainUid, sr.algo, root, sr.foreignHeight, sr.foreignBlockTime, [], attestations⟩

end Sidecar

/-- The wire formats of a report and of a commit with reports; both are read back as they were written. -/
structure Codec (k : Keeper) where
  marshalVote : VoteExtensionHashData → Option Bytes
  marshalCommit : List ExtendedVoteInfo → Option Bytes
  unmarshalCommit : Bytes → Option (List ExtendedVoteInfo)
  vote_read : ∀ data bz, marshalVote data = some bz → k.unmarshalVote bz = some data
  commit_read : ∀ votes bz, marshalCommit votes = some bz → unmarshalCommit bz = some votes

def injectedVoteExtensionPrefix : Bytes := [0x48, 0x4D, 0x56, 0x45]

namespace Codec
variable {k : Keeper} (c : Codec k)

/-- Without a sidecar, or with one that fails, the extension is empty. -/
def extendVote (sidecar : Option SidecarResponse) : Bytes :=
  ((sidecar.bind fetchSidecar).bind c.marshalVote).getD []

/-- A commit with some report goes first among the transactions. -/
def prepareProposalHandler (votes : List ExtendedVoteInfo) (txs : List Bytes) : List Bytes :=
  if votes.any (fun v => decide (v.voteExtension.length > 0)) then
    match c.marshalCommit votes with
    | none => txs
    | some bz => (injectedVoteExtensionPrefix ++ bz) :: txs
  else txs

end Codec

/-- The bytes behind the magic of the first transaction. -/
def injectedData : List Bytes → Option Bytes
  | [] => none
  | tx :: _ =>
    if injectedVoteExtensionPrefix.isPrefixOf tx then some (tx.drop injectedVoteExtensionPrefix.length) else none

namespace Codec
variable {k : Keeper} (c : Codec k)

/-- An injected commit has to parse; whose votes it holds is not looked at. -/
def processProposalHandler (txs : List Bytes) : Bool :=
  match injectedData txs with
  | none => true
  | some bz => (c.unmarshalCommit bz).isSome

/-- The commit that a block brings. -/
def injectedCommit (txs : List Bytes) : Option (List ExtendedVoteInfo) := (injectedData txs).bind c.unmarshalCommit

def processInjectedVoteExtension (order : ∀ t : Tally, IterationOrder t) (height : UInt64) (s : State)
    (txs : List Bytes) : State × List Effect :=
  match c.injectedCommit txs with
  | none => (s, [])
  | some votes => k.processVoteExtensions height s votes (order (k.tallyOf votes))

end Codec

end Terpz.Hashmerchant
