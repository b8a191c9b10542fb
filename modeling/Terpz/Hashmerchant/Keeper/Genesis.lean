import Terpz.Lib.Sha256
import Terpz.Hashmerchant.Keeper.MsgServer
import Terpz.Hashmerchant.Keeper.VoteExt

/-! Genesis import and export, the check of oracle attestations against the registered sources, and the
operations a running module goes through. -/
namespace Terpz.Hashmerchant
open Lib Lib.BigEndian

structure GenesisState where
  params : Params
  registeredChains : List RegisteredChain
  registeredContracts : List RegisteredContract
  escrowRecords : List EscrowRecord
  hashRoots : List HashRoot
  pruneEpoch : UInt64

/-- The chains of a genesis file, in order, each new. -/
def checkChains : List Text → List RegisteredChain → Except Err Unit
  | _, [] => .ok ()
  | seen, c :: cs => do
    failIf (c.chainUid = []) ⟨.invalidChainUid, text "genesis chain has empty chain_uid"⟩
    failIf (c.chainUid ∈ seen) ⟨.chainAlreadyExists, text "duplicate chain_uid " ++ c.chainUid ++ text " in genesis"⟩
    checkChains (c.chainUid :: seen) cs

def GenesisState.validate (gs : GenesisState) : Except Err Unit := do
  gs.params.validate
  checkChains [] gs.registeredChains

theorem checkChains_eq_ok {seen : List Text} {cs : List RegisteredChain} : checkChains seen cs = .ok () ↔
    (∀ c ∈ cs, c.chainUid ≠ [] ∧ c.chainUid ∉ seen) ∧ (cs.map RegisteredChain.chainUid).Nodup := by
  induction cs generalizing seen with
  | nil => simp [checkChains]
  | cons c cs ih =>
    simp only [checkChains, failIf_bind_eq_ok, ih, List.forall_mem_cons, List.map_cons, List.nodup_cons,
      List.mem_map, not_exists, not_and]
    constructor
    · rintro ⟨hne, hnew, hall, hnodup⟩
      refine ⟨⟨⟨hne, hnew⟩, fun d hd => ⟨(hall d hd).1, fun h => (hall d hd).2 (List.mem_cons_of_mem _ h)⟩⟩, ?_, hnodup⟩
      intro d hd he
      exact (hall d hd).2 (he ▸ List.mem_cons_self)
    · rintro ⟨⟨⟨hne, hnew⟩, hall⟩, hfresh, hnodup⟩
      refine ⟨hne, hnew, fun d hd => ⟨(hall d hd).1, ?_⟩, hnodup⟩
      intro h
      rcases List.mem_cons.mp h with he | h
      · exact hfresh d hd he
      · exact (hall d hd).2 h

namespace Keeper
variable (k : Keeper)

/-- Genesis writes a chain to both stores, the sources only when there are some. -/
def initChain (s : State) (c : RegisteredChain) : State :=
  let s := s.setRegisteredChain c
  if c.oracleSources ≠ [] then k.setOracleSources s c.chainUid c.oracleSources else s

def initGenesis (s : State) (gs : GenesisState) : State :=
  let s := s.setParams gs.params
  let s := gs.registeredChains.foldl k.initChain s
  let s := gs.registeredContracts.foldl State.setRegisteredContract s
  let s := gs.escrowRecords.foldl State.setEscrowRecord s
  let s := gs.hashRoots.foldl State.setHashRoot s
  s.setPruneEpoch gs.pruneEpoch

end Keeper

def State.exportGenesis (s : State) : GenesisState where
  params := s.getParams
  registeredChains := s.chains.values
  registeredContracts := s.contracts.values
  escrowRecords := s.escrows.values
  hashRoots := s.hashRoots.values
  pruneEpoch := s.getPruneEpoch

def custodyDomain (scope sourceId : Text) : Bytes :=
  sha256 (text "hashmerchant/custody/" ++ scope ++ text "/" ++ sourceId)

/-- Height and timestamp are appended as little-endian words. -/
def custodyPayload (scope sourceId : Text) (value : Bytes) (height : UInt64) (timestamp : Int64) : Bytes :=
  custodyDomain scope sourceId ++ value ++ (beBytes 8 height.toNat).reverse ++
    (beBytes 8 timestamp.toUInt64.toNat).reverse

def findOracleSource (sources : List OracleSource) (sourceId : Text) : Option OracleSource :=
  sources.find? (fun src => src.sourceId = sourceId ∧ src.enabled = true)

def quoted (t : Text) : Text := text "\"" ++ t ++ text "\""

namespace Keeper
variable (k : Keeper)

def verifyAttestation (sources : List OracleSource) (att : OracleAttestation) : Except Err Unit :=
  match findOracleSource sources att.sourceId with
  | none => .error ⟨.attestation, text "unregistered oracle source " ++ quoted att.sourceId⟩
  | some src =>
    match src.authenticator with
    | none => .error ⟨.attestation, text "source " ++ quoted att.sourceId ++ text " missing custody authenticator"⟩
    | some auth => do
      failIf (auth.algorithm ≠ text "ed25519")
        ⟨.attestation, text "unsupported custody algorithm " ++ quoted auth.algorithm ++ text " for source " ++
          quoted att.sourceId⟩
      failIf (auth.pubkey.length ≠ 32)
        ⟨.attestation, text "invalid custody pubkey length for source " ++ quoted att.sourceId⟩
      failIf (k.ed25519Verify auth.pubkey
          (custodyPayload auth.scope att.sourceId att.value att.height att.timestamp) att.custodySignature = false)
        ⟨.attestation, text "custody signature verification failed for source " ++ quoted att.sourceId⟩

/-- No attestations pass without a look at the sources. -/
def verifyOracleAttestations (s : State) (chainUid : Text) (atts : List OracleAttestation) : Except Err Unit :=
  if atts = [] then .ok ()
  else do
    let sources ← k.getOracleSources s chainUid
    atts.forM (k.verifyAttestation sources)

/-- What changes the state of a running module. -/
inductive Operation where
  | message (d : Delivery)
  | endBlock (height : UInt64)
  | preBlock (height : UInt64) (votes : List ExtendedVoteInfo) (order : IterationOrder (k.tallyOf votes))

def operate (s : State) : k.Operation → State
  | .message d => k.deliver s d
  | .endBlock height => s.endBlocker height
  | .preBlock height votes order => (k.processVoteExtensions height s votes order).1

end Keeper
end Terpz.Hashmerchant
