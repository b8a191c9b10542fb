import Terpz.Hashmerchant.Types

/-! The module store, one table a key prefix, with the bank balances the module moves. The prefix
0x06 is shared: the empty rest of the key holds the prune epoch, the others oracle sources. -/
namespace Terpz.Hashmerchant
open Lib Lib.BigEndian

structure State where
  params : Option Params
  chains : Table RegisteredChain
  contracts : Table RegisteredContract
  escrows : Table EscrowRecord
  hashRoots : Table HashRoot
  slots06 : Table Bytes
  balances : Bytes → Text → Int

/-- What the keeper is built with: codecs, address parsing, bank, wasm and signature checks. -/
structure Keeper where
  authority : Text
  moduleAddress : Bytes
  unmarshalVote : Bytes → Option VoteExtensionHashData
  unmarshalBundle : Bytes → Option (List OracleAttestation)
  marshalSources : List OracleSource → Bytes
  unmarshalSources : Bytes → Option (List OracleSource)
  accAddressFromBech32 : Text → Option Bytes
  validDenom : Text → Bool
  sendRefused : State → Bytes → Coin → Bool
  wasmSudo : State → Bytes → SudoPayload → State
  ed25519Verify : Bytes → Bytes → Bytes → Bool

namespace State

def empty : State := ⟨none, ∅, ∅, ∅, ∅, ∅, fun _ _ => 0⟩

def getParams (s : State) : Params := s.params.getD defaultParams

def setParams (s : State) (p : Params) : State := { s with params := some p }

def setRegisteredChain (s : State) (c : RegisteredChain) : State :=
  { s with chains := s.chains.insert c.chainUid c }

def getRegisteredChain (s : State) (chainUid : Text) : Except Err RegisteredChain :=
  match s.chains[chainUid]? with
  | none => .error ⟨.chainNotFound, text "chain_uid: " ++ chainUid⟩
  | some c => .ok c

theorem getRegisteredChain_eq_ok {s : State} {chainUid : Text} {c : RegisteredChain} :
    s.getRegisteredChain chainUid = .ok c ↔ s.chains[chainUid]? = some c := by
  unfold getRegisteredChain
  split <;> simp_all

def hasRegisteredChain (s : State) (chainUid : Text) : Bool := s.chains.contains chainUid

def setRegisteredContract (s : State) (c : RegisteredContract) : State :=
  { s with contracts := s.contracts.insert c.contractAddr c }

def getRegisteredContract (s : State) (contractAddr : Text) : Except Err RegisteredContract :=
  match s.contracts[contractAddr]? with
  | none => .error ⟨.contractNotFound, text "contract: " ++ contractAddr⟩
  | some c => .ok c

theorem getRegisteredContract_eq_ok {s : State} {addr : Text} {c : RegisteredContract} :
    s.getRegisteredContract addr = .ok c ↔ s.contracts[addr]? = some c := by
  unfold getRegisteredContract
  split <;> simp_all

def setEscrowRecord (s : State) (r : EscrowRecord) : State :=
  { s with escrows := s.escrows.insert r.contractAddr r }

def getEscrowRecord (s : State) (contractAddr : Text) : Except Err EscrowRecord :=
  match s.escrows[contractAddr]? with
  | none => .error ⟨.escrowNotFound, text "contract: " ++ contractAddr⟩
  | some r => .ok r

theorem getEscrowRecord_eq_ok {s : State} {addr : Text} {r : EscrowRecord} :
    s.getEscrowRecord addr = .ok r ↔ s.escrows[addr]? = some r := by
  unfold getEscrowRecord
  split <;> simp_all

def keyHashRoot (chainUid algo : Text) : Text := chainUid ++ text "|" ++ algo

def setHashRoot (s : State) (r : HashRoot) : State :=
  { s with hashRoots := s.hashRoots.insert (keyHashRoot r.chainUid r.algo) r }

def getHashRoot (s : State) (chainUid algo : Text) : Except Err HashRoot :=
  match s.hashRoots[keyHashRoot chainUid algo]? with
  | none => .error ⟨.hashRootNotFound, text "chain=" ++ chainUid ++ text " algo=" ++ algo⟩
  | some r => .ok r

/-- The roots a callback that never stops is called with. -/
def iterateHashRoots (s : State) (chainUid : Text) : List HashRoot :=
  (s.hashRoots.toList.filter (fun e => (chainUid ++ text "|").isPrefixOf e.1)).map Prod.snd

/-- The first eight bytes of the slot, big endian. -/
def getPruneEpoch (s : State) : UInt64 :=
  match s.slots06[([] : Text)]? with
  | none => 0
  | some bz => UInt64.ofNat (beNat (bz.take 8))

def setPruneEpoch (s : State) (height : UInt64) : State :=
  { s with slots06 := s.slots06.insert [] (beBytes 8 height.toNat) }

end State

namespace Keeper
variable (k : Keeper)

def setOracleSources (s : State) (chainUid : Text) (sources : List OracleSource) : State :=
  { s with slots06 := s.slots06.insert chainUid (k.marshalSources sources) }

def getOracleSources (s : State) (chainUid : Text) : Except Err (List OracleSource) :=
  match s.slots06[chainUid]? with
  | none => .ok []
  | some bz =>
    match k.unmarshalSources bz with
    | none => .error ⟨.decoding, []⟩
    | some sources => .ok sources

end Keeper

/-! A keeper to evaluate the model with: codecs and address parsing as they act on a few inputs. -/

def accountA : Text := text "terp1qyqszqgpqyqszqgpqyqszqgpqyqszqgp4egj80"

def contractA : Text := text "terp1pyysjzgfpyysjzgfpyysjzgfpyysjzgfpyysjzgfpyysjzgfpyysqqv7yl"

/-- The wire form of a vote for chain `c`, algorithm `a` and a root of one byte. -/
def rootExtension (root : UInt8) : Bytes := [18, 1, 99, 26, 1, 97, 34, 1, root]

def sampleSource : OracleSource := ⟨text "s", 0, [], [], none, true⟩

/-- The stored form of a list with the sample source. -/
def sampleSourceJson : Bytes := text "[\x7b\"source_id\":\"s\",\"enabled\":true\x7d]"

def govAuthority : Text := text "terp10d07y265gmmuvt4z0w9aw880jnsr700jag6fuq"

def sampleKeeper : Keeper where
  authority := govAuthority
  moduleAddress := [112, 4, 154, 224, 107, 69, 59, 109, 76, 20, 22, 51, 245, 206, 153, 199, 49, 178, 135, 69]
  unmarshalVote
    | [18, 1, 99, 26, 1, 97, 34, 1, root] => some ⟨text "c", text "a", [root], 0, 0, [], []⟩
    | _ => none
  unmarshalBundle _ := none
  marshalSources sources := if sources = [sampleSource] then sampleSourceJson else text "[]"
  unmarshalSources bz :=
    if bz = sampleSourceJson then some [sampleSource] else if bz = text "[]" then some [] else none
  accAddressFromBech32 t :=
    if t = accountA then some (List.replicate 20 1)
    else if t = contractA then some (List.replicate 32 9)
    else if t = govAuthority then
      some [123, 95, 226, 43, 84, 70, 247, 198, 46, 162, 123, 139, 215, 28, 239, 148, 224, 63, 61, 242]
    else none
  validDenom d := d = text "uterp"
  sendRefused _ _ _ := false
  wasmSudo s _ _ := s
  ed25519Verify _ _ _ := false

end Terpz.Hashmerchant
