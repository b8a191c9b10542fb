import Terpz.Leanval.CometView

/-! The genesis file a node writes of itself, and the node that starts from a file. The file lists the
rows of the set bits; the powers already sent and the bound verifier are not in it. -/
namespace Terpz.Leanval.Keeper
open Lib Lib.PrefixStore

/-- The genesis state with the module verifier it binds. -/
structure GenesisFile extends GenesisState where
  verifierAddr : Bytes
  leanCodeId : UInt64
  deriving DecidableEq, Repr

def defaultLeanZkId : UInt64 := 1

/-- A node: its chain, the verifier it holds in memory and the period length of its process. -/
structure Node where
  chain : Chain
  verifierAcc : Bytes
  leanZkId : UInt64
  liveBlocksPerPeriod : Int64

namespace Node

def setModuleVerifier (n : Node) (addr : Bytes) (zkid : UInt64) : Node :=
  { n with verifierAcc := addr, leanZkId := if zkid = 0 then defaultLeanZkId else zkid }

def setBlocksPerPeriod (n : Node) (v : Int64) : Node :=
  { n with liveBlocksPerPeriod := if v ≤ 0 then blocksPerPeriod else v }

def blocksPerPeriodLive (n : Node) : Int64 :=
  if n.liveBlocksPerPeriod ≤ 0 then blocksPerPeriod else n.liveBlocksPerPeriod

/-- The period length of the process follows the one in the store. -/
def bindContext (n : Node) : Node :=
  if 8 ≤ (get n.chain.store periodParamKey).length then
    n.setBlocksPerPeriod (getI64 (get n.chain.store periodParamKey))
  else n

def bindVerifier (n : Node) (file : GenesisFile) : Node :=
  if file.verifierAddr.length > 0 then n.setModuleVerifier file.verifierAddr file.leanCodeId else n

/-- `InitGenesis` of a new process over an empty store, and the validator updates of `InitChain`. -/
def start (file : GenesisFile) : Except String Node := do
  let st ← initGenesis ∅ file.toGenesisState
  let n : Node := ⟨initChain st, [], 0, 0⟩
  let n := n.setBlocksPerPeriod (if file.blocksPerPeriod ≤ 0 then blocksPerPeriod else file.blocksPerPeriod)
  .ok (n.bindVerifier file)

def block (h : Host) (n : Node) (b : Block) : Node :=
  { n.bindContext with chain := blockStep h n.chain b }

def exportGenesis (n : Node) : GenesisFile where
  ownsValset := Keeper.ownsValset n.chain.store
  genesisSubjects := (debugSubjectsFromBits n.chain.store).map (fun s => ⟨s.subject, s.weight⟩)
  blocksPerPeriod := n.blocksPerPeriodLive
  verifierAddr := []
  leanCodeId := 0

end Node

section Frame
variable {b : UInt8}

theorem agree_validatorUpdates (hb : b ∉ lastUpdatesPrefix :: lnprTables) (st : Store) (period : UInt64) :
    Agree [b] st (validatorUpdates st period).1 := by
  have hcarry : b ∉ bondedPrefix :: rosterTables := by
    intro hmem
    exact hb (List.mem_cons_of_mem _ (List.mem_cons_of_mem _ (List.mem_cons_of_mem _ hmem)))
  unfold validatorUpdates
  split
  · exact agree_sendUpdates (List.ne_of_not_mem_cons hb) _ _ _
  · exact (agree_bondedSetOrCarry hcarry st period).trans (agree_sendUpdates (List.ne_of_not_mem_cons hb) _ _ _)

theorem agree_blockStep (hb : b ∉ lastUpdatesPrefix :: lnprTables) (h : Host) (c : Chain) (blk : Block) :
    Agree [b] c.store (blockStep h c blk).store :=
  (agree_applyLNPR (List.not_mem_of_not_mem_cons hb) h c.store blk.blob).trans (agree_validatorUpdates hb _ _)

end Frame

theorem ownsValset_eq_of_agree {st st' : Store} (h : Agree [ownsValsetPrefix] st st') :
    ownsValset st = ownsValset st' := by
  rw [ownsValset, ownsValset, h.get_eq (k := ownsValsetKey) (List.prefix_refl _)]

theorem ownsValset_genesis (gs : GenesisState) : ownsValset (genesisStore ∅ gs) = gs.ownsValset := by
  have hseed (st : Store) : Agree [ownsValsetPrefix] st (syncObjectRoots (gs.genesisSubjects.foldl seedSubject st)) :=
    (agree_seedSubjects (by decide) _ _).trans (agree_syncObjectRoots (by decide) _)
  rw [genesisStore, ← ownsValset_eq_of_agree (hseed _), ownsValset, setOwnsValset, get_set, if_pos rfl]
  cases gs.ownsValset <;> rfl

theorem periodParam_genesis (gs : GenesisState) : get (genesisStore ∅ gs) periodParamKey =
    putI64 (if gs.blocksPerPeriod ≤ 0 then blocksPerPeriod else gs.blocksPerPeriod) := by
  have hseed (st : Store) : Agree [periodParamPrefix] st (syncObjectRoots (gs.genesisSubjects.foldl seedSubject st)) :=
    (agree_seedSubjects (by decide) _ _).trans (agree_syncObjectRoots (by decide) _)
  rw [genesisStore, ← (hseed _).get_eq (k := periodParamKey) (List.prefix_refl _), setOwnsValset, get_set,
      if_neg (by decide), get_set, if_pos rfl]

/-- What a file fixes for the whole run of its node: the flag, the period length and the verifier. -/
structure Node.Configured (file : GenesisFile) (n : Node) : Prop where
  owns : ownsValset n.chain.store = file.ownsValset
  stored : get n.chain.store periodParamKey =
    putI64 (if file.blocksPerPeriod ≤ 0 then blocksPerPeriod else file.blocksPerPeriod)
  live : n.liveBlocksPerPeriod = if file.blocksPerPeriod ≤ 0 then blocksPerPeriod else file.blocksPerPeriod
  address : n.verifierAcc = file.verifierAddr
  code : n.leanZkId = if file.verifierAddr = [] then 0
    else if file.leanCodeId = 0 then defaultLeanZkId else file.leanCodeId

theorem periodLength_pos (v : Int64) : ¬ (if v ≤ 0 then blocksPerPeriod else v) ≤ 0 := by
  split
  · decide
  · assumption

namespace Node
variable {file : GenesisFile} {n : Node}

theorem Configured.congr (hn : Configured file n) {n' : Node}
    (howns : Agree [ownsValsetPrefix] n.chain.store n'.chain.store)
    (hperiod : Agree [periodParamPrefix] n.chain.store n'.chain.store)
    (hlive : n'.liveBlocksPerPeriod = n.liveBlocksPerPeriod) (haddr : n'.verifierAcc = n.verifierAcc)
    (hcode : n'.leanZkId = n.leanZkId) : Configured file n' := by
  constructor
  · rw [← ownsValset_eq_of_agree howns, hn.owns]
  · rw [← hperiod.get_eq (k := periodParamKey) (List.prefix_refl _), hn.stored]
  · rw [hlive, hn.live]
  · rw [haddr, hn.address]
  · rw [hcode, hn.code]

/-- Binding the context of a block finds the period length in place. -/
theorem Configured.bindContext (hn : Configured file n) : n.bindContext = n := by
  have hlen : 8 ≤ (get n.chain.store periodParamKey).length := by simp [hn.stored]
  rw [Node.bindContext, if_pos hlen, hn.stored, getI64_putI64, setBlocksPerPeriod, if_neg (periodLength_pos _),
      ← hn.live]

theorem Configured.block (hn : Configured file n) (h : Host) (b : Block) : Configured file (n.block h b) := by
  rw [Node.block, hn.bindContext]
  exact hn.congr (agree_blockStep (by decide) h n.chain b) (agree_blockStep (by decide) h n.chain b) rfl rfl rfl

@[simp] theorem bindVerifier_chain (n : Node) (file : GenesisFile) : (n.bindVerifier file).chain = n.chain := by
  unfold bindVerifier
  split <;> rfl

@[simp] theorem bindVerifier_live (n : Node) (file : GenesisFile) :
    (n.bindVerifier file).liveBlocksPerPeriod = n.liveBlocksPerPeriod := by
  unfold bindVerifier
  split <;> rfl

theorem start_eq_ok (hn : start file = .ok n) : file.toGenesisState.validate = .ok () ∧
    n.chain = initChain (genesisStore ∅ file.toGenesisState) ∧ Configured file n := by
  obtain ⟨st, hst, hn⟩ := bind_eq_ok.mp hn
  obtain ⟨_, hvalid, -⟩ := bind_eq_ok.mp hst
  obtain rfl := initGenesis_eq_ok hst
  cases hn
  have hchain := bindVerifier_chain (setBlocksPerPeriod ⟨initChain (genesisStore ∅ file.toGenesisState), [], 0, 0⟩
    (if file.blocksPerPeriod ≤ 0 then blocksPerPeriod else file.blocksPerPeriod)) file
  have hlive := bindVerifier_live (setBlocksPerPeriod ⟨initChain (genesisStore ∅ file.toGenesisState), [], 0, 0⟩
    (if file.blocksPerPeriod ≤ 0 then blocksPerPeriod else file.blocksPerPeriod)) file
  refine ⟨hvalid, hchain, ?_, ?_, ?_, ?_, ?_⟩
  · rw [hchain]
    exact (ownsValset_eq_of_agree (agree_validatorUpdates (by decide) _ 0)).symm.trans (ownsValset_genesis _)
  · rw [hchain]
    exact ((agree_validatorUpdates (by decide) _ 0).get_eq (k := periodParamKey) (List.prefix_refl _)).symm.trans
      (periodParam_genesis _)
  · rw [hlive, setBlocksPerPeriod, if_neg (periodLength_pos _)]
  · cases haddr : file.verifierAddr <;> simp [bindVerifier, setModuleVerifier, setBlocksPerPeriod, haddr]
  · cases haddr : file.verifierAddr <;> simp [bindVerifier, setModuleVerifier, setBlocksPerPeriod, haddr]

/-- A valid file starts a node. -/
theorem start_of_validate (hvalid : file.toGenesisState.validate = .ok ()) : ∃ n, start file = .ok n := by
  unfold start initGenesis
  rw [hvalid]
  exact ⟨_, rfl⟩

end Node
end Terpz.Leanval.Keeper
