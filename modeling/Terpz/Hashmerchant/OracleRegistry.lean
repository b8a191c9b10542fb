import Terpz.Lib.Run
import Terpz.Hashmerchant.Tally
import Terpz.Hashmerchant.Keeper.Genesis

/-! The two stores that hold the oracle sources of a chain. Genesis writes both, the governance message
writes one; they agree as long as that message brings no sources. -/
namespace Terpz.Hashmerchant
open Lib Lib.BigEndian

/-- The chains and the slots that hold their sources. -/
def State.registry (s : State) : Table RegisteredChain × Table Bytes := (s.chains, s.slots06)

namespace Keeper
variable (k : Keeper)

/-- The encoded sources of a chain decode to the sources. -/
def Decodes (c : RegisteredChain) : Prop :=
  c.oracleSources ≠ [] → k.unmarshalSources (k.marshalSources c.oracleSources) = some c.oracleSources

/-- Contracts are not the authority, so their callbacks leave the chains and their sources alone. -/
def SudoKeepsRegistry : Prop := ∀ s a p, (k.wasmSudo s a p).registry = s.registry

/-- A registration by message names a chain and brings no sources. -/
def BringsNoSources : k.Operation → Prop
  | .message ⟨_, _, .registerChain m⟩ => m.chain.chainUid ≠ [] ∧ m.chain.oracleSources = []
  | _ => True

/-- The slots of prefix 0x06 are those of the registered chains with sources, and the prune epoch. -/
structure Registry (s : State) : Prop where
  keyed : Table.Keyed RegisteredChain.chainUid s.chains
  named : ∀ (uid : Text) (c : RegisteredChain), s.chains[uid]? = some c → uid ≠ []
  decodes : ∀ (uid : Text) (c : RegisteredChain), s.chains[uid]? = some c → k.Decodes c
  held : ∀ (uid : Text) (c : RegisteredChain), s.chains[uid]? = some c →
    s.slots06[uid]? = if c.oracleSources = [] then none else some (k.marshalSources c.oracleSources)
  known : ∀ uid : Text, uid ≠ [] → s.chains[uid]? = none → s.slots06[uid]? = none
  epoch : s.slots06[([] : Text)]? = some (beBytes 8 s.getPruneEpoch.toNat)

variable {k} {s s' : State}

/-- The sources read back are those of the chain record. -/
theorem Registry.getOracleSources (h : k.Registry s) {uid : Text} {c : RegisteredChain} (hc : s.chains[uid]? = some c) :
    k.getOracleSources s uid = .ok c.oracleSources := by
  have hdecodes := h.decodes uid c hc
  rw [Keeper.getOracleSources, h.held uid c hc]
  by_cases hnil : c.oracleSources = []
  · rw [if_pos hnil, hnil]
  · simp only [if_neg hnil, hdecodes hnil]

/-- What the sources depend on: two registries with one set of chains read the same, up to the epoch. -/
theorem Registry.getOracleSources_congr (h : k.Registry s) (h' : k.Registry s') (hchains : s'.chains = s.chains)
    (hepoch : s'.getPruneEpoch = s.getPruneEpoch) (uid : Text) :
    k.getOracleSources s' uid = k.getOracleSources s uid := by
  cases hc : s.chains[uid]? with
  | some c => rw [h.getOracleSources hc, h'.getOracleSources (hchains ▸ hc)]
  | none =>
    by_cases huid : uid = []
    · subst huid
      rw [Keeper.getOracleSources, Keeper.getOracleSources, h.epoch, h'.epoch, hepoch]
    · rw [Keeper.getOracleSources, Keeper.getOracleSources, h.known uid huid hc, h'.known uid huid (hchains ▸ hc)]

/-- The registry is in the chains, the slots and nothing else. -/
theorem Registry.congr (h : k.Registry s) (hsame : s'.registry = s.registry) : k.Registry s' := by
  have hchains : s'.chains = s.chains := congrArg Prod.fst hsame
  have hslots : s'.slots06 = s.slots06 := congrArg Prod.snd hsame
  have hepoch : s'.getPruneEpoch = s.getPruneEpoch := by rw [State.getPruneEpoch, State.getPruneEpoch, hslots]
  constructor
  · rw [hchains]
    exact h.keyed
  · rw [hchains]
    exact h.named
  · rw [hchains]
    exact h.decodes
  · rw [hchains, hslots]
    exact h.held
  · rw [hchains, hslots]
    exact h.known
  · rw [hslots, hepoch]
    exact h.epoch

private theorem foldl_initChain (s : State) (cs : List RegisteredChain) : cs.foldl k.initChain s =
    { s with
      chains := Table.insertAll RegisteredChain.chainUid id s.chains cs
      slots06 := Table.insertAll RegisteredChain.chainUid (fun c => k.marshalSources c.oracleSources) s.slots06
        (cs.filter (fun c => c.oracleSources ≠ [])) } := by
  induction cs generalizing s with
  | nil => rfl
  | cons c cs ih =>
    rw [List.foldl_cons, ih]
    by_cases hc : c.oracleSources = []
    · rw [List.filter_cons_of_neg (by simp [hc]), initChain, if_neg (not_not.mpr hc)]
      rfl
    · rw [List.filter_cons_of_pos (by simp [hc]), initChain, if_pos hc]
      rfl

/-- What genesis leaves in the two stores. -/
theorem initGenesis_registry (s : State) (gs : GenesisState) : (k.initGenesis s gs).registry =
    (Table.insertAll RegisteredChain.chainUid id s.chains gs.registeredChains,
      (Table.insertAll RegisteredChain.chainUid (fun c => k.marshalSources c.oracleSources) s.slots06
        (gs.registeredChains.filter (fun c => c.oracleSources ≠ []))).insert [] (beBytes 8 gs.pruneEpoch.toNat)) := by
  have hrest : ∀ t : State, (gs.hashRoots.foldl State.setHashRoot (gs.escrowRecords.foldl State.setEscrowRecord
      (gs.registeredContracts.foldl State.setRegisteredContract t))).registry = t.registry := by
    intro t
    rw [foldl_frame State.setHashRoot State.registry (fun _ _ => rfl),
      foldl_frame State.setEscrowRecord State.registry (fun _ _ => rfl),
      foldl_frame State.setRegisteredContract State.registry (fun _ _ => rfl)]
  have hchains := hrest (gs.registeredChains.foldl k.initChain (s.setParams gs.params))
  rw [foldl_initChain] at hchains
  simp only [initGenesis, State.setPruneEpoch, foldl_initChain]
  simp only [State.registry, Prod.mk.injEq] at hchains ⊢
  rw [hchains.1, hchains.2]
  exact ⟨rfl, rfl⟩

private theorem toNat_epoch (n : UInt64) : UInt64.ofNat (beNat ((beBytes 8 n.toNat).take 8)) = n := by
  have hlen : (beBytes 8 n.toNat).length ≤ 8 := by simp
  rw [List.take_of_length_le hlen, beNat_beBytes, Nat.mod_eq_of_lt (by have := n.toNat_lt; omega), UInt64.ofNat_toNat]

/-- A genesis file with named and distinct chains leaves a registry. -/
theorem Registry.initGenesis {gs : GenesisState} (hnames : ∀ c ∈ gs.registeredChains, c.chainUid ≠ [])
    (hnodup : (gs.registeredChains.map RegisteredChain.chainUid).Nodup)
    (hdecodes : ∀ c ∈ gs.registeredChains, k.Decodes c) : k.Registry (k.initGenesis State.empty gs) := by
  have hreg := k.initGenesis_registry State.empty gs
  have hchains : (k.initGenesis State.empty gs).chains =
    Table.insertAll RegisteredChain.chainUid id ∅ gs.registeredChains := congrArg Prod.fst hreg
  have hslots : (k.initGenesis State.empty gs).slots06 = (Table.insertAll RegisteredChain.chainUid
    (fun c => k.marshalSources c.oracleSources) ∅ (gs.registeredChains.filter (fun c => c.oracleSources ≠ []))).insert
      [] (beBytes 8 gs.pruneEpoch.toNat) := congrArg Prod.snd hreg
  have hmem : ∀ (uid : Text) (c : RegisteredChain), (k.initGenesis State.empty gs).chains[uid]? = some c ↔
      c ∈ gs.registeredChains ∧ c.chainUid = uid := by
    intro uid c
    rw [hchains, Table.getElem?_insertAll_empty _ _ hnodup]
    constructor
    · rintro ⟨x, hx, hkey, rfl⟩
      exact ⟨hx, hkey⟩
    · rintro ⟨hc, hkey⟩
      exact ⟨c, hc, hkey, rfl⟩
  have hnodup' : ((gs.registeredChains.filter (fun c => c.oracleSources ≠ [])).map RegisteredChain.chainUid).Nodup :=
    hnodup.sublist (List.filter_sublist.map _)
  have hslot : ∀ (uid : Text) (bz : Bytes), uid ≠ [] →
      ((k.initGenesis State.empty gs).slots06[uid]? = some bz ↔ ∃ c ∈ gs.registeredChains,
        c.oracleSources ≠ [] ∧ c.chainUid = uid ∧ k.marshalSources c.oracleSources = bz) := by
    intro uid bz huid
    rw [hslots, Table.getElem?_insert, if_neg huid.symm, Table.getElem?_insertAll_empty _ _ hnodup']
    simp only [List.mem_filter, decide_eq_true_eq, and_assoc]
  constructor
  · rw [hchains]
    exact Table.Keyed.empty.insertAll _
  · intro uid c hc
    obtain ⟨hin, rfl⟩ := (hmem uid c).mp hc
    exact hnames c hin
  · intro uid c hc
    exact hdecodes c ((hmem uid c).mp hc).1
  · intro uid c hc
    obtain ⟨hin, rfl⟩ := (hmem uid c).mp hc
    split
    · next hnil =>
      apply Option.eq_none_iff_forall_ne_some.mpr
      intro bz hbz
      obtain ⟨d, hd, hne, hkey, -⟩ := (hslot _ bz (hnames c hin)).mp hbz
      have hsame : some d = some c := ((hmem _ d).mpr ⟨hd, hkey⟩).symm.trans hc
      cases hsame
      exact hne hnil
    · next hne => exact (hslot _ _ (hnames c hin)).mpr ⟨c, hin, hne, rfl, rfl⟩
  · intro uid huid hnone
    apply Option.eq_none_iff_forall_ne_some.mpr
    intro bz hbz
    obtain ⟨d, hd, -, hkey, -⟩ := (hslot uid bz huid).mp hbz
    rw [(hmem uid d).mpr ⟨hd, hkey⟩] at hnone
    cases hnone
  · have hzero : (k.initGenesis State.empty gs).slots06[([] : Text)]? = some (beBytes 8 gs.pruneEpoch.toNat) := by
      rw [hslots, Table.getElem?_insert, if_pos rfl]
    rw [State.getPruneEpoch, hzero]
    simp only [toNat_epoch]

/-- Exporting a registry and importing the result restores it. -/
theorem Registry.reimport (h : k.Registry s) : k.Registry (k.initGenesis State.empty s.exportGenesis) ∧
    (k.initGenesis State.empty s.exportGenesis).chains = s.chains ∧
    (k.initGenesis State.empty s.exportGenesis).getPruneEpoch = s.getPruneEpoch := by
  have hmem : ∀ c ∈ s.exportGenesis.registeredChains, ∃ uid : Text, s.chains[uid]? = some c :=
    fun c hc => Table.mem_values.mp hc
  have hreg := k.initGenesis_registry State.empty s.exportGenesis
  refine ⟨Registry.initGenesis ?_ h.keyed.values_nodup ?_, ?_, ?_⟩
  · intro c hc
    obtain ⟨uid, huid⟩ := hmem c hc
    rw [h.keyed uid c huid]
    exact h.named uid c huid
  · intro c hc
    obtain ⟨uid, huid⟩ := hmem c hc
    exact h.decodes uid c huid
  · exact (congrArg Prod.fst hreg).trans h.keyed.insertAll_values
  · have hslots := congrArg Prod.snd hreg
    simp only [State.registry] at hslots
    rw [State.getPruneEpoch, hslots, Table.getElem?_insert, if_pos rfl]
    exact toNat_epoch _

private theorem Registry.setPruneEpoch (h : k.Registry s) (height : UInt64) : k.Registry (s.setPruneEpoch height) := by
  have hother : ∀ uid : Text, uid ≠ [] → (s.setPruneEpoch height).slots06[uid]? = s.slots06[uid]? := by
    intro uid huid
    rw [State.setPruneEpoch, Table.getElem?_insert, if_neg huid.symm]
  constructor
  · exact h.keyed
  · exact h.named
  · exact h.decodes
  · intro uid c hc
    rw [hother uid (h.named uid c hc)]
    exact h.held uid c hc
  · intro uid huid hnone
    rw [hother uid huid]
    exact h.known uid huid hnone
  · have hzero : (s.setPruneEpoch height).slots06[([] : Text)]? = some (beBytes 8 height.toNat) := by
      rw [State.setPruneEpoch, Table.getElem?_insert, if_pos rfl]
    rw [State.getPruneEpoch, hzero]
    simp only [toNat_epoch]

/-- A chain registered by message without sources finds no slot of its own. -/
private theorem Registry.setRegisteredChain (h : k.Registry s) {c : RegisteredChain}
    (hnew : s.chains[c.chainUid]? = none)
    (hname : c.chainUid ≠ []) (hnil : c.oracleSources = []) : k.Registry (s.setRegisteredChain c) := by
  have hcases : ∀ (uid : Text) (d : RegisteredChain), (s.setRegisteredChain c).chains[uid]? = some d →
      uid = c.chainUid ∧ d = c ∨ s.chains[uid]? = some d := by
    intro uid d hd
    rw [State.setRegisteredChain, Table.getElem?_insert] at hd
    split at hd
    · next huid => exact .inl ⟨huid.symm, (Option.some.inj hd).symm⟩
    · exact .inr hd
  constructor
  · exact h.keyed.insert c
  · intro uid d hd
    rcases hcases uid d hd with ⟨rfl, -⟩ | hd
    · exact hname
    · exact h.named uid d hd
  · intro uid d hd
    rcases hcases uid d hd with ⟨-, rfl⟩ | hd
    · exact fun hne => absurd hnil hne
    · exact h.decodes uid d hd
  · intro uid d hd
    rcases hcases uid d hd with ⟨rfl, rfl⟩ | hd
    · rw [if_pos hnil]
      exact h.known _ hname hnew
    · exact h.held uid d hd
  · intro uid huid hnone
    rw [State.setRegisteredChain, Table.getElem?_insert] at hnone
    split at hnone
    · cases hnone
    · exact h.known uid huid hnone
  · exact h.epoch

private theorem Registry.operate (hk : k.SudoKeepsRegistry) (h : k.Registry s) {op : k.Operation}
    (hop : k.BringsNoSources op) : k.Registry (k.operate s op) := by
  refine k.operate_invariant h ?_ (fun t c ht => ht.congr rfl) (fun t height ht => ht.setPruneEpoch height)
    (fun t r ht => ht.congr rfl) (fun t a p ht => ht.congr (hk t a p))
  rintro ⟨height, basic, msg⟩ s' rfl hok
  cases msg with
  | registerChain m =>
    obtain ⟨hnew, rfl⟩ := registerChain_ok hok
    exact h.setRegisteredChain hnew hop.1 hop.2
  | registerContract m =>
    obtain ⟨periods, -, rfl⟩ := registerContract_ok hok
    exact h.congr rfl
  | refillEscrow m =>
    obtain ⟨record, periods, -, -, -, rfl⟩ := refillEscrow_ok hok
    exact h.congr rfl
  | updateParams m =>
    obtain ⟨-, rfl⟩ := updateParams_ok hok
    exact h.congr rfl

/-- Both stores name the same sources for every registered chain, and survive an export and import, with
the same verdict on every attestation. -/
structure SourcesMatch (k : Keeper) (s : State) : Prop where
  agree : ∀ (uid : Text) (c : RegisteredChain), s.chains[uid]? = some c →
    k.getOracleSources s uid = .ok c.oracleSources
  chains : (k.initGenesis State.empty s.exportGenesis).chains = s.chains
  sources : ∀ uid, k.getOracleSources (k.initGenesis State.empty s.exportGenesis) uid = k.getOracleSources s uid
  verdicts : ∀ uid atts, k.verifyOracleAttestations (k.initGenesis State.empty s.exportGenesis) uid atts =
    k.verifyOracleAttestations s uid atts

/-- From a valid genesis file, the stores match after every run in which no message brings sources. -/
theorem oracle_sources_match_chains (k : Keeper) (hk : k.SudoKeepsRegistry) (gs : GenesisState)
    (hgs : gs.validate = .ok ()) (hdecodes : ∀ c ∈ gs.registeredChains, k.Decodes c) (ops : List k.Operation)
    (hops : ∀ op ∈ ops, k.BringsNoSources op) :
    k.SourcesMatch (run k.operate (k.initGenesis State.empty gs) ops) := by
  obtain ⟨_, -, hchains⟩ := bind_eq_ok.mp hgs
  obtain ⟨hnames, hnodup⟩ := checkChains_eq_ok.mp hchains
  have hstart : k.Registry (k.initGenesis State.empty gs) :=
    Registry.initGenesis (fun c hc => (hnames c hc).1) hnodup hdecodes
  have halong : Along k.operate (fun _ op => k.BringsNoSources op) (k.initGenesis State.empty gs) ops :=
    Along.of_forall_mem (fun op hop _ => hops op hop) _
  have hrun : k.Registry (run k.operate (k.initGenesis State.empty gs) ops) :=
    halong.invariant (fun _ _ h hop => h.operate hk hop) hstart
  obtain ⟨hagain, hsame, hepoch⟩ := hrun.reimport
  have hsources := hrun.getOracleSources_congr hagain hsame hepoch
  refine ⟨fun uid c hc => hrun.getOracleSources hc, hsame, hsources, fun uid atts => ?_⟩
  rw [verifyOracleAttestations, verifyOracleAttestations, hsources uid]

end Keeper

/-- A genesis with one chain and its source. -/
def sampleGenesis : GenesisState :=
  ⟨defaultParams, [{ sampleChain with oracleSources := [sampleSource] }], [], [], [], 0⟩

def sampleRegisterChain (chain : RegisteredChain) : sampleKeeper.Operation :=
  .message ⟨1, true, .registerChain ⟨govAuthority, chain⟩⟩

/-- A second chain without sources, registered by message. -/
theorem sources_match_after_plain_registration :
    sampleKeeper.SourcesMatch (run sampleKeeper.operate (sampleKeeper.initGenesis State.empty sampleGenesis)
      [sampleRegisterChain { sampleChain with chainUid := text "d" }, .endBlock 2000]) := by
  apply Keeper.oracle_sources_match_chains sampleKeeper (fun _ _ _ => rfl) sampleGenesis (by decide +kernel)
  · intro c hc _
    rw [List.mem_singleton.mp hc]
    decide +kernel
  · intro op hop
    rcases List.mem_cons.mp hop with rfl | hop
    · exact ⟨by decide +kernel, rfl⟩
    · rw [List.mem_singleton.mp hop]
      trivial

/-- A chain registered by message with a source: the record has it, the source store does not, and an
export and import brings it in. -/
theorem registered_sources_missing :
    let s := run sampleKeeper.operate (sampleKeeper.initGenesis State.empty ⟨defaultParams, [], [], [], [], 0⟩)
      [sampleRegisterChain { sampleChain with oracleSources := [sampleSource] }]
    s.chains[text "c"]?.map RegisteredChain.oracleSources = some [sampleSource] ∧
    (sampleKeeper.getOracleSources s (text "c")).toOption = some [] ∧
    (sampleKeeper.getOracleSources (sampleKeeper.initGenesis State.empty s.exportGenesis) (text "c")).toOption =
      some [sampleSource] := by
  decide +kernel

end Terpz.Hashmerchant
