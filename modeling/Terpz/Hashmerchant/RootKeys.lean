import Terpz.Lib.Run
import Terpz.Lib.Separated
import Terpz.Hashmerchant.VisitOrder
import Terpz.Hashmerchant.Keeper.Genesis

/-! The store keys of hash roots. A chain and an algorithm are joined by a bar that both may contain, and the same bar
ends the prefix under which the roots of a chain are listed. -/
namespace Terpz.Hashmerchant
open Lib

/-- ASCII "|". -/
def bar : UInt8 := 124

/-- A root of another chain that lies under the prefix of `uid`: its chain goes on behind the bar, or it is a shorter
chain with the rest of `uid` in its algorithm. -/
def HashRoot.Intrudes (uid : Text) (r : HashRoot) : Prop :=
  (∃ w, r.chainUid = joined bar uid w) ∨ ∃ w rest, uid = joined bar r.chainUid w ∧ r.algo = joined bar w rest

def HashRoot.key (r : HashRoot) : Text := State.keyHashRoot r.chainUid r.algo

/-- Two pairs do not share a key, a write for the first leaves the second alone, and the roots listed for the first
chain are those of that chain. -/
structure State.RootsApart (s : State) (chainUid algo chainUid' algo' : Text) : Prop where
  key : State.keyHashRoot chainUid algo = State.keyHashRoot chainUid' algo' → chainUid = chainUid' ∧ algo = algo'
  write : ∀ r : HashRoot, r.chainUid = chainUid → r.algo = algo → ¬ (chainUid = chainUid' ∧ algo = algo') →
    (s.setHashRoot r).getHashRoot chainUid' algo' = s.getHashRoot chainUid' algo'
  listed : s.iterateHashRoots chainUid = s.hashRoots.values.filter (fun r => r.chainUid = chainUid)

section Keys
variable {s : State} {chainUid algo chainUid' algo' : Text}

private theorem text_bar : text "|" = [bar] := by decide +kernel

theorem keyHashRoot_eq (chainUid algo : Text) : State.keyHashRoot chainUid algo = joined bar chainUid algo := by
  rw [State.keyHashRoot, joined, text_bar, List.append_assoc, List.singleton_append]

/-- Another pair has the same key exactly if it is cut at another bar. -/
theorem keyHashRoot_inj_iff :
    (State.keyHashRoot chainUid algo = State.keyHashRoot chainUid' algo' → chainUid = chainUid' ∧ algo = algo') ↔
      ¬ CutLater bar chainUid algo chainUid' algo' ∧ ¬ CutLater bar chainUid' algo' chainUid algo := by
  rw [keyHashRoot_eq, keyHashRoot_eq, joined_eq_iff]
  constructor
  · intro h
    exact ⟨fun hcut => hcut.ne (h (.inr (.inl hcut))).1, fun hcut => hcut.ne (h (.inr (.inr hcut))).1.symm⟩
  · rintro ⟨h, h'⟩ (hsame | hcut | hcut)
    · exact hsame
    · exact absurd hcut h
    · exact absurd hcut h'

theorem getHashRoot_setHashRoot_of_ne {r : HashRoot} (h : r.key ≠ State.keyHashRoot chainUid algo) :
    (s.setHashRoot r).getHashRoot chainUid algo = s.getHashRoot chainUid algo := by
  have hget : (s.setHashRoot r).hashRoots[State.keyHashRoot chainUid algo]? =
      s.hashRoots[State.keyHashRoot chainUid algo]? := by
    rw [State.setHashRoot, Table.getElem?_insert]
    exact if_neg h
  rw [State.getHashRoot, State.getHashRoot, hget]

/-- A root lies under the prefix of a chain if it is of the chain or intrudes. -/
theorem prefix_key_iff {r : HashRoot} :
    (chainUid ++ text "|").isPrefixOf r.key = true ↔ r.chainUid = chainUid ∨ r.Intrudes chainUid := by
  rw [List.isPrefixOf_iff_prefix, HashRoot.key, keyHashRoot_eq, text_bar, prefix_joined_iff, HashRoot.Intrudes,
    eq_comm (a := chainUid)]

theorem HashRoot.Intrudes.ne {r : HashRoot} (h : r.Intrudes chainUid) : r.chainUid ≠ chainUid := by
  intro he
  rcases h with ⟨w, hw⟩ | ⟨w, _, hw, -⟩
  · have hlen := congrArg List.length (he.symm.trans hw)
    simp [joined] at hlen
  · have hlen := congrArg List.length (he.trans hw)
    simp [joined] at hlen

/-- With every root under its own key, the roots listed for a chain are its own exactly if none intrudes. -/
theorem listed_iff (hs : Table.Keyed HashRoot.key s.hashRoots) :
    s.iterateHashRoots chainUid = s.hashRoots.values.filter (fun r => r.chainUid = chainUid) ↔
      ∀ r ∈ s.hashRoots.values, ¬ r.Intrudes chainUid := by
  have hkey : ∀ e ∈ s.hashRoots.toList, e.2.key = e.1 := fun e he =>
    hs e.1 e.2 (Std.ExtTreeMap.mem_toList_iff_getElem?_eq_some.mp he)
  have hvalues : s.hashRoots.values.filter (fun r => r.chainUid = chainUid) =
      (s.hashRoots.toList.filter (fun e => e.2.chainUid = chainUid)).map Prod.snd := by
    rw [Table.values, List.filter_map]
    rfl
  constructor
  · intro h r hr hintrudes
    obtain ⟨e, he, rfl⟩ := List.mem_map.mp hr
    have hunder : (chainUid ++ text "|").isPrefixOf e.1 = true := by
      rw [← hkey e he]
      exact prefix_key_iff.mpr (.inr hintrudes)
    have hlisted : e.2 ∈ s.iterateHashRoots chainUid :=
      List.mem_map_of_mem (List.mem_filter.mpr ⟨he, hunder⟩)
    rw [h, List.mem_filter, decide_eq_true_eq] at hlisted
    exact hintrudes.ne hlisted.2
  · intro h
    rw [hvalues, State.iterateHashRoots]
    congr 1
    apply List.filter_congr
    intro e he
    have hnone := h e.2 (List.mem_map_of_mem he)
    rw [Bool.eq_iff_iff, ← hkey e he, prefix_key_iff, decide_eq_true_eq]
    exact or_iff_left hnone

end Keys

namespace Keeper
variable {k : Keeper} {s : State}

/-- No message writes a root. -/
theorem hashRoots_of_handle {height : UInt64} {msg : Msg} {s' : State}
    (hok : k.handle height s msg = .ok s') : s'.hashRoots = s.hashRoots := by
  cases msg with
  | registerChain m =>
    obtain ⟨-, rfl⟩ := registerChain_ok hok
    rfl
  | registerContract m =>
    obtain ⟨periods, -, rfl⟩ := registerContract_ok hok
    rfl
  | refillEscrow m =>
    obtain ⟨record, periods, -, -, -, rfl⟩ := refillEscrow_ok hok
    rfl
  | updateParams m =>
    obtain ⟨-, rfl⟩ := updateParams_ok hok
    rfl

private theorem rootsKeyed_operate (hk : k.SudoKeepsRoots) (h : Table.Keyed HashRoot.key s.hashRoots)
    (op : k.Operation) : Table.Keyed HashRoot.key (k.operate s op).hashRoots := by
  refine k.operate_invariant (I := fun t => Table.Keyed HashRoot.key t.hashRoots) h ?_ (fun _ _ ht => ht)
    (fun _ _ ht => ht) (fun _ r ht => ht.insert r) (fun t a p ht => by rw [hk t a p]; exact ht)
  intro d s' _ hok
  rw [hashRoots_of_handle hok]
  exact h

private theorem rootsKeyed_initGenesis (gs : GenesisState) :
    Table.Keyed HashRoot.key (k.initGenesis State.empty gs).hashRoots := by
  refine List.foldlRecOn (motive := fun t : State => Table.Keyed HashRoot.key t.hashRoots) _ _ ?_
    (fun _ ht r _ => ht.insert r)
  rw [foldl_frame State.setEscrowRecord State.hashRoots (fun _ _ => rfl),
    foldl_frame State.setRegisteredContract State.hashRoots (fun _ _ => rfl)]
  rw [foldl_frame k.initChain State.hashRoots]
  · exact Table.Keyed.empty
  · intro t c
    unfold initChain
    split <;> rfl

/-- In every reachable state two pairs are kept apart exactly if neither is the other cut at a later bar and no stored
root of another chain lies under the prefix of the first chain. -/
theorem hash_roots_apart_iff (k : Keeper) (hk : k.SudoKeepsRoots) (gs : GenesisState) (ops : List k.Operation)
    (chainUid algo chainUid' algo' : Text) :
    (run k.operate (k.initGenesis State.empty gs) ops).RootsApart chainUid algo chainUid' algo' ↔
      (¬ CutLater bar chainUid algo chainUid' algo' ∧ ¬ CutLater bar chainUid' algo' chainUid algo) ∧
      ∀ r ∈ (run k.operate (k.initGenesis State.empty gs) ops).hashRoots.values, ¬ r.Intrudes chainUid := by
  have hkeyed : Table.Keyed HashRoot.key (run k.operate (k.initGenesis State.empty gs) ops).hashRoots :=
    List.foldlRecOn (motive := fun t : State => Table.Keyed HashRoot.key t.hashRoots) _ _ (rootsKeyed_initGenesis gs)
      (fun _ ht op _ => rootsKeyed_operate hk ht op)
  constructor
  · intro h
    exact ⟨keyHashRoot_inj_iff.mp h.key, (listed_iff hkeyed).mp h.listed⟩
  · rintro ⟨hcut, hnone⟩
    have hinj := keyHashRoot_inj_iff.mpr hcut
    refine ⟨hinj, ?_, (listed_iff hkeyed).mpr hnone⟩
    rintro r rfl rfl hne
    exact getHashRoot_setHashRoot_of_ne (fun he => hne (hinj he))

end Keeper

/-- A keeper that reads votes for two pairs, with a root of one byte. -/
def barKeeper : Keeper :=
  { sampleKeeper with
    unmarshalVote := fun
      | [18, 3, 97, 124, 98, 26, 1, 99, 34, 1, root] => some ⟨text "a|b", text "c", [root], 0, 0, [], []⟩
      | [18, 1, 97, 26, 3, 98, 124, 99, 34, 1, root] => some ⟨text "a", text "b|c", [root], 0, 0, [], []⟩
      | _ => none }

/-- A block in which one validator votes. -/
def barBlock (extension : Bytes) : barKeeper.Operation :=
  .preBlock 1 [⟨[1], 10, extension⟩] (IterationOrder.asStored _)

def barGenesis : GenesisState := ⟨defaultParams, [], [], [], [], 0⟩

/-- The first pair confirmed alone is kept apart from a pair with another key. -/
theorem lone_bar_pair_apart :
    (run barKeeper.operate (barKeeper.initGenesis State.empty barGenesis)
      [barBlock [18, 3, 97, 124, 98, 26, 1, 99, 34, 1, 7]]).RootsApart (text "a|b") (text "c") (text "a")
        (text "c") := by
  refine (Keeper.hash_roots_apart_iff barKeeper (fun _ _ _ => rfl) barGenesis _ _ _ _ _).mpr ⟨⟨?_, ?_⟩, ?_⟩
  · rintro ⟨w, -, hw⟩
    have hlen := congrArg List.length hw
    have hc : (text "c").length = 1 := by decide +kernel
    simp [joined, hc] at hlen
  · rintro ⟨w, -, hw⟩
    have hlen := congrArg List.length hw
    have hc : (text "c").length = 1 := by decide +kernel
    simp [joined, hc] at hlen
  · have hroots : (run barKeeper.operate (barKeeper.initGenesis State.empty barGenesis)
        [barBlock [18, 3, 97, 124, 98, 26, 1, 99, 34, 1, 7]]).hashRoots.values =
        [⟨text "a|b", text "c", 0, [7], 1, 0, []⟩] := by decide +kernel
    rw [hroots]
    intro r hr
    rw [List.mem_singleton.mp hr]
    exact fun h => h.ne rfl

/-- Two confirmed pairs share a key: the second root takes the place of the first and is read for it, and before that
the first is listed for the other chain. -/
theorem bar_pairs_collide :
    let first := barBlock [18, 3, 97, 124, 98, 26, 1, 99, 34, 1, 7]
    let second := barBlock [18, 1, 97, 26, 3, 98, 124, 99, 34, 1, 8]
    let before := run barKeeper.operate (barKeeper.initGenesis State.empty barGenesis) [first]
    let after := run barKeeper.operate (barKeeper.initGenesis State.empty barGenesis) [first, second]
    State.keyHashRoot (text "a|b") (text "c") = State.keyHashRoot (text "a") (text "b|c") ∧
    (before.iterateHashRoots (text "a")).map HashRoot.chainUid = [text "a|b"] ∧
    ((before.getHashRoot (text "a|b") (text "c")).toOption.map HashRoot.root = some [7]) ∧
    ((after.getHashRoot (text "a|b") (text "c")).toOption.map (fun r => (r.chainUid, r.root)) =
      some (text "a", [8])) := by
  decide +kernel

end Terpz.Hashmerchant
