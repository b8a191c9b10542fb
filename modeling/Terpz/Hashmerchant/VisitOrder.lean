import Terpz.Hashmerchant.Quorum

/-! Two runs over one tally that visit its maps in different orders. -/
namespace Terpz.Hashmerchant
open Lib

namespace IterationOrder
variable {tally : Tally}

/-- The stored order with one map listed in another order and the outer map rearranged. -/
def rearranged (key : TallyKey) (m : RootMap) (hm : tally.lookup key = some m)
    (outer : List ((_ : TallyKey) × RootMap)) (houter : outer.Perm tally.entries)
    (roots : List ((_ : Text) × List RootVote)) (hroots : roots.Perm m.entries) : IterationOrder tally where
  outer := outer
  inner := Function.update (asStored tally).inner key roots
  outer_perm := houter
  inner_perm e he := by
    by_cases hk : e.1 = key
    · have hl : tally.lookup e.1 = some e.2 := AList.mem_lookup_iff.mpr he
      rw [hk, hm] at hl
      rw [hk, Function.update_self, ← Option.some.inj hl]
      exact hroots
    · rw [Function.update_of_ne hk]
      exact (asStored tally).inner_perm e he

/-- Any entry can be visited first. -/
theorem exists_first (o : IterationOrder tally) {x : TallyKey × (_ : Text) × List RootVote} (hx : x ∈ o.candidates) :
    ∃ o' : IterationOrder tally, o'.candidates.head? = some x := by
  obtain ⟨key, h, vs⟩ := x
  obtain ⟨m, hm, he⟩ := Option.bind_eq_some_iff.mp (o.mem_candidates.mp hx)
  obtain ⟨as, bs, hentries⟩ := List.append_of_mem (AList.mem_lookup_iff.mp hm)
  obtain ⟨cs, ds, hroots⟩ := List.append_of_mem (AList.mem_lookup_iff.mp he)
  have houter : (⟨key, m⟩ :: (as ++ bs)).Perm tally.entries := hentries ▸ List.perm_middle.symm
  have hinner : (⟨h, vs⟩ :: (cs ++ ds)).Perm m.entries := hroots ▸ List.perm_middle.symm
  refine ⟨rearranged key m hm _ houter _ hinner, ?_⟩
  simp [candidates, rearranged]

/-- Any entry can be visited last. -/
theorem exists_last (o : IterationOrder tally) {x : TallyKey × (_ : Text) × List RootVote} (hx : x ∈ o.candidates) :
    ∃ o' : IterationOrder tally, o'.candidates.getLast? = some x := by
  obtain ⟨key, h, vs⟩ := x
  obtain ⟨m, hm, he⟩ := Option.bind_eq_some_iff.mp (o.mem_candidates.mp hx)
  obtain ⟨as, bs, hentries⟩ := List.append_of_mem (AList.mem_lookup_iff.mp hm)
  obtain ⟨cs, ds, hroots⟩ := List.append_of_mem (AList.mem_lookup_iff.mp he)
  have houter : ((as ++ bs) ++ [(⟨key, m⟩ : (_ : TallyKey) × RootMap)]).Perm tally.entries := by
    rw [hentries]
    exact (List.perm_append_singleton _ _).trans List.perm_middle.symm
  have hinner : ((cs ++ ds) ++ [(⟨h, vs⟩ : (_ : Text) × List RootVote)]).Perm m.entries := by
    rw [hroots]
    exact (List.perm_append_singleton _ _).trans List.perm_middle.symm
  refine ⟨rearranged key m hm _ houter _ hinner, ?_⟩
  simp [candidates, rearranged, List.getLast?_append]

end IterationOrder

namespace Effect

def confirmation? : Effect → Option TallyKey
  | .rootConfirmed chainUid algo _ => some ⟨chainUid, algo⟩
  | _ => none

end Effect

/-- Callbacks and events, in order. -/
def outward (es : List Effect) : List Effect := es.filter Effect.outward

theorem confirmations_outward (es : List Effect) :
    (outward es).filterMap Effect.confirmation? = es.filterMap Effect.confirmation? := by
  induction es with
  | nil => rfl
  | cons e es ih =>
    rw [outward] at ih ⊢
    cases e <;> simp [List.filter_cons, List.filterMap_cons, Effect.outward, Effect.confirmation?, ih]

namespace Keeper
variable (k : Keeper)

/-- A contract has no message that writes a hash root. -/
def SudoKeepsRoots : Prop := ∀ s a p, (k.wasmSudo s a p).hashRoots = s.hashRoots

variable {k}

/-- The last entry visited decides what its key holds. -/
theorem hashRoots_of_last (hk : k.SudoKeepsRoots) (height : UInt64) {s : State} {votes : List ExtendedVoteInfo}
    {o : IterationOrder (k.tallyOf votes)} {x : TallyKey × (_ : Text) × List RootVote} {r : HashRoot}
    (ho : o.candidates.getLast? = some x) (hr : rootOf (quorumThreshold s.getParams votes) x = some r) :
    (k.processVoteExtensions height s votes o).1.hashRoots[State.keyHashRoot r.chainUid r.algo]? = some r := by
  obtain ⟨rest, hrest⟩ := List.getLast?_eq_some_iff.mp ho
  rw [processVoteExtensions_eq, hrest, List.foldl_append, List.foldl_cons, List.foldl_nil]
  obtain ⟨-, -, -, effects, hstate⟩ := k.visit_of_some height hr
    (rest.foldl (k.visit height (quorumThreshold s.getParams votes)) (s, []))
  rw [hstate, k.dispatchSudoCallbacks_frame State.hashRoots hk, State.setHashRoot, Table.getElem?_insert, if_pos rfl]

private theorem OnlyCallbacks.confirmations {es : List Effect} (h : OnlyCallbacks es) :
    es.filterMap Effect.confirmation? = [] := by
  apply List.filterMap_eq_nil_iff.mpr
  intro e he
  obtain ⟨a, p, rfl⟩ := h e he
  rfl

/-- The first confirmation a run announces is that of the first entry that reaches the threshold. -/
theorem confirmations_foldl_visit (height : UInt64) (threshold : Int64)
    (cs : List (TallyKey × (_ : Text) × List RootVote)) (acc : State × List Effect) :
    (cs.foldl (k.visit height threshold) acc).2.filterMap Effect.confirmation? =
      acc.2.filterMap Effect.confirmation? ++ (cs.filter (fun c => (rootOf threshold c).isSome)).map Prod.fst := by
  induction cs generalizing acc with
  | nil => simp
  | cons c cs ih =>
    rw [List.foldl_cons, ih]
    cases h : rootOf threshold c with
    | none => simp [k.visit_of_none h, h]
    | some root =>
      obtain ⟨calls, honly, heffects, -⟩ := k.visit_of_some height h acc
      have hnone : calls.filterMap Effect.confirmation? = [] := OnlyCallbacks.confirmations honly
      simp [heffects, h, List.filterMap_cons, hnone, Effect.confirmation?]

/-- Entries below the threshold leave no trace in a run. -/
theorem foldl_visit_filter (height : UInt64) (threshold : Int64)
    (cs : List (TallyKey × (_ : Text) × List RootVote)) (acc : State × List Effect) :
    cs.foldl (k.visit height threshold) acc =
      (cs.filter (fun c => (rootOf threshold c).isSome)).foldl (k.visit height threshold) acc := by
  induction cs generalizing acc with
  | nil => rfl
  | cons c cs ih =>
    cases h : rootOf threshold c with
    | none => rw [List.foldl_cons, k.visit_of_none h, ih, List.filter_cons_of_neg (by simp [h])]
    | some root => rw [List.filter_cons_of_pos (by simp [h]), List.foldl_cons, List.foldl_cons, ih]

/-- At most one candidate has the power that the code asks for. -/
def AtMostOneMeets (k : Keeper) (p : Params) (votes : List ExtendedVoteInfo) : Prop :=
  ∀ c c', k.Carried votes c → k.Carried votes c' → k.MeetsShare p votes c → k.MeetsShare p votes c' → c = c'

/-- The entries that are confirmed, in the order of the visits. -/
private def confirmedEntries (k : Keeper) (p : Params) (votes : List ExtendedVoteInfo)
    (o : IterationOrder (k.tallyOf votes)) : List (TallyKey × (_ : Text) × List RootVote) :=
  o.candidates.filter (fun x => (rootOf (quorumThreshold p votes) x).isSome)

private theorem mem_confirmedEntries {p : Params} {votes : List ExtendedVoteInfo} (hvalid : p.validate = .ok ())
    {o : IterationOrder (k.tallyOf votes)} {x : TallyKey × (_ : Text) × List RootVote} :
    x ∈ confirmedEntries k p votes o ↔
      ∃ c, k.Carried votes c ∧ k.MeetsShare p votes c ∧ x = k.entryOf votes c := by
  rw [confirmedEntries, List.mem_filter, Option.isSome_iff_exists, mem_candidates_iff]
  constructor
  · rintro ⟨⟨c, hc, rfl⟩, r, hr⟩
    exact ⟨c, hc, (reaches_iff_meetsShare hvalid).mp (reaches_of_rootOf hc hr), rfl⟩
  · rintro ⟨c, hc, hshare, rfl⟩
    obtain ⟨r, hr, -⟩ := (rootOf_entryOf hc).1 ((reaches_iff_meetsShare hvalid).mpr hshare)
    exact ⟨⟨c, hc, rfl⟩, r, hr⟩

private theorem confirmedEntries_eq {p : Params} {votes : List ExtendedVoteInfo} (hvalid : p.validate = .ok ())
    (hone : k.AtMostOneMeets p votes) (o o' : IterationOrder (k.tallyOf votes)) :
    confirmedEntries k p votes o = confirmedEntries k p votes o' := by
  have hperm : (confirmedEntries k p votes o).Perm (confirmedEntries k p votes o') :=
    (o.candidates_perm o').filter _
  have hnodup : (confirmedEntries k p votes o').Nodup := o'.candidates_nodup.filter _
  cases hl : confirmedEntries k p votes o' with
  | nil => exact List.perm_nil.mp (hl ▸ hperm)
  | cons x xs =>
    cases xs with
    | nil => exact List.perm_singleton.mp (hl ▸ hperm)
    | cons y ys =>
      obtain ⟨c, hc, hs, rfl⟩ := (mem_confirmedEntries hvalid).mp (hl ▸ List.mem_cons_self)
      obtain ⟨c', hc', hs', rfl⟩ :=
        (mem_confirmedEntries hvalid).mp (hl ▸ List.mem_cons_of_mem _ List.mem_cons_self)
      rw [hl, hone c c' hc hc' hs hs'] at hnodup
      exact absurd List.mem_cons_self (List.nodup_cons.mp hnodup).1

/-- The order of the visits shows neither in the stored roots nor in the callbacks and events exactly
when at most one candidate meets the quorum. -/
theorem visit_order_irrelevant_iff (k : Keeper) (hk : k.SudoKeepsRoots) (height : UInt64) (s : State)
    (hvalid : s.getParams.validate = .ok ()) (votes : List ExtendedVoteInfo) :
    (∀ o o' : IterationOrder (k.tallyOf votes),
      (k.processVoteExtensions height s votes o).1.hashRoots =
        (k.processVoteExtensions height s votes o').1.hashRoots ∧
      outward (k.processVoteExtensions height s votes o).2 =
        outward (k.processVoteExtensions height s votes o').2) ↔
    k.AtMostOneMeets s.getParams votes := by
  constructor
  · intro h c c' hc hc' hshare hshare'
    have stored := IterationOrder.asStored (k.tallyOf votes)
    have hx : k.entryOf votes c ∈ stored.candidates := (mem_candidates_iff stored).mpr ⟨c, hc, rfl⟩
    have hx' : k.entryOf votes c' ∈ stored.candidates := (mem_candidates_iff stored).mpr ⟨c', hc', rfl⟩
    have hreach := (reaches_iff_meetsShare hvalid).mpr hshare
    have hreach' := (reaches_iff_meetsShare hvalid).mpr hshare'
    obtain ⟨r, hr, -⟩ := (rootOf_entryOf hc).1 hreach
    obtain ⟨r', hr', -⟩ := (rootOf_entryOf hc').1 hreach'
    have hcand := candidate_of_rootOf hc hreach hr
    have hcand' := candidate_of_rootOf hc' hreach' hr'
    -- the first event names the pair of the entry visited first
    have hkey : c.key = c'.key := by
      obtain ⟨o, ho⟩ := stored.exists_first hx
      obtain ⟨o', ho'⟩ := stored.exists_first hx'
      have hsame := congrArg (List.filterMap Effect.confirmation?) (h o o').2
      obtain ⟨rest, hrest⟩ := List.head?_eq_some_iff.mp ho
      obtain ⟨rest', hrest'⟩ := List.head?_eq_some_iff.mp ho'
      rw [confirmations_outward, confirmations_outward, processVoteExtensions_eq, processVoteExtensions_eq,
        confirmations_foldl_visit, confirmations_foldl_visit, hrest, hrest',
        List.filter_cons_of_pos (by rw [hr]; rfl), List.filter_cons_of_pos (by rw [hr']; rfl)] at hsame
      simp only [List.filterMap_nil, List.nil_append, List.map_cons, List.cons.injEq] at hsame
      exact hsame.1
    -- within one pair the entry visited last is the one that stays
    obtain ⟨o, ho⟩ := stored.exists_last hx
    obtain ⟨o', ho'⟩ := stored.exists_last hx'
    have hlast := hashRoots_of_last hk height ho hr
    have hlast' := hashRoots_of_last hk height ho' hr'
    have hpair : r.chainUid = r'.chainUid ∧ r.algo = r'.algo := by
      rw [← hcand, ← hcand'] at hkey
      simpa [Candidate.key] using hkey
    rw [(h o o').1, hpair.1, hpair.2, hlast'] at hlast
    rw [← hcand, ← hcand', Option.some.inj hlast]
  · intro hone o o'
    have hrun : k.processVoteExtensions height s votes o = k.processVoteExtensions height s votes o' := by
      rw [processVoteExtensions_eq, processVoteExtensions_eq, foldl_visit_filter, foldl_visit_filter _ _ o'.candidates]
      exact congrArg _ (confirmedEntries_eq hvalid hone o o')
    rw [hrun]
    exact ⟨rfl, rfl⟩

end Keeper

/-- Three candidates, one of them over the threshold: every order gives the same run. -/
theorem single_root_order_irrelevant :
    let votes := votesOf [(1, 60, 7), (2, 20, 8), (3, 10, 7), (4, 10, 9)]
    ∀ o o' : IterationOrder (sampleKeeper.tallyOf votes),
      (sampleKeeper.processVoteExtensions 1 State.empty votes o).1.hashRoots =
        (sampleKeeper.processVoteExtensions 1 State.empty votes o').1.hashRoots ∧
      outward (sampleKeeper.processVoteExtensions 1 State.empty votes o).2 =
        outward (sampleKeeper.processVoteExtensions 1 State.empty votes o').2 := by
  intro votes
  apply (Keeper.visit_order_irrelevant_iff sampleKeeper (fun _ _ _ => rfl) 1 State.empty defaultParams_validate
    votes).mpr
  have h : ∀ c ∈ votes.filterMap sampleKeeper.candidateOf, ∀ c' ∈ votes.filterMap sampleKeeper.candidateOf,
      sampleKeeper.MeetsShare defaultParams votes c → sampleKeeper.MeetsShare defaultParams votes c' → c = c' := by
    decide +kernel
  intro c c' hc hc'
  exact h c hc c' hc'

/-- Two validators of power one with different roots: the stored root depends on the order. -/
theorem stored_root_depends_on_order :
    ∃ (votes : List ExtendedVoteInfo) (o o' : IterationOrder (sampleKeeper.tallyOf votes)),
      (sampleKeeper.processVoteExtensions 1 State.empty votes o).1.hashRoots ≠
        (sampleKeeper.processVoteExtensions 1 State.empty votes o').1.hashRoots := by
  let votes := votesOf [(1, 1, 7), (2, 1, 8)]
  let stored := IterationOrder.asStored (sampleKeeper.tallyOf votes)
  let turned : IterationOrder (sampleKeeper.tallyOf votes) :=
    { stored with
      inner := fun key => (stored.inner key).reverse
      inner_perm := fun e he => (List.reverse_perm _).trans (stored.inner_perm e he) }
  refine ⟨votes, stored, turned, ?_⟩
  intro h
  have hroot := congrArg (fun t : Table HashRoot => (t[text "c|a"]?).map HashRoot.root) h
  have hne : ((sampleKeeper.processVoteExtensions 1 State.empty votes stored).1.hashRoots[text "c|a"]?).map
        HashRoot.root ≠
      ((sampleKeeper.processVoteExtensions 1 State.empty votes turned).1.hashRoots[text "c|a"]?).map
        HashRoot.root := by decide +kernel
  exact hne hroot

end Terpz.Hashmerchant
