import Mathlib.Data.List.Lattice
import Terpz.Lib.Run
import Terpz.Hashmerchant.Keeper.Genesis

/-! What the tally holds after all votes, and what a run over it does, entry by entry. -/
namespace Terpz.Hashmerchant
open Lib

namespace Tally

/-- The votes of one entry of the two maps. -/
def find (t : Tally) (key : TallyKey) (h : Text) : Option (List RootVote) :=
  (t.lookup key).bind (fun m => m.lookup h)

@[simp] theorem find_empty (key : TallyKey) (h : Text) : find ∅ key h = none := rfl

private theorem lookup_getD (t : Tally) (key : TallyKey) (h : Text) :
    ((t.lookup key).getD ∅).lookup h = find t key h := by
  cases hk : t.lookup key <;> simp [find, hk]

theorem find_insert (t : Tally) (key key' : TallyKey) (h h' : Text) (vs : List RootVote) :
    find (t.insert key (((t.lookup key).getD ∅).insert h vs)) key' h' =
      if key = key' ∧ h = h' then some vs else find t key' h' := by
  by_cases hkey : key = key'
  · subst hkey
    rw [find, AList.lookup_insert, Option.bind_some]
    by_cases hh : h = h'
    · subst hh
      rw [AList.lookup_insert, if_pos ⟨rfl, rfl⟩]
    · rw [AList.lookup_insert_ne (Ne.symm hh), lookup_getD, if_neg (fun hc => hh hc.2)]
  · rw [find, AList.lookup_insert_ne (Ne.symm hkey), if_neg (fun hc => hkey hc.1), find]

end Tally

/-- Votes appended to an entry; an entry appears with its first vote. -/
def extend (o : Option (List RootVote)) : List RootVote → Option (List RootVote)
  | [] => o
  | vs => some (o.getD [] ++ vs)

private theorem extend_extend (o : Option (List RootVote)) (us vs : List RootVote) :
    extend (extend o us) vs = extend o (us ++ vs) := by
  cases us with
  | nil => rfl
  | cons u us =>
    cases vs with
    | nil => simp [extend]
    | cons v vs => simp [extend]

namespace Keeper
variable (k : Keeper)

/-- The votes of the commit for one entry, in commit order. -/
def votesFor (votes : List ExtendedVoteInfo) (key : TallyKey) (h : Text) : List RootVote :=
  ((votes.filterMap k.rootVote).filter (fun e => e.1 = key ∧ hex e.2.root = h)).map Prod.snd

private theorem find_tallyVote (t : Tally) (vote : ExtendedVoteInfo) (key : TallyKey) (h : Text) :
    (k.tallyVote t vote).find key h = extend (t.find key h) (k.votesFor [vote] key h) := by
  cases hv : k.rootVote vote with
  | none => simp [tallyVote, votesFor, hv, extend]
  | some e =>
    obtain ⟨key', v⟩ := e
    rw [tallyVote, hv]
    simp only [Tally.find_insert]
    by_cases hc : key' = key ∧ hex v.root = h
    · obtain ⟨rfl, rfl⟩ := hc
      have hf : ((t.lookup key').getD ∅).lookup (hex v.root) = t.find key' (hex v.root) := by
        cases hk : t.lookup key' <;> simp [Tally.find, hk]
      simp [votesFor, hv, extend, hf]
    · have hnone : k.votesFor [vote] key h = [] := by simp [votesFor, hv, hc]
      rw [if_neg hc, hnone]
      rfl

theorem votesFor_cons (vote : ExtendedVoteInfo) (votes : List ExtendedVoteInfo) (key : TallyKey) (h : Text) :
    k.votesFor (vote :: votes) key h = k.votesFor [vote] key h ++ k.votesFor votes key h := by
  rw [votesFor, votesFor, votesFor, ← List.map_append, ← List.filter_append, ← List.filterMap_append,
    List.singleton_append]

theorem find_foldl_tallyVote (votes : List ExtendedVoteInfo) (t : Tally) (key : TallyKey) (h : Text) :
    Tally.find (votes.foldl k.tallyVote t) key h = extend (t.find key h) (k.votesFor votes key h) := by
  induction votes generalizing t with
  | nil => rfl
  | cons vote votes ih =>
    rw [List.foldl_cons, ih, find_tallyVote, extend_extend, ← votesFor_cons]

/-- The entries of the tally are the nonempty lists of votes of the commit. -/
theorem find_tallyOf {votes : List ExtendedVoteInfo} {key : TallyKey} {h : Text} {vs : List RootVote} :
    (k.tallyOf votes).find key h = some vs ↔ k.votesFor votes key h = vs ∧ vs ≠ [] := by
  rw [tallyOf, find_foldl_tallyVote, Tally.find_empty]
  cases hv : k.votesFor votes key h with
  | nil =>
    constructor
    · intro he
      cases he
    · rintro ⟨rfl, hne⟩
      exact absurd rfl hne
  | cons u us =>
    simp only [extend, Option.getD_none, List.nil_append, Option.some.injEq]
    constructor
    · rintro rfl
      exact ⟨rfl, List.cons_ne_nil u us⟩
    · exact And.left

end Keeper

namespace IterationOrder
variable {tally : Tally}

/-- The entries in the order in which they are visited. -/
def candidates (o : IterationOrder tally) : List (TallyKey × (_ : Text) × List RootVote) :=
  o.outer.flatMap (fun e => (o.inner e.1).map (Prod.mk e.1))

private theorem candidates_perm_entries (o : IterationOrder tally) :
    o.candidates.Perm (tally.entries.flatMap (fun e => e.2.entries.map (Prod.mk e.1))) := by
  apply o.outer_perm.flatMap
  intro e he
  exact (o.inner_perm e (o.outer_perm.mem_iff.mp he)).map _

theorem candidates_perm (o o' : IterationOrder tally) : o.candidates.Perm o'.candidates :=
  (candidates_perm_entries o).trans (candidates_perm_entries o').symm

theorem mem_candidates (o : IterationOrder tally) {key : TallyKey} {e : (_ : Text) × List RootVote} :
    (key, e) ∈ o.candidates ↔ tally.find key e.1 = some e.2 := by
  rw [(candidates_perm_entries o).mem_iff, Tally.find, Option.bind_eq_some_iff]
  simp only [List.mem_flatMap, List.mem_map, Prod.mk.injEq]
  constructor
  · rintro ⟨⟨key', m⟩, hm, e', he', rfl, rfl⟩
    exact ⟨m, AList.mem_lookup_iff.mpr hm, AList.mem_lookup_iff.mpr he'⟩
  · rintro ⟨m, hm, he⟩
    exact ⟨⟨key, m⟩, AList.mem_lookup_iff.mp hm, e, AList.mem_lookup_iff.mp he, rfl, rfl⟩

private theorem entries_nodup {α : Type} {β : α → Type} (m : AList β) : m.entries.Nodup := m.nodupKeys.nodup

theorem candidates_nodup (o : IterationOrder tally) : o.candidates.Nodup := by
  rw [(candidates_perm_entries o).nodup_iff, List.nodup_flatMap]
  constructor
  · intro e _
    exact (entries_nodup e.2).map (Prod.mk_right_injective e.1)
  · apply (List.nodupKeys_iff_pairwise.mp tally.nodupKeys).imp
    intro a b hab
    refine List.disjoint_left.mpr ?_
    intro x hxa hxb
    obtain ⟨_, _, rfl⟩ := List.mem_map.mp hxa
    obtain ⟨_, _, hb⟩ := List.mem_map.mp hxb
    exact hab (congrArg Prod.fst hb).symm

end IterationOrder

/-- The root that visiting an entry writes, if it reaches the threshold. -/
def rootOf (threshold : Int64) (c : TallyKey × (_ : Text) × List RootVote) : Option HashRoot :=
  if sumPower (c.2.2.map RootVote.votingPower) < threshold then none
  else c.2.2.head?.map (fun representative => confirmedRoot c.1 representative c.2.2)

namespace Effect

def root? : Effect → Option HashRoot
  | .setHashRoot r => some r
  | _ => none

/-- Callbacks and events: what leaves the module besides its own writes. -/
def outward : Effect → Bool
  | .setHashRoot _ => false
  | _ => true

end Effect

def writtenRoots (es : List Effect) : List HashRoot := es.filterMap Effect.root?

def OnlyCallbacks (es : List Effect) : Prop := ∀ e ∈ es, ∃ a p, e = .sudoCallback a p

theorem OnlyCallbacks.writtenRoots {es : List Effect} (h : OnlyCallbacks es) : writtenRoots es = [] := by
  apply List.filterMap_eq_nil_iff.mpr
  intro e he
  obtain ⟨a, p, rfl⟩ := h e he
  rfl

namespace Keeper
variable (k : Keeper)

private theorem dispatchSudoCallback_effects (height : UInt64) (root : HashRoot) (atts : List OracleAttestation)
    (acc : State × List Effect) (c : RegisteredContract) :
    ∃ calls, (k.dispatchSudoCallback height root atts acc c).2 = acc.2 ++ calls ∧ OnlyCallbacks calls := by
  have hnone : acc.2 = acc.2 ++ [] ∧ OnlyCallbacks [] := ⟨(List.append_nil _).symm, fun _ he => nomatch he⟩
  unfold dispatchSudoCallback
  split
  · exact ⟨[], hnone⟩
  · split
    · exact ⟨[], hnone⟩
    · split
      · exact ⟨[], hnone⟩
      · split
        · exact ⟨[], hnone⟩
        · exact ⟨_, rfl, fun e he => ⟨_, _, List.mem_singleton.mp he⟩⟩

/-- Callbacks are added behind the effects so far. -/
theorem foldl_dispatchSudoCallback_effects (height : UInt64) (root : HashRoot) (atts : List OracleAttestation)
    (cs : List RegisteredContract) (acc : State × List Effect) :
    ∃ calls, (cs.foldl (k.dispatchSudoCallback height root atts) acc).2 = acc.2 ++ calls ∧ OnlyCallbacks calls := by
  induction cs generalizing acc with
  | nil => exact ⟨[], (List.append_nil _).symm, fun _ he => nomatch he⟩
  | cons c cs ih =>
    obtain ⟨first, hfirst, hcalls⟩ := k.dispatchSudoCallback_effects height root atts acc c
    obtain ⟨rest, hrest, hcalls'⟩ := ih (k.dispatchSudoCallback height root atts acc c)
    refine ⟨first ++ rest, ?_, ?_⟩
    · rw [List.foldl_cons, hrest, hfirst, List.append_assoc]
    · intro e he
      exact (List.mem_append.mp he).elim (hcalls e) (hcalls' e)

/-- The visit of one entry: nothing, or one write, callbacks and one event. -/
def visit (height : UInt64) (threshold : Int64) (acc : State × List Effect)
    (c : TallyKey × (_ : Text) × List RootVote) : State × List Effect :=
  k.confirmRoot height threshold c.1 acc c.2

theorem processVoteExtensions_eq (height : UInt64) (s : State) (votes : List ExtendedVoteInfo)
    (o : IterationOrder (k.tallyOf votes)) : k.processVoteExtensions height s votes o =
      o.candidates.foldl (k.visit height (quorumThreshold s.getParams votes)) (s, []) := by
  rw [IterationOrder.candidates, List.foldl_flatMap]
  simp only [List.foldl_map]
  rfl

theorem visit_of_none {height : UInt64} {threshold : Int64} {c : TallyKey × (_ : Text) × List RootVote}
    (h : rootOf threshold c = none) (acc : State × List Effect) : k.visit height threshold acc c = acc := by
  obtain ⟨key, h', vs⟩ := c
  unfold rootOf at h
  unfold visit confirmRoot
  split at h
  · next hlt => rw [if_pos hlt]
  · next hge =>
    rw [if_neg hge]
    cases vs with
    | nil => rfl
    | cons v vs => cases h

theorem visit_of_some (height : UInt64) {threshold : Int64} {c : TallyKey × (_ : Text) × List RootVote}
    {root : HashRoot} (h : rootOf threshold c = some root) (acc : State × List Effect) :
    ∃ calls, OnlyCallbacks calls ∧ (k.visit height threshold acc c).2 =
      acc.2 ++ [.setHashRoot root] ++ calls ++ [.rootConfirmed c.1.chainUid c.1.algo c.2.2.length] ∧
      ∃ effects, (k.visit height threshold acc c).1 =
        (k.dispatchSudoCallbacks height root root.attestations (acc.1.setHashRoot root, effects)).1 := by
  obtain ⟨key, h', vs⟩ := c
  unfold rootOf at h
  unfold visit confirmRoot
  split at h
  · cases h
  · next hge =>
    rw [if_neg hge]
    cases vs with
    | nil => cases h
    | cons v vs =>
      cases h
      obtain ⟨calls, hcalls, honly⟩ := k.foldl_dispatchSudoCallback_effects height
        (confirmedRoot key v (v :: vs)) v.attestations
        (acc.1.setHashRoot (confirmedRoot key v (v :: vs))).contracts.values
        (acc.1.setHashRoot (confirmedRoot key v (v :: vs)), acc.2 ++ [.setHashRoot (confirmedRoot key v (v :: vs))])
      refine ⟨calls, honly, ?_, _, rfl⟩
      simp only [dispatchSudoCallbacks, hcalls]

theorem dispatchSudoCallback_invariant {I : State → Prop} (hsudo : ∀ s a p, I s → I (k.wasmSudo s a p))
    (height : UInt64) (root : HashRoot) (atts : List OracleAttestation) {acc : State × List Effect} (h : I acc.1)
    (c : RegisteredContract) : I (k.dispatchSudoCallback height root atts acc c).1 := by
  unfold dispatchSudoCallback
  split
  · exact h
  · split
    · exact h
    · split
      · exact h
      · split
        · exact h
        · exact hsudo _ _ _ h

/-- What every callback keeps, dispatching keeps. -/
theorem dispatchSudoCallbacks_invariant {I : State → Prop} (hsudo : ∀ s a p, I s → I (k.wasmSudo s a p))
    (height : UInt64) (root : HashRoot) (atts : List OracleAttestation) {acc : State × List Effect} (h : I acc.1) :
    I (k.dispatchSudoCallbacks height root atts acc).1 :=
  List.foldlRecOn (motive := fun acc : State × List Effect => I acc.1) _ _ h
    (fun _ hacc c _ => k.dispatchSudoCallback_invariant hsudo height root atts hacc c)

/-- The same for a whole run over the tally. -/
theorem processVoteExtensions_invariant {I : State → Prop} (hroot : ∀ s r, I s → I (State.setHashRoot s r))
    (hsudo : ∀ s a p, I s → I (k.wasmSudo s a p)) (height : UInt64) {s : State} (h : I s)
    (votes : List ExtendedVoteInfo) (o : IterationOrder (k.tallyOf votes)) :
    I (k.processVoteExtensions height s votes o).1 := by
  rw [processVoteExtensions_eq]
  refine List.foldlRecOn (motive := fun acc : State × List Effect => I acc.1) _ _ h ?_
  intro acc hacc c _
  cases hr : rootOf (quorumThreshold s.getParams votes) c with
  | none => rwa [k.visit_of_none hr]
  | some root =>
    obtain ⟨-, -, -, effects, hstate⟩ := k.visit_of_some height hr acc
    rw [hstate]
    exact k.dispatchSudoCallbacks_invariant hsudo height root root.attestations (hroot acc.1 root hacc)

section Frame
variable {α : Type} (f : State → α) (hsudo : ∀ s a p, f (k.wasmSudo s a p) = f s)
include hsudo

theorem dispatchSudoCallback_frame (height : UInt64) (root : HashRoot) (atts : List OracleAttestation)
    (acc : State × List Effect) (c : RegisteredContract) :
    f (k.dispatchSudoCallback height root atts acc c).1 = f acc.1 :=
  k.dispatchSudoCallback_invariant (I := fun t => f t = f acc.1) (fun t a p h => (hsudo t a p).trans h) height root
    atts rfl c

/-- What a callback does not change, dispatching does not change. -/
theorem dispatchSudoCallbacks_frame (height : UInt64) (root : HashRoot) (atts : List OracleAttestation)
    (acc : State × List Effect) : f (k.dispatchSudoCallbacks height root atts acc).1 = f acc.1 :=
  k.dispatchSudoCallbacks_invariant (I := fun t => f t = f acc.1) (fun t a p h => (hsudo t a p).trans h) height root
    atts rfl

end Frame

/-- A run writes the roots of the entries that reach the threshold, in the order of the visits. -/
theorem writtenRoots_foldl_visit (height : UInt64) (threshold : Int64)
    (cs : List (TallyKey × (_ : Text) × List RootVote)) (acc : State × List Effect) :
    writtenRoots (cs.foldl (k.visit height threshold) acc).2 =
      writtenRoots acc.2 ++ cs.filterMap (rootOf threshold) := by
  induction cs generalizing acc with
  | nil => simp
  | cons c cs ih =>
    rw [List.foldl_cons, ih]
    cases h : rootOf threshold c with
    | none => rw [k.visit_of_none h, List.filterMap_cons_none h]
    | some root =>
      obtain ⟨calls, honly, heffects, -⟩ := k.visit_of_some height h acc
      have hnone : calls.filterMap Effect.root? = [] := honly.writtenRoots
      rw [heffects, List.filterMap_cons_some h]
      simp [writtenRoots, List.filterMap_append, hnone, Effect.root?]

end Keeper

/-- Pruning writes contracts and nothing else. -/
theorem State.pruneExpiredEscrows_frame {α : Type} (f : State → α)
    (h : ∀ s c, f (State.setRegisteredContract s c) = f s) (s : State) (height : UInt64) :
    f (s.pruneExpiredEscrows height) = f s := by
  apply foldl_frame State.disableContract f
  intro t addr
  unfold State.disableContract
  split
  · rfl
  · exact h _ _

theorem State.endBlocker_invariant {I : State → Prop} (hcontract : ∀ s c, I s → I (State.setRegisteredContract s c))
    (hepoch : ∀ s height, I s → I (State.setPruneEpoch s height)) {s : State} (h : I s) (height : UInt64) :
    I (s.endBlocker height) := by
  unfold State.endBlocker
  split
  · refine hepoch _ height (List.foldlRecOn (motive := I) _ _ h (fun t ht addr _ => ?_))
    unfold State.disableContract
    split
    · exact ht
    · exact hcontract _ _ ht
  · exact h

/-- What the handled message leaves true stays true in any operation, if writing contracts, roots and the prune epoch
and calling contracts keep it. -/
theorem Keeper.operate_invariant (k : Keeper) {I : State → Prop} {s : State} {op : k.Operation} (h : I s)
    (hmessage : ∀ d s', op = .message d → k.handle d.height s d.msg = .ok s' → I s')
    (hcontract : ∀ s c, I s → I (State.setRegisteredContract s c))
    (hepoch : ∀ s height, I s → I (State.setPruneEpoch s height)) (hroot : ∀ s r, I s → I (State.setHashRoot s r))
    (hsudo : ∀ s a p, I s → I (k.wasmSudo s a p)) : I (k.operate s op) := by
  cases op with
  | message d =>
    change I (k.deliver s d)
    rcases k.deliver_cases s d with hsame | hok
    · rwa [hsame]
    · exact hmessage d _ rfl hok
  | endBlock height => exact State.endBlocker_invariant hcontract hepoch h height
  | preBlock height votes order => exact k.processVoteExtensions_invariant hroot hsudo height h votes order

/-- A root voted for one pair of chain and algorithm. -/
structure Candidate where
  chainUid : Text
  algo : Text
  root : Bytes
  deriving DecidableEq, Repr

def Candidate.key (c : Candidate) : TallyKey := ⟨c.chainUid, c.algo⟩

namespace Keeper
variable (k : Keeper)

def candidateOf (vote : ExtendedVoteInfo) : Option Candidate :=
  (k.rootVote vote).map (fun e => ⟨e.1.chainUid, e.1.algo, e.2.root⟩)

def carries (c : Candidate) (vote : ExtendedVoteInfo) : Bool := k.candidateOf vote = some c

/-- The votes of the commit that carry exactly this root for this pair. -/
def backing (votes : List ExtendedVoteInfo) (c : Candidate) : List ExtendedVoteInfo := votes.filter (k.carries c)

def Carried (votes : List ExtendedVoteInfo) (c : Candidate) : Prop := c ∈ votes.filterMap k.candidateOf

instance (votes : List ExtendedVoteInfo) (c : Candidate) : Decidable (k.Carried votes c) :=
  inferInstanceAs (Decidable (c ∈ votes.filterMap k.candidateOf))

/-- The power the code counts for a candidate is at least the threshold it computes. -/
def Reaches (p : Params) (votes : List ExtendedVoteInfo) (c : Candidate) : Prop :=
  quorumThreshold p votes ≤ sumPower ((k.backing votes c).map ExtendedVoteInfo.power)

instance (p : Params) (votes : List ExtendedVoteInfo) (c : Candidate) : Decidable (k.Reaches p votes c) :=
  inferInstanceAs (Decidable (_ ≤ _))

/-- The entry of a candidate in the tally. -/
def entryOf (votes : List ExtendedVoteInfo) (c : Candidate) : TallyKey × (_ : Text) × List RootVote :=
  (c.key, ⟨hex c.root, k.votesFor votes c.key (hex c.root)⟩)

variable {k}

theorem rootVote_votingPower {vote : ExtendedVoteInfo} {e : TallyKey × RootVote} (h : k.rootVote vote = some e) :
    e.2.votingPower = vote.power := by
  unfold rootVote at h
  split at h
  · cases h
  · obtain ⟨data, -, rfl⟩ := Option.map_eq_some_iff.mp h
    rfl

private theorem votesFor_singleton (vote : ExtendedVoteInfo) (c : Candidate) :
    k.votesFor [vote] c.key (hex c.root) =
      if k.carries c vote then ((k.rootVote vote).map Prod.snd).toList else [] := by
  cases hv : k.rootVote vote with
  | none => simp [votesFor, hv]
  | some e =>
    by_cases hc : e.1 = c.key ∧ e.2.root = c.root
    · have hcarry : k.carries c vote = true := by
        simp [carries, candidateOf, hv, hc, Candidate.key]
      simp [votesFor, hv, hc, hcarry]
    · have hhex : ¬ (e.1 = c.key ∧ hex e.2.root = hex c.root) := by
        rw [hex_injective.eq_iff]
        exact hc
      have hcarry : k.carries c vote = false := by
        simp only [carries, candidateOf, hv, Option.map_some, Option.some.injEq, decide_eq_false_iff_not]
        rintro rfl
        exact hc ⟨rfl, rfl⟩
      simp [votesFor, hv, hhex, hcarry]

/-- The entry of a candidate holds what its backing votes say, in commit order. -/
theorem votesFor_backing (votes : List ExtendedVoteInfo) (c : Candidate) :
    k.votesFor votes c.key (hex c.root) = (k.backing votes c).filterMap (fun v => (k.rootVote v).map Prod.snd) := by
  induction votes with
  | nil => rfl
  | cons vote votes ih =>
    rw [votesFor_cons, ih, votesFor_singleton, backing, backing, List.filter_cons]
    by_cases hc : k.carries c vote
    · rw [if_pos hc, if_pos hc, List.filterMap_cons]
      cases (k.rootVote vote).map Prod.snd <;> rfl
    · rw [if_neg hc, if_neg hc, List.nil_append]

theorem rootVote_of_backing {votes : List ExtendedVoteInfo} {c : Candidate} {v : ExtendedVoteInfo}
    (h : v ∈ k.backing votes c) : ∃ e, k.rootVote v = some e ∧ e.1 = c.key ∧ e.2.root = c.root := by
  have hc := (List.mem_filter.mp h).2
  rw [carries, decide_eq_true_eq] at hc
  obtain ⟨e, he, rfl⟩ := Option.map_eq_some_iff.mp hc
  exact ⟨e, he, rfl, rfl⟩

/-- The entry counts the power of the backing votes, vote by vote. -/
theorem votesFor_power (votes : List ExtendedVoteInfo) (c : Candidate) :
    (k.votesFor votes c.key (hex c.root)).map RootVote.votingPower =
      (k.backing votes c).map ExtendedVoteInfo.power := by
  rw [votesFor_backing, List.map_filterMap, ← List.filterMap_eq_map]
  apply List.filterMap_congr
  intro v hv
  obtain ⟨e, he, -⟩ := rootVote_of_backing hv
  rw [he, Option.map_some, Option.map_some, rootVote_votingPower he]
  rfl

private theorem mem_votesFor {votes : List ExtendedVoteInfo} {key : TallyKey} {h : Text} {v : RootVote}
    (hv : v ∈ k.votesFor votes key h) : hex v.root = h := by
  obtain ⟨e, he, rfl⟩ := List.mem_map.mp hv
  rw [List.mem_filter, decide_eq_true_eq] at he
  exact he.2.2

theorem carried_iff {votes : List ExtendedVoteInfo} {c : Candidate} :
    k.Carried votes c ↔ k.votesFor votes c.key (hex c.root) ≠ [] := by
  have hlen : (k.votesFor votes c.key (hex c.root)).length = (k.backing votes c).length := by
    rw [← List.length_map RootVote.votingPower, votesFor_power, List.length_map]
  rw [← List.length_pos_iff, hlen, List.length_pos_iff_exists_mem, Carried]
  simp only [backing, List.mem_filter, List.mem_filterMap, carries, decide_eq_true_eq]

/-- The entries visited are those of the candidates some vote carries. -/
theorem mem_candidates_iff {votes : List ExtendedVoteInfo} (o : IterationOrder (k.tallyOf votes))
    {x : TallyKey × (_ : Text) × List RootVote} :
    x ∈ o.candidates ↔ ∃ c, k.Carried votes c ∧ x = k.entryOf votes c := by
  obtain ⟨key, h, vs⟩ := x
  rw [o.mem_candidates, find_tallyOf]
  constructor
  · rintro ⟨hvs, hne⟩
    change k.votesFor votes key h = vs at hvs
    subst hvs
    obtain ⟨v, rest, hv⟩ := List.exists_cons_of_ne_nil hne
    have hroot : hex v.root = h := mem_votesFor (hv ▸ List.mem_cons_self)
    subst hroot
    exact ⟨⟨key.chainUid, key.algo, v.root⟩, carried_iff.mpr hne, rfl⟩
  · rintro ⟨c, hc, he⟩
    cases he
    exact ⟨rfl, carried_iff.mp hc⟩

/-- Visiting a candidate's entry writes its root when it reaches the threshold, and nothing else. -/
theorem rootOf_entryOf {p : Params} {votes : List ExtendedVoteInfo} {c : Candidate} (hc : k.Carried votes c) :
    (k.Reaches p votes c → ∃ r, rootOf (quorumThreshold p votes) (k.entryOf votes c) = some r ∧
      r.chainUid = c.chainUid ∧ r.algo = c.algo ∧ r.root = c.root) ∧
    (¬ k.Reaches p votes c → rootOf (quorumThreshold p votes) (k.entryOf votes c) = none) := by
  unfold Reaches rootOf
  simp only [entryOf, votesFor_power]
  constructor
  · intro hreach
    obtain ⟨v, rest, hv⟩ := List.exists_cons_of_ne_nil (carried_iff.mp hc)
    have hroot : hex v.root = hex c.root := mem_votesFor (hv ▸ List.mem_cons_self)
    rw [if_neg (Int64.not_lt.mpr hreach), hv]
    exact ⟨_, rfl, rfl, rfl, hex_injective hroot⟩
  · intro hlow
    rw [if_pos (Int64.not_le.mp hlow)]

end Keeper
end Terpz.Hashmerchant
