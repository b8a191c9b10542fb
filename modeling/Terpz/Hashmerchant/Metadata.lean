import Terpz.Hashmerchant.Quorum

/-! Who chooses the height and the time stored with a confirmed root. Votes are counted by root
alone, and the first of them in the commit speaks for all. -/
namespace Terpz.Hashmerchant
open Lib

def HashRoot.candidate (r : HashRoot) : Candidate := ⟨r.chainUid, r.algo, r.root⟩

/-- Equal up to the foreign height and time. -/
def VoteExtensionHashData.SameVote (d d' : VoteExtensionHashData) : Prop :=
  d' = { d with foreignHeight := d'.foreignHeight, foreignBlockTime := d'.foreignBlockTime }

namespace Keeper
variable (k : Keeper)

/-- The height and time a vote reports. -/
def reported (vote : ExtendedVoteInfo) : Option (UInt64 × Int64) :=
  (k.rootVote vote).map (fun e => (e.2.height, e.2.blockTime))

/-- The report of the first vote of the commit that carries the root. -/
def firstReport (votes : List ExtendedVoteInfo) (c : Candidate) : Option (UInt64 × Int64) :=
  (k.backing votes c).head?.bind k.reported

/-- The same vote of the same validator; one of the minority may report another height and time. -/
structure SameBut (minority : Bytes → Bool) (v w : ExtendedVoteInfo) : Prop where
  address : w.address = v.address
  power : w.power = v.power
  extension : w.voteExtension = v.voteExtension ∨ minority v.address = true ∧
    v.voteExtension ≠ [] ∧ w.voteExtension ≠ [] ∧ ∃ d d', k.unmarshalVote v.voteExtension = some d ∧
      k.unmarshalVote w.voteExtension = some d' ∧ d.SameVote d'

/-- The votes for a root from outside the minority. -/
def remaining (minority : Bytes → Bool) (votes : List ExtendedVoteInfo) (c : Candidate) : List ExtendedVoteInfo :=
  (k.backing votes c).filter (fun v => !minority v.address)

/-- Two commits for which a minority reports different heights and times, in any order of the votes.
The root is confirmed, and already so by the remaining votes, which report one height and time. -/
structure MinorityVariant (p : Params) (minority : Bytes → Bool) (c : Candidate)
    (votes votes' : List ExtendedVoteInfo) : Prop where
  confirmed : k.Reaches p votes c
  quorum : quorumThreshold p votes ≤ sumPower ((k.remaining minority votes c).map ExtendedVoteInfo.power)
  nonempty : k.remaining minority votes c ≠ []
  common : ∃ h t, ∀ v ∈ k.remaining minority votes c, k.reported v = some (h, t)
  variant : ∃ ws, List.Forall₂ (k.SameBut minority) votes ws ∧ ws.Perm votes'

/-- However the tally is visited, the root is written, and only with this height and time. -/
def Stores (height : UInt64) (s : State) (votes : List ExtendedVoteInfo) (c : Candidate) (h : UInt64) (t : Int64) :
    Prop :=
  ∀ o : IterationOrder (k.tallyOf votes), (∃ r ∈ k.written height s votes o, r.candidate = c) ∧
    ∀ r ∈ k.written height s votes o, r.candidate = c → r.height = h ∧ r.blockTime = t

variable {k}

section Stored
variable {votes : List ExtendedVoteInfo} {c : Candidate}

/-- The root written for a candidate has the first report. -/
private theorem rootOf_first {p : Params} (hc : k.Carried votes c) (hreach : k.Reaches p votes c) :
    ∃ r, rootOf (quorumThreshold p votes) (k.entryOf votes c) = some r ∧ r.candidate = c ∧
      k.firstReport votes c = some (r.height, r.blockTime) := by
  have hne : k.backing votes c ≠ [] := by
    intro hnil
    have := carried_iff.mp hc
    rw [votesFor_backing, hnil] at this
    exact this rfl
  obtain ⟨v, rest, hv⟩ := List.exists_cons_of_ne_nil hne
  obtain ⟨e, he, hkey, hroot⟩ := rootVote_of_backing (hv ▸ List.mem_cons_self)
  have hhead : (k.votesFor votes c.key (hex c.root)).head? = some e.2 := by
    rw [votesFor_backing, hv, List.filterMap_cons, he]
    rfl
  refine ⟨confirmedRoot c.key e.2 (k.votesFor votes c.key (hex c.root)), ?_, ?_, ?_⟩
  · unfold rootOf
    simp only [entryOf, votesFor_power, hhead]
    rw [if_neg (Int64.not_lt.mpr hreach)]
    rfl
  · rw [HashRoot.candidate, confirmedRoot, hroot]
    rfl
  · rw [firstReport, hv, List.head?_cons, Option.bind_some, reported, he]
    rfl

/-- What is stored with a confirmed root is the first report. -/
theorem stores_iff (height : UInt64) {s : State} (hc : k.Carried votes c) (hreach : k.Reaches s.getParams votes c)
    {h : UInt64} {t : Int64} : k.Stores height s votes c h t ↔ k.firstReport votes c = some (h, t) := by
  obtain ⟨r, hr, hcand, hfirst⟩ := rootOf_first hc hreach
  have hmem (o : IterationOrder (k.tallyOf votes)) : r ∈ k.written height s votes o :=
    mem_written.mpr ⟨c, hc, hreach, hr⟩
  constructor
  · intro hstores
    obtain ⟨rfl, rfl⟩ := (hstores (IterationOrder.asStored _)).2 r (hmem _) hcand
    exact hfirst
  · intro hreport o
    refine ⟨⟨r, hmem o, hcand⟩, ?_⟩
    intro r' hr' hcand'
    obtain ⟨c', hc', hreach', hroot'⟩ := mem_written.mp hr'
    obtain rfl : c' = c := (candidate_of_rootOf hc' hreach' hroot').symm.trans hcand'
    obtain rfl : r = r' := Option.some.inj (hr.symm.trans hroot')
    exact Prod.ext_iff.mp (Option.some.inj (hfirst.symm.trans hreport))

end Stored

section Variant
variable {minority : Bytes → Bool}

theorem SameBut.candidateOf {v w : ExtendedVoteInfo} (h : k.SameBut minority v w) :
    k.candidateOf w = k.candidateOf v := by
  unfold Keeper.candidateOf rootVote
  rcases h.extension with heq | ⟨-, hv, hw, d, d', hd, hd', hsame⟩
  · rw [heq, h.power]
  · rw [if_neg hv, if_neg hw, hd, hd', show d' = _ from hsame]
    rfl

theorem backing_power_of_sameBut {votes ws : List ExtendedVoteInfo} (h : List.Forall₂ (k.SameBut minority) votes ws)
    (c : Candidate) : (k.backing ws c).map ExtendedVoteInfo.power = (k.backing votes c).map ExtendedVoteInfo.power := by
  induction h with
  | nil => rfl
  | @cons v w votes ws hvw _ ih =>
    unfold backing at ih ⊢
    have hcarry : k.carries c w = k.carries c v := by rw [carries, carries, hvw.candidateOf]
    rw [List.filter_cons, List.filter_cons, hcarry]
    split
    · rw [List.map_cons, List.map_cons, hvw.power, ih]
    · exact ih

theorem power_of_sameBut {votes ws : List ExtendedVoteInfo} (h : List.Forall₂ (k.SameBut minority) votes ws) :
    ws.map ExtendedVoteInfo.power = votes.map ExtendedVoteInfo.power := by
  induction h with
  | nil => rfl
  | cons hvw _ ih => rw [List.map_cons, List.map_cons, hvw.power, ih]

/-- Sums of powers do not depend on the order, wrapped or not. -/
theorem sumPower_perm {ps qs : List Int64} (h : ps.Perm qs) : sumPower ps = sumPower qs := by
  have : RightCommutative (α := Int64) (β := Int64) (· + ·) :=
    ⟨fun a b c => by rw [Int64.add_assoc, Int64.add_comm b c, ← Int64.add_assoc]⟩
  exact h.foldl_eq 0

variable {p : Params} {c : Candidate} {votes votes' : List ExtendedVoteInfo}

/-- The same powers stand behind the root. -/
private theorem MinorityVariant.backing_power (h : k.MinorityVariant p minority c votes votes') :
    ((k.backing votes c).map ExtendedVoteInfo.power).Perm ((k.backing votes' c).map ExtendedVoteInfo.power) := by
  obtain ⟨ws, hws, hperm⟩ := h.variant
  rw [← backing_power_of_sameBut hws]
  exact (hperm.filter (k.carries c)).map _

/-- The other commit confirms the root as well. -/
theorem MinorityVariant.reaches (h : k.MinorityVariant p minority c votes votes') : k.Reaches p votes' c := by
  obtain ⟨ws, hws, hperm⟩ := h.variant
  have hthreshold : quorumThreshold p votes' = quorumThreshold p votes := by
    rw [quorumThreshold, quorumThreshold, ← sumPower_perm (hperm.map _), power_of_sameBut hws]
  rw [Reaches, hthreshold, ← sumPower_perm h.backing_power]
  exact h.confirmed

private theorem carried_of_backing {vs : List ExtendedVoteInfo} {v : ExtendedVoteInfo} (h : v ∈ k.backing vs c) :
    k.Carried vs c := by
  obtain ⟨hv, hc⟩ := List.mem_filter.mp h
  rw [carries, decide_eq_true_eq] at hc
  exact List.mem_filterMap.mpr ⟨v, hv, hc⟩

theorem MinorityVariant.carried (h : k.MinorityVariant p minority c votes votes') :
    k.Carried votes c ∧ k.Carried votes' c := by
  obtain ⟨v, hv⟩ := List.exists_mem_of_ne_nil _ h.nonempty
  have hback := (List.mem_filter.mp hv).1
  have hpower := h.backing_power.mem_iff.mp (List.mem_map_of_mem hback)
  obtain ⟨w, hw, -⟩ := List.mem_map.mp hpower
  exact ⟨carried_of_backing hback, carried_of_backing hw⟩

end Variant

/-- A minority that reports other heights and times, in whatever order the votes come, leaves the
stored height and time as they are exactly if the first vote for the root in either commit
reports the same. -/
theorem minority_metadata_iff (k : Keeper) (height : UInt64) (s : State) (minority : Bytes → Bool) (c : Candidate)
    (votes votes' : List ExtendedVoteInfo) (h : k.MinorityVariant s.getParams minority c votes votes') :
    (∃ ht t, k.Stores height s votes c ht t ∧ k.Stores height s votes' c ht t) ↔
      k.firstReport votes c = k.firstReport votes' c := by
  obtain ⟨hc, hc'⟩ := h.carried
  constructor
  · rintro ⟨ht, t, hst, hst'⟩
    rw [(stores_iff height hc h.confirmed).mp hst, (stores_iff height hc' h.reaches).mp hst']
  · intro hsame
    obtain ⟨r, -, -, hfirst⟩ := rootOf_first hc h.confirmed
    exact ⟨r.height, r.blockTime, (stores_iff height hc h.confirmed).mpr hfirst,
      (stores_iff height hc' h.reaches).mpr (hsame ▸ hfirst)⟩

end Keeper

/-- A keeper that also reads the height and the time of a vote, of one byte each. -/
def datedKeeper : Keeper :=
  { sampleKeeper with
    unmarshalVote := fun
      | [18, 1, 99, 26, 1, 97, 34, 1, root, 40, h, 48, t] =>
        some ⟨text "c", text "a", [root], h.toUInt64, Int64.ofNat t.toNat, [], []⟩
      | _ => none }

/-- Votes of single addresses for one root, each with its power, height and time. -/
def datedVotes (vs : List (UInt8 × Int64 × UInt8 × UInt8)) : List ExtendedVoteInfo :=
  vs.map (fun v => ⟨[v.1], v.2.1, rootExtension 7 ++ [40, v.2.2.1, 48, v.2.2.2]⟩)

def datedCandidate : Candidate := ⟨text "c", text "a", [7]⟩

private theorem dated_variant {votes' : List ExtendedVoteInfo}
    (h : (datedVotes [(1, 80, 100, 50), (2, 20, 99, 3)]).Perm votes') :
    datedKeeper.MinorityVariant State.empty.getParams (· == [2]) datedCandidate
      (datedVotes [(1, 80, 100, 50), (2, 20, 100, 50)]) votes' where
  confirmed := by decide +kernel
  quorum := by decide +kernel
  nonempty := by decide +kernel
  common := ⟨100, 50, by decide +kernel⟩
  variant := by
    refine ⟨_, ?_, h⟩
    refine .cons ⟨rfl, rfl, .inl rfl⟩ (.cons ⟨rfl, rfl, .inr ⟨rfl, by decide, by decide, ?_⟩⟩ .nil)
    exact ⟨_, _, rfl, rfl, rfl⟩

/-- With the majority's vote first, a fifth of the power cannot move the height and the time. -/
theorem majority_first_keeps_metadata : ∃ h t,
    datedKeeper.Stores 1 State.empty (datedVotes [(1, 80, 100, 50), (2, 20, 100, 50)]) datedCandidate h t ∧
    datedKeeper.Stores 1 State.empty (datedVotes [(1, 80, 100, 50), (2, 20, 99, 3)]) datedCandidate h t :=
  (Keeper.minority_metadata_iff datedKeeper 1 State.empty (· == [2]) datedCandidate _ _
    (dated_variant (List.Perm.refl _))).mpr (by decide +kernel)

/-- With its vote first in the commit, a fifth of the power chooses the height and the time. -/
theorem minority_first_chooses_metadata :
    datedKeeper.MinorityVariant State.empty.getParams (· == [2]) datedCandidate
      (datedVotes [(1, 80, 100, 50), (2, 20, 100, 50)]) (datedVotes [(2, 20, 99, 3), (1, 80, 100, 50)]) ∧
    datedKeeper.Stores 1 State.empty (datedVotes [(1, 80, 100, 50), (2, 20, 100, 50)]) datedCandidate 100 50 ∧
    datedKeeper.Stores 1 State.empty (datedVotes [(2, 20, 99, 3), (1, 80, 100, 50)]) datedCandidate 99 3 := by
  refine ⟨dated_variant (List.Perm.swap _ _ _), ?_, ?_⟩
  · exact (Keeper.stores_iff 1 (by decide +kernel) (by decide +kernel)).mpr (by decide +kernel)
  · exact (Keeper.stores_iff 1 (by decide +kernel) (by decide +kernel)).mpr (by decide +kernel)

end Terpz.Hashmerchant
