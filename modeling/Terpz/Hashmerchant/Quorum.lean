import Mathlib.Tactic.Linarith
import Mathlib.Tactic.NormNum
import Terpz.Lib.OnePerKey
import Terpz.Hashmerchant.Tally

/-! Confirmed roots against an exact quorum of distinct validators. The code compares `int64` sums,
counts every vote of an address and truncates the threshold, so the exact quorum can be missed. -/
namespace Terpz.Hashmerchant
open Lib

/-- The fraction itself. -/
def LegacyDec.toRat (d : LegacyDec) : ℚ := d / decUnit

/-- Power of the votes, without wrapping. -/
def totalPower (votes : List ExtendedVoteInfo) : ℤ := (votes.map (fun v => v.power.toInt)).sum

/-- A sum as `int64` arithmetic leaves it. -/
def wrap64 (n : ℤ) : ℤ := n.bmod (2 ^ 64)

/-- A visit in the order in which the maps hold their entries. -/
def IterationOrder.asStored (tally : Tally) : IterationOrder tally where
  outer := tally.entries
  inner key := ((tally.lookup key).map AList.entries).getD []
  outer_perm := List.Perm.refl _
  inner_perm e he := by
    have hl : tally.lookup e.1 = some e.2 := AList.mem_lookup_iff.mpr he
    rw [hl]
    exact List.Perm.refl _

namespace Keeper
variable (k : Keeper)

/-- Votes of distinct addresses that carry the root reach the fraction of the whole power. -/
def Backed (p : Params) (votes : List ExtendedVoteInfo) (r : HashRoot) : Prop :=
  ∃ backers, Selection ExtendedVoteInfo.address (k.backing votes ⟨r.chainUid, r.algo, r.root⟩) backers ∧
    p.quorumFraction.toRat * totalPower votes ≤ totalPower backers

/-- The most power that distinct addresses carry for a candidate. -/
def distinctPower (votes : List ExtendedVoteInfo) (c : Candidate) : ℤ :=
  onePerKey ExtendedVoteInfo.address (fun v => v.power.toInt) (k.backing votes c)

/-- The power of all votes for a candidate is at least the whole part of the fraction of the total. -/
def MeetsShare (p : Params) (votes : List ExtendedVoteInfo) (c : Candidate) : Prop :=
  (p.quorumFraction * wrap64 (totalPower votes)).tdiv decUnit ≤ wrap64 (totalPower (k.backing votes c))

instance (p : Params) (votes : List ExtendedVoteInfo) (c : Candidate) : Decidable (k.MeetsShare p votes c) :=
  inferInstanceAs (Decidable (_ ≤ _))

/-- No candidate lies between the whole part of the fraction of the total and the fraction itself, and
a commit without power does not carry two roots for one pair. -/
structure NoGap (p : Params) (votes : List ExtendedVoteInfo) : Prop where
  share : ∀ c, k.Carried votes c → k.MeetsShare p votes c →
    p.quorumFraction.toRat * totalPower votes ≤ k.distinctPower votes c
  powerless : 1 / 2 < p.quorumFraction.toRat → totalPower votes = 0 →
    ∀ c c', k.Carried votes c → k.Carried votes c' → c.key = c'.key → c = c'

end Keeper

section Power
variable {votes : List ExtendedVoteInfo}

private theorem totalPower_filter_le (hnonneg : ∀ v ∈ votes, 0 ≤ v.power) (f g : ExtendedVoteInfo → Bool)
    (hdisjoint : ∀ v, f v → g v → False) :
    totalPower (votes.filter f) + totalPower (votes.filter g) ≤ totalPower votes := by
  induction votes with
  | nil => exact le_refl 0
  | cons v votes ih =>
    have ih := ih (fun w hw => hnonneg w (List.mem_cons_of_mem _ hw))
    have hv : 0 ≤ v.power.toInt := Int64.le_iff_toInt_le.mp (hnonneg v List.mem_cons_self)
    have hno := hdisjoint v
    unfold totalPower at ih ⊢
    cases hf : f v <;> cases hg : g v <;> simp [hf, hg] at hno ⊢ <;> omega

private theorem power_eq_zero (hnonneg : ∀ v ∈ votes, 0 ≤ v.power) (hzero : totalPower votes = 0)
    {v : ExtendedVoteInfo} (hv : v ∈ votes) : v.power = 0 := by
  have hle : ∀ x ∈ votes.map (fun v => v.power.toInt), 0 ≤ x := by
    intro x hx
    obtain ⟨w, hw, rfl⟩ := List.mem_map.mp hx
    exact Int64.le_iff_toInt_le.mp (hnonneg w hw)
  have hpower : v.power.toInt = 0 :=
    List.all_zero_of_le_zero_le_of_sum_eq_zero (fun {x} => hle x) hzero (List.mem_map_of_mem hv)
  exact Int64.toInt_inj.mp hpower

theorem sumPower_eq_zero {ps : List Int64} (h : ∀ x ∈ ps, x = 0) : sumPower ps = 0 := by
  unfold sumPower
  induction ps with
  | nil => rfl
  | cons x ps ih =>
    rw [List.foldl_cons, h x List.mem_cons_self]
    exact ih (fun y hy => h y (List.mem_cons_of_mem _ hy))

theorem toInt_sumPower (ps : List Int64) : (sumPower ps).toInt = wrap64 (ps.map Int64.toInt).sum := by
  have hfold : ∀ acc : Int64, (ps.foldl (· + ·) acc).toInt = wrap64 (acc.toInt + (ps.map Int64.toInt).sum) := by
    induction ps with
    | nil =>
      intro acc
      have hlow := acc.le_toInt
      have hhigh := acc.toInt_lt
      rw [List.foldl_nil, List.map_nil, List.sum_nil, add_zero, wrap64, Int.bmod_eq_of_le] <;> omega
    | cons x ps ih =>
      intro acc
      rw [List.foldl_cons, ih, Int64.toInt_add, wrap64, Int.bmod_add_bmod, List.map_cons, List.sum_cons, add_assoc]
      rfl
  simpa [sumPower] using hfold 0

private theorem tdiv_share_range {d u n : ℤ} (hd : 0 ≤ d ∧ d ≤ u) (hu : 0 < u) (hn : -2 ^ 63 ≤ n ∧ n < 2 ^ 63) :
    -2 ^ 63 ≤ (d * n).tdiv u ∧ (d * n).tdiv u < 2 ^ 63 := by
  have habs : ((d * n).tdiv u).natAbs ≤ n.natAbs := by
    rw [Int.natAbs_tdiv, Int.natAbs_mul]
    apply Nat.div_le_of_le_mul
    apply Nat.mul_le_mul_right
    omega
  have hneg : n < 0 → (d * n).tdiv u ≤ 0 := by
    intro hn
    have hmul : d * n = -(d * -n) := by ring
    have hnonneg := Int.tdiv_nonneg (mul_nonneg hd.1 (neg_nonneg.mpr hn.le)) hu.le
    rw [hmul, Int.neg_tdiv]
    omega
  omega

/-- A fraction of an `int64` is an `int64` again, so the threshold is the whole part itself. -/
theorem toInt_mulTruncate {d : LegacyDec} (hd : 0 ≤ d ∧ d ≤ decUnit) (n : Int64) :
    (d.mulTruncate n).toInt = (d * n.toInt).tdiv decUnit := by
  obtain ⟨hlow, hhigh⟩ := tdiv_share_range hd (by decide) ⟨n.le_toInt, n.toInt_lt⟩
  rw [LegacyDec.mulTruncate, Int64.toInt_ofInt_of_le hlow hhigh]

end Power

namespace Keeper
variable {k : Keeper} {p : Params} {votes : List ExtendedVoteInfo}

private theorem carries_unique {c c' : Candidate} {v : ExtendedVoteInfo} (h : k.carries c v) (h' : k.carries c' v) :
    c = c' := by
  rw [carries, decide_eq_true_eq] at h h'
  exact Option.some.inj (h.symm.trans h')

/-- Votes for different candidates are different votes, so their power adds up to no more than all. -/
private theorem distinctPower_add_le (hnonneg : ∀ v ∈ votes, 0 ≤ v.power) {c c' : Candidate} (hne : c ≠ c') :
    k.distinctPower votes c + k.distinctPower votes c' ≤ totalPower votes := by
  have hle : ∀ d : Candidate, k.distinctPower votes d ≤ totalPower (k.backing votes d) := by
    intro d
    apply onePerKey_le_sum
    intro v hv
    exact Int64.le_iff_toInt_le.mp (hnonneg v (List.mem_filter.mp hv).1)
  have hsum := totalPower_filter_le hnonneg (k.carries c) (k.carries c') (fun v h h' => hne (carries_unique h h'))
  exact (add_le_add (hle c) (hle c')).trans hsum

/-- The comparison of the code on the powers of the votes. -/
theorem reaches_iff_meetsShare (hvalid : p.validate = .ok ()) {c : Candidate} :
    k.Reaches p votes c ↔ k.MeetsShare p votes c := by
  have hd := (Params.validate_eq_ok.mp hvalid).1
  have hsum : ∀ vs : List ExtendedVoteInfo,
      (sumPower (vs.map ExtendedVoteInfo.power)).toInt = wrap64 (totalPower vs) := by
    intro vs
    rw [toInt_sumPower, List.map_map]
    rfl
  rw [Reaches, Int64.le_iff_toInt_le, quorumThreshold, toInt_mulTruncate hd, hsum, hsum, MeetsShare]

private theorem reaches_of_powerless (hnonneg : ∀ v ∈ votes, 0 ≤ v.power) (hzero : totalPower votes = 0)
    (c : Candidate) : k.Reaches p votes c := by
  have hall : sumPower (votes.map ExtendedVoteInfo.power) = 0 := by
    apply sumPower_eq_zero
    intro x hx
    obtain ⟨v, hv, rfl⟩ := List.mem_map.mp hx
    exact power_eq_zero hnonneg hzero hv
  have hbacking : sumPower ((k.backing votes c).map ExtendedVoteInfo.power) = 0 := by
    apply sumPower_eq_zero
    intro x hx
    obtain ⟨v, hv, rfl⟩ := List.mem_map.mp hx
    exact power_eq_zero hnonneg hzero (List.mem_filter.mp hv).1
  rw [Reaches, hbacking, quorumThreshold, hall, LegacyDec.mulTruncate]
  simp

theorem backed_iff (hnonneg : ∀ v ∈ votes, 0 ≤ v.power) {r : HashRoot} :
    k.Backed p votes r ↔
      p.quorumFraction.toRat * totalPower votes ≤ k.distinctPower votes ⟨r.chainUid, r.algo, r.root⟩ := by
  constructor
  · rintro ⟨backers, hsel, hpower⟩
    have hle : totalPower backers ≤ k.distinctPower votes ⟨r.chainUid, r.algo, r.root⟩ := hsel.sum_le
    exact hpower.trans (by exact_mod_cast hle)
  · intro h
    have hbacking : ∀ v ∈ k.backing votes ⟨r.chainUid, r.algo, r.root⟩, 0 ≤ v.power.toInt := by
      intro v hv
      exact Int64.le_iff_toInt_le.mp (hnonneg v (List.mem_filter.mp hv).1)
    obtain ⟨backers, hsel, hsum⟩ := exists_selection ExtendedVoteInfo.address hbacking
    have hpower : totalPower backers = k.distinctPower votes ⟨r.chainUid, r.algo, r.root⟩ := hsum
    exact ⟨backers, hsel, by rw [hpower]; exact h⟩

/-- The roots a run writes. -/
def written (k : Keeper) (height : UInt64) (s : State) (votes : List ExtendedVoteInfo)
    (o : IterationOrder (k.tallyOf votes)) : List HashRoot :=
  writtenRoots (k.processVoteExtensions height s votes o).2

theorem written_eq (height : UInt64) (s : State) (o : IterationOrder (k.tallyOf votes)) :
    k.written height s votes o = o.candidates.filterMap (rootOf (quorumThreshold s.getParams votes)) := by
  rw [written, processVoteExtensions_eq, writtenRoots_foldl_visit]
  rfl

theorem reaches_of_rootOf {c : Candidate} {r : HashRoot} (hc : k.Carried votes c)
    (hr : rootOf (quorumThreshold p votes) (k.entryOf votes c) = some r) : k.Reaches p votes c := by
  by_contra hlow
  rw [(rootOf_entryOf hc).2 hlow] at hr
  cases hr

/-- The roots written are those of the candidates that reach the threshold. -/
theorem mem_written {height : UInt64} {s : State} {o : IterationOrder (k.tallyOf votes)} {r : HashRoot} :
    r ∈ k.written height s votes o ↔ ∃ c, k.Carried votes c ∧ k.Reaches s.getParams votes c ∧
      rootOf (quorumThreshold s.getParams votes) (k.entryOf votes c) = some r := by
  rw [written_eq, List.mem_filterMap]
  constructor
  · rintro ⟨x, hx, hr⟩
    obtain ⟨c, hc, rfl⟩ := (mem_candidates_iff o).mp hx
    exact ⟨c, hc, reaches_of_rootOf hc hr, hr⟩
  · rintro ⟨c, hc, -, hr⟩
    exact ⟨k.entryOf votes c, (mem_candidates_iff o).mpr ⟨c, hc, rfl⟩, hr⟩

/-- What a written root says is what its candidate says. -/
theorem candidate_of_rootOf {c : Candidate} {r : HashRoot} (hc : k.Carried votes c) (hreach : k.Reaches p votes c)
    (hr : rootOf (quorumThreshold p votes) (k.entryOf votes c) = some r) :
    (⟨r.chainUid, r.algo, r.root⟩ : Candidate) = c := by
  obtain ⟨r', hr', hchain, halgo, hroot⟩ := (rootOf_entryOf hc).1 hreach
  rw [hr] at hr'
  cases hr'
  rw [hchain, halgo, hroot]

/-- Two writes for one pair. -/
def SamePair (r r' : HashRoot) : Prop := r.chainUid = r'.chainUid ∧ r.algo = r'.algo

instance (r r' : HashRoot) : Decidable (SamePair r r') := inferInstanceAs (Decidable (_ ∧ _))

/-- Different candidates of one pair do not both reach an exact quorum above one half. -/
theorem NoGap.unique (h : k.NoGap p votes) (hvalid : p.validate = .ok ()) (hnonneg : ∀ v ∈ votes, 0 ≤ v.power)
    (hhalf : 1 / 2 < p.quorumFraction.toRat) {c c' : Candidate} (hc : k.Carried votes c) (hc' : k.Carried votes c')
    (hreach : k.Reaches p votes c) (hreach' : k.Reaches p votes c') (hkey : c.key = c'.key) : c = c' := by
  by_contra hne
  have htotal : 0 ≤ totalPower votes := by
    apply List.sum_nonneg
    intro x hx
    obtain ⟨v, hv, rfl⟩ := List.mem_map.mp hx
    exact Int64.le_iff_toInt_le.mp (hnonneg v hv)
  rcases htotal.eq_or_lt with hzero | hpos
  · exact hne (h.powerless hhalf hzero.symm c c' hc hc' hkey)
  · have hq := h.share c hc ((reaches_iff_meetsShare hvalid).mp hreach)
    have hq' := h.share c' hc' ((reaches_iff_meetsShare hvalid).mp hreach')
    have hadd : (k.distinctPower votes c + k.distinctPower votes c' : ℚ) ≤ totalPower votes := by
      exact_mod_cast distinctPower_add_le hnonneg hne
    have hposq : (0 : ℚ) < totalPower votes := by exact_mod_cast hpos
    have hmore := mul_lt_mul_of_pos_right hhalf hposq
    linarith

/-- Every root written has the exact quorum behind it, and above one half no pair gets two roots,
exactly when the commit leaves no gap between the two readings of a quorum. -/
theorem confirmed_roots_have_quorum_iff (k : Keeper) (height : UInt64) (s : State) (votes : List ExtendedVoteInfo)
    (hvalid : s.getParams.validate = .ok ()) (hnonneg : ∀ v ∈ votes, 0 ≤ v.power) :
    (∀ o : IterationOrder (k.tallyOf votes),
      (∀ r ∈ k.written height s votes o, k.Backed s.getParams votes r) ∧
      (1 / 2 < s.getParams.quorumFraction.toRat →
        (k.written height s votes o).Pairwise (fun r r' => ¬ SamePair r r'))) ↔
    k.NoGap s.getParams votes := by
  constructor
  · intro h
    obtain ⟨hbacked, hsingle⟩ := h (IterationOrder.asStored _)
    constructor
    · intro c hc hshare
      have hreach := (reaches_iff_meetsShare hvalid).mpr hshare
      obtain ⟨r, hr, -⟩ := (rootOf_entryOf hc).1 hreach
      have hcand := candidate_of_rootOf hc hreach hr
      have hb := (backed_iff hnonneg).mp (hbacked r (mem_written.mpr ⟨c, hc, hreach, hr⟩))
      rwa [hcand] at hb
    · intro hhalf hzero c c' hc hc' hkey
      by_contra hne
      have hreach := reaches_of_powerless (k := k) (p := s.getParams) hnonneg hzero
      obtain ⟨r, hr, hchain, halgo, -⟩ := (rootOf_entryOf hc).1 (hreach c)
      obtain ⟨r', hr', hchain', halgo', -⟩ := (rootOf_entryOf hc').1 (hreach c')
      have hdiff : r ≠ r' := by
        rintro rfl
        exact hne ((candidate_of_rootOf hc (hreach c) hr).symm.trans (candidate_of_rootOf hc' (hreach c') hr'))
      have hsymm : Std.Symm (fun r r' : HashRoot => ¬ SamePair r r') :=
        ⟨fun a b hab hba => hab ⟨hba.1.symm, hba.2.symm⟩⟩
      apply (hsingle hhalf).forall (mem_written.mpr ⟨c, hc, hreach c, hr⟩)
        (mem_written.mpr ⟨c', hc', hreach c', hr'⟩) hdiff
      have hk : c.chainUid = c'.chainUid ∧ c.algo = c'.algo := by simpa [Candidate.key] using hkey
      exact ⟨hchain.trans (hk.1.trans hchain'.symm), halgo.trans (hk.2.trans halgo'.symm)⟩
  · intro h o
    constructor
    · intro r hr
      obtain ⟨c, hc, hreach, hr⟩ := mem_written.mp hr
      rw [backed_iff hnonneg, candidate_of_rootOf hc hreach hr]
      exact h.share c hc ((reaches_iff_meetsShare hvalid).mp hreach)
    · intro hhalf
      rw [written_eq, List.pairwise_filterMap]
      apply o.candidates_nodup.imp_of_mem
      intro x x' hx hx' hne r hr r' hr' hpair
      obtain ⟨c, hc, rfl⟩ := (mem_candidates_iff o).mp hx
      obtain ⟨c', hc', rfl⟩ := (mem_candidates_iff o).mp hx'
      have hreach : k.Reaches s.getParams votes c := reaches_of_rootOf hc hr
      have hreach' : k.Reaches s.getParams votes c' := reaches_of_rootOf hc' hr'
      have hcand := candidate_of_rootOf hc hreach hr
      have hcand' := candidate_of_rootOf hc' hreach' hr'
      have hkey : c.key = c'.key := by
        rw [← hcand, ← hcand', Candidate.key, Candidate.key, hpair.1, hpair.2]
      rw [h.unique hvalid hnonneg hhalf hc hc' hreach hreach' hkey] at hne
      exact hne rfl

end Keeper

/-- Votes of single addresses, each with its power and the root it carries. -/
def votesOf (vs : List (UInt8 × Int64 × UInt8)) : List ExtendedVoteInfo :=
  vs.map (fun v => ⟨[v.1], v.2.1, rootExtension v.2.2⟩)

/-- Three of four equal validators confirm a root under the default parameters. -/
theorem three_of_four_confirm :
    let votes := votesOf [(1, 25, 7), (2, 25, 7), (3, 25, 7), (4, 25, 8)]
    (∀ o : IterationOrder (sampleKeeper.tallyOf votes),
      (∀ r ∈ sampleKeeper.written 1 State.empty votes o, sampleKeeper.Backed State.empty.getParams votes r) ∧
      (1 / 2 < State.empty.getParams.quorumFraction.toRat →
        (sampleKeeper.written 1 State.empty votes o).Pairwise (fun r r' => ¬ Keeper.SamePair r r'))) ∧
    sampleKeeper.written 1 State.empty votes (IterationOrder.asStored _) ≠ [] := by
  intro votes
  refine ⟨(Keeper.confirmed_roots_have_quorum_iff sampleKeeper 1 State.empty votes defaultParams_validate
    (by decide +kernel)).mpr ⟨?_, ?_⟩, by decide +kernel⟩
  · have h : ∀ c ∈ votes.filterMap sampleKeeper.candidateOf, sampleKeeper.MeetsShare defaultParams votes c →
        defaultParams.quorumFraction.toRat * totalPower votes ≤ sampleKeeper.distinctPower votes c := by
      decide +kernel
    exact h
  · intro _ hzero
    exact absurd hzero (by decide +kernel)

/-- Under the default fraction 0.667 a power of 66 out of 100 confirms a root, and two validators
of power one each confirm two roots for one pair. -/
theorem quorum_missed_under_defaults :
    (∃ (votes : List ExtendedVoteInfo) (o : IterationOrder (sampleKeeper.tallyOf votes)),
      (∀ v ∈ votes, 0 ≤ v.power) ∧ ∃ r ∈ sampleKeeper.written 1 State.empty votes o,
        ¬ sampleKeeper.Backed State.empty.getParams votes r) ∧
    (∃ (votes : List ExtendedVoteInfo) (o : IterationOrder (sampleKeeper.tallyOf votes)),
      (∀ v ∈ votes, 0 ≤ v.power) ∧
        ¬ (sampleKeeper.written 1 State.empty votes o).Pairwise (fun r r' => ¬ Keeper.SamePair r r')) := by
  constructor
  · have hnonneg : ∀ v ∈ votesOf [(1, 66, 7), (2, 34, 8)], 0 ≤ v.power := by decide +kernel
    refine ⟨_, IterationOrder.asStored _, hnonneg, confirmedRoot ⟨text "c", text "a"⟩ ⟨[7], 0, 0, 66, []⟩
      [⟨[7], 0, 0, 66, []⟩], by decide +kernel, ?_⟩
    rw [Keeper.backed_iff hnonneg]
    decide +kernel
  · exact ⟨votesOf [(1, 1, 7), (2, 1, 8)], IterationOrder.asStored _, by decide +kernel⟩

end Terpz.Hashmerchant
