import Mathlib.Algebra.BigOperators.Group.Finset.Basic
import Mathlib.Algebra.Order.BigOperators.Group.List
import Terpz.Leanval.Keeper.Powers

/-! When validators already in the set keep more than two thirds of the power after a round of
updates. Each newcomer enters with power 1, however many enter at once and however little
power the present members hold. -/
namespace Terpz.Leanval.Keeper
open Lib

/-- The power Comet counts after a store's last batch. -/
def totalPower (st : Store) : Int := ((powerEntries st).map (fun e => e.2.toInt)).sum

/-- The power in `st'` of the validators that had power in `st`. -/
def presentPower (st st' : Store) : Int :=
  ((powerEntries st').map (fun e => if lastPower st e.1 > 0 then e.2.toInt else 0)).sum

/-- The last power of the 32-byte subjects whose bit is still set. -/
def keptPower (st : Store) : Int :=
  ((cometRows (debugSubjectsFromBits st)).map (fun r => (lastPower st r.subject).toInt)).sum

/-- The 32-byte members with a balance and no power yet. -/
def newcomers (st : Store) : Nat :=
  (cometRows (debugSubjectsFromBits st)).countP (fun r => r.weight > 0 && lastPower st r.subject == 0)

/-- A sum over the power table may be taken over any list that holds its support. -/
private theorem sum_powerEntries {st : Store} (f : Bytes → Int → Int) (hf : ∀ s, f s 0 = 0) {l : List Bytes}
    (hl : l.Nodup) (hsup : ∀ s, lastPower st s ≠ 0 → s ∈ l) :
    ((powerEntries st).map (fun e => f e.1 e.2.toInt)).sum = (l.map (fun s => f s (lastPower st s).toInt)).sum := by
  have hentries : (powerEntries st).map (fun e => f e.1 e.2.toInt) =
      ((powerEntries st).map Prod.fst).map (fun s => f s (lastPower st s).toInt) := by
    rw [List.map_map]
    apply List.map_congr_left
    intro ⟨s, w⟩ he
    simp only [Function.comp_apply, mem_powerEntries he]
  rw [hentries, ← List.sum_toFinset _ (powerEntries_nodup st), ← List.sum_toFinset _ hl]
  have hzero (s : Bytes) (hs : lastPower st s = 0) : f s (lastPower st s).toInt = 0 := by
    rw [hs]
    exact hf s
  -- both sums equal the one over the union: outside either list the term is zero
  have hleft : ((powerEntries st).map Prod.fst).toFinset ⊆ ((powerEntries st).map Prod.fst).toFinset ∪ l.toFinset :=
    Finset.subset_union_left
  have hright : l.toFinset ⊆ ((powerEntries st).map Prod.fst).toFinset ∪ l.toFinset := Finset.subset_union_right
  rw [Finset.sum_subset hleft, ← Finset.sum_subset hright]
  · intro s _ hs
    by_contra hne
    exact hs (List.mem_toFinset.mpr (hsup s (fun h0 => hne (hzero s h0))))
  · intro s _ hs
    by_contra hne
    have hp : lastPower st s ≠ 0 := fun h0 => hne (hzero s h0)
    exact hs (List.mem_toFinset.mpr (List.mem_map.mpr ⟨_, mem_powerEntries_of_ne_zero hp, rfl⟩))

/-- Small non-negative terms: the 64-bit running total is the integer sum. -/
private theorem foldl_existing {st : Store} (hp : PowersSent st) (rows : List SubjectPower) (t : Int64)
    (ht : 0 ≤ t.toInt) (hmax : t.toInt + 255 * rows.length < 2 ^ 62) :
    (rows.foldl (fun t s => if lastPower st s.subject > 0 then t + lastPower st s.subject else t) t).toInt =
      t.toInt + (rows.map (fun r => (lastPower st r.subject).toInt)).sum := by
  induction rows generalizing t with
  | nil => simp
  | cons r rows ih =>
    rw [List.foldl_cons, List.map_cons, List.sum_cons]
    rw [List.length_cons] at hmax
    by_cases h0 : lastPower st r.subject = 0
    · rw [if_neg (by rw [h0]; decide), ih t ht (by omega), h0]
      simp
    · obtain ⟨hpos, hle, _⟩ := hp _ h0
      have hadd : (t + lastPower st r.subject).toInt = t.toInt + (lastPower st r.subject).toInt := by
        rw [Int64.toInt_add, Int.bmod_eq_of_le] <;> omega
      rw [if_pos ((int64_pos_iff _).mpr hpos), ih _ (by omega) (by omega), hadd]
      omega

private theorem existing_pos_iff {st : Store} (hp : PowersSent st) :
    existingTotal st (debugSubjectsFromBits st) > 0 ↔ 0 < keptPower st := by
  have hlen : (cometRows (debugSubjectsFromBits st)).length < 2 ^ 32 := by
    have h1 : (cometRows (debugSubjectsFromBits st)).length ≤ (debugSubjectsFromBits st).length :=
      List.length_filter_le _ _
    have h2 : (debugSubjectsFromBits st).length ≤ (indices (nextDepositIndex st)).length :=
      List.length_filterMap_le _ _
    have h3 : (indices (nextDepositIndex st)).length = (nextDepositIndex st).toNat := by simp [indices]
    have := (nextDepositIndex st).toNat_lt
    omega
  rw [int64_pos_iff, existingTotal, foldl_existing hp _ 0 (by decide) (by change (0 : Int) + _ < _; omega)]
  change 0 < 0 + _ ↔ _
  rw [Int.zero_add]
  rfl

section Round
variable {st : Store} (hs : Sound st) (hwf : (roster st).WF) (hp : PowersSent st)
include hs hwf hp

/-- A present member keeps its power, a newcomer gets 1 if anyone is kept. -/
private theorem row_power {r : SubjectPower} (hr : r ∈ cometRows (debugSubjectsFromBits st)) :
    (lastPower st r.subject ≠ 0 →
      (lastPower (sendUpdates st true (debugSubjectsFromBits st)).1 r.subject).toInt = (lastPower st r.subject).toInt) ∧
    (lastPower st r.subject = 0 →
      0 ≤ (lastPower (sendUpdates st true (debugSubjectsFromBits st)).1 r.subject).toInt ∧
      (0 < keptPower st → (lastPower (sendUpdates st true (debugSubjectsFromBits st)).1 r.subject).toInt =
        if r.weight > 0 then 1 else 0)) := by
  obtain ⟨hmem, hl⟩ := List.mem_filter.mp hr
  obtain ⟨s, i, hi, hb, rfl⟩ := (mem_debugSubjectsFromBits hs hwf).mp hmem
  have hl : s.length = 32 := of_decide_eq_true hl
  rw [memberRow_subject]
  have hpow := member_power hs hwf hi hb hl
  have hweight : (memberRow st s i).weight > 0 ↔ ebOf st i ≠ 0 := by
    rw [int64_pos_iff, memberRow_weight, ne_eq, ← UInt8.toNat_inj]
    simp only [UInt8.toNat_zero]
    omega
  refine ⟨?_, ?_⟩
  · intro hne
    obtain ⟨_, _, _, j, b, hj, hbyte, hle⟩ := hp s hne
    obtain rfl := Option.some.inj (hi.symm.trans hj)
    have heb : ebOf st i = b := by rw [ebOf_eq, hbyte]; rfl
    refine hpow.trans ?_
    rw [heb, if_neg hne]
    rcases hle with rfl | hle
    · rw [if_pos rfl]
    · rw [min_eq_left hle, ite_self]
  · intro h0
    rw [if_pos h0] at hpow
    refine ⟨?_, ?_⟩
    · refine le_of_le_of_eq ?_ hpow.symm
      rw [h0]
      split
      · decide
      · split <;> omega
    · intro hk
      refine hpow.trans ?_
      rw [if_pos ((existing_pos_iff hp).mpr hk)]
      by_cases he : ebOf st i = 0
      · rw [if_pos he, if_neg (fun h => hweight.mp h he), h0]
        rfl
      · rw [if_neg he, if_pos (hweight.mpr he)]

private theorem present_eq : presentPower st (sendUpdates st true (debugSubjectsFromBits st)).1 = keptPower st := by
  have hn : ((cometRows (debugSubjectsFromBits st)).map (·.subject)).Nodup :=
    (List.filter_sublist.map _).nodup (debugSubjectsFromBits_nodup hs hwf)
  unfold presentPower
  rw [sum_powerEntries (fun s v => if lastPower st s > 0 then v else 0) (by simp) hn
    (fun s hne => by_contra (fun hout => hne (sendUpdates_power_other hout))), List.map_map, keptPower]
  congr 1
  apply List.map_congr_left
  intro r hr
  obtain ⟨hold, _⟩ := row_power hs hwf hp hr
  simp only [Function.comp_apply]
  by_cases h0 : lastPower st r.subject = 0
  · rw [h0]
    rfl
  · obtain ⟨hpos, _⟩ := hp _ h0
    rw [if_pos ((int64_pos_iff _).mpr hpos), hold h0]

omit hp in
private theorem total_eq_sum : totalPower (sendUpdates st true (debugSubjectsFromBits st)).1 =
    ((cometRows (debugSubjectsFromBits st)).map (fun r =>
      (lastPower (sendUpdates st true (debugSubjectsFromBits st)).1 r.subject).toInt)).sum := by
  have hn : ((cometRows (debugSubjectsFromBits st)).map (·.subject)).Nodup :=
    (List.filter_sublist.map _).nodup (debugSubjectsFromBits_nodup hs hwf)
  unfold totalPower
  rw [sum_powerEntries (fun _ v => v) (fun _ => rfl) hn
    (fun s hne => by_contra (fun hout => hne (sendUpdates_power_other hout))), List.map_map, Function.comp_def]

private theorem total_eq (hk : 0 < keptPower st) :
    totalPower (sendUpdates st true (debugSubjectsFromBits st)).1 = keptPower st + newcomers st := by
  rw [total_eq_sum hs hwf, keptPower, newcomers]
  have hrow (r : SubjectPower) (hr : r ∈ cometRows (debugSubjectsFromBits st)) :
      (lastPower (sendUpdates st true (debugSubjectsFromBits st)).1 r.subject).toInt =
        (lastPower st r.subject).toInt + (if r.weight > 0 && lastPower st r.subject == 0 then 1 else 0) := by
    obtain ⟨hold, hnew⟩ := row_power hs hwf hp hr
    by_cases h0 : lastPower st r.subject = 0
    · rw [(hnew h0).2 hk, h0]
      by_cases hw : r.weight > 0 <;> simp [hw]
    · rw [hold h0]
      simp [h0]
  revert hrow
  generalize cometRows (debugSubjectsFromBits st) = rows
  intro hrow
  induction rows with
  | nil => rfl
  | cons r rows ih =>
    have := ih (fun t ht => hrow t (List.mem_cons_of_mem _ ht))
    rw [List.map_cons, List.sum_cons, List.map_cons, List.sum_cons, this, hrow r List.mem_cons_self, List.countP_cons]
    split <;> push_cast <;> omega

private theorem total_nonneg : 0 ≤ totalPower (sendUpdates st true (debugSubjectsFromBits st)).1 := by
  rw [total_eq_sum hs hwf]
  apply List.sum_nonneg
  intro v hv
  obtain ⟨r, hr, rfl⟩ := List.mem_map.mp hv
  obtain ⟨hold, hnew⟩ := row_power hs hwf hp hr
  by_cases h0 : lastPower st r.subject = 0
  · exact (hnew h0).1
  · rw [hold h0]
    exact le_of_lt (hp _ h0).1

end Round

/-- In every reachable store whose validators have power, for instance after an accepted LNPR was
applied, the validators already present hold more than two thirds of the power after the next
updates exactly when their kept power exceeds twice the number of newcomers. -/
theorem join_keeps_quorum_iff (h : Host) {st : Store} (hr : Reachable h st) (hc : (roster st).count < 2 ^ 32)
    (hpos : 0 < totalPower st) (period : UInt64) :
    2 * totalPower (validatorUpdates st period).1 < 3 * presentPower st (validatorUpdates st period).1 ↔
      2 * (newcomers st : Int) < keptPower st := by
  have hs := hr.sound
  have hwf := hs.wf hc
  have hp := hr.powersSent hc
  have hbits : usingBits st = true := by
    obtain ⟨⟨s, w⟩, he, hne⟩ : ∃ e ∈ powerEntries st, e.2.toInt ≠ 0 := by
      by_contra hall
      refine absurd hpos (not_lt.mpr (le_of_eq ?_))
      refine List.sum_eq_zero ?_
      intro v hv
      obtain ⟨e, he, rfl⟩ := List.mem_map.mp hv
      by_contra hne
      exact hall ⟨e, he, hne⟩
    have hw : lastPower st s ≠ 0 := by
      rw [mem_powerEntries he, ne_eq, int64_eq_zero_iff]
      exact hne
    obtain ⟨_, _, _, i, _, hi, _⟩ := hp s hw
    exact usingBits_of_index hwf hi
  rw [validatorUpdates, if_pos hbits, present_eq hs hwf hp]
  by_cases hk : 0 < keptPower st
  · rw [total_eq hs hwf hp hk]
    omega
  · -- nobody present stays: newcomers take the whole set
    have := total_nonneg hs hwf hp
    constructor
    · intro hlt
      omega
    · intro hlt
      omega

/-- One validator of some power, and an LNPR that refreshes it and adds a joiner of weight 5. -/
def pairGenesis (power : Int64) : GenesisState := ⟨true, [⟨keyOf 0xa1, power⟩], 0⟩

def pairStore (power : Int64) : Store := (validatorUpdates (genesisStore ∅ (pairGenesis power)) 0).1

def joinBlob (power : Int64) : LNPRBlob :=
  ⟨0, [⟨keyOf 0xa1, power, dummyStwoProveBoundRoots 0 (keyOf 0xa1) power (lastObjectRoots (pairStore power))⟩,
    ⟨keyOf 0xb1, 5, stwoMagic ++ valsetInstanceBytes 0 1 5⟩]⟩

def joinedStore (power : Int64) : Store := (applyLNPR stwoHost (pairStore power) (joinBlob power)).1

/-- One joiner against power 3. -/
theorem join_keeps_quorum_of_three :
    (verifyLNPR stwoHost (pairStore 3) (joinBlob 3) false).2 = .ok () ∧ newcomers (joinedStore 3) = 1 ∧
    2 * totalPower (validatorUpdates (joinedStore 3) 0).1 <
      3 * presentPower (joinedStore 3) (validatorUpdates (joinedStore 3) 0).1 := by
  have hr : Reachable stwoHost (joinedStore 3) :=
    ⟨pairGenesis 3, _, [.validatorUpdates 0, .applyLNPR (joinBlob 3)], rfl, rfl⟩
  exact ⟨by decide +kernel, by decide +kernel,
    (join_keeps_quorum_iff stwoHost hr (by decide +kernel) (by decide +kernel) 0).mpr (by decide +kernel)⟩

/-- One joiner against power 2: the present validator is left with exactly two thirds. -/
theorem accepted_join_breaks_quorum :
    Reachable stwoHost (pairStore 2) ∧ (verifyLNPR stwoHost (pairStore 2) (joinBlob 2) false).2 = .ok () ∧
    0 < totalPower (joinedStore 2) ∧ ¬ 2 * totalPower (validatorUpdates (joinedStore 2) 0).1 <
      3 * presentPower (joinedStore 2) (validatorUpdates (joinedStore 2) 0).1 := by
  refine ⟨⟨pairGenesis 2, _, [.validatorUpdates 0], rfl, rfl⟩, by decide +kernel, ?_⟩
  decide +kernel

end Terpz.Leanval.Keeper
