import Terpz.Leanval.Keeper.Members

/-! What one round of validator updates does to the powers, member by member. -/
namespace Terpz.Leanval.Keeper
open Lib Lib.PrefixStore

/-- The powers sent so far are positive and go to numbered 32-byte subjects; the balance byte
behind one is not smaller, unless its subject has left since. -/
def PowersSent (st : Store) : Prop :=
  ∀ s, lastPower st s ≠ 0 → 0 < (lastPower st s).toInt ∧ (lastPower st s).toInt ≤ 255 ∧ s.length = 32 ∧
    ∃ i b, (roster st).index s = some i ∧ (roster st).eb i = some b ∧ (b = 0 ∨ (lastPower st s).toInt ≤ b.toNat)

theorem memberRow_weight (st : Store) (s : Bytes) (i : UInt32) :
    (memberRow st s i).weight.toInt = (ebOf st i).toNat := by
  have h : ∀ b : BitVec 8, ((UInt8.ofBitVec b).toUInt64.toInt64).toInt = (UInt8.ofBitVec b).toNat := by decide +kernel
  exact h (ebOf st i).toBitVec

theorem int64_eq_zero_iff (w : Int64) : w = 0 ↔ w.toInt = 0 := by
  rw [← Int64.toInt_inj]
  rfl

theorem int64_pos_iff (w : Int64) : w > 0 ↔ 0 < w.toInt := by
  rw [gt_iff_lt, Int64.lt_iff_toInt_lt]
  rfl

theorem rowPower_member {s : Bytes} (hl : s.length = 32) (st : Store) (i : UInt32) (ex : Int64) :
    rowPower true ex (lastPower st s) (memberRow st s i) =
      if ebOf st i = 0 then none
      else if lastPower st s = 0 then
        some (if ex > 0 ∧ 1 < (ebOf st i).toNat then 1 else (memberRow st s i).weight)
      else if (lastPower st s).toInt ≤ (ebOf st i).toNat then none
      else some (memberRow st s i).weight := by
  have hw := memberRow_weight st s i
  have hlen : (memberRow st s i).subject.length = 32 := hl
  have hz : (memberRow st s i).weight = 0 ↔ ebOf st i = 0 := by
    rw [int64_eq_zero_iff, hw, ← UInt8.toNat_inj]
    simp
  have hproof : (memberRow st s i).hasProof = decide (ebOf st i > 0) := rfl
  have hgt : (memberRow st s i).weight > 1 ↔ 1 < (ebOf st i).toNat := by
    rw [gt_iff_lt, Int64.lt_iff_toInt_lt, hw]
    simp
  unfold rowPower
  rw [if_neg (not_not.mpr hlen)]
  by_cases he : ebOf st i = 0
  · simp [hz.mpr he, he]
  · have hpos : ebOf st i > 0 := UInt8.pos_iff_ne_zero.mpr he
    have hne : ¬ (memberRow st s i).weight = 0 := fun h => he (hz.mp h)
    rw [if_neg he]
    simp only [hproof, hpos, decide_true, Bool.not_true, Bool.false_or, Bool.true_and, beq_iff_eq, hne, if_false,
      Bool.and_eq_true, decide_eq_true_eq, hgt]
    by_cases hp : lastPower st s = 0
    · simp only [hp, if_true]
    · simp only [hp, if_false]
      have hlt : (memberRow st s i).weight > lastPower st s ↔ (lastPower st s).toInt < (ebOf st i).toNat := by
        rw [gt_iff_lt, Int64.lt_iff_toInt_lt, hw]
      have heq : lastPower st s = (memberRow st s i).weight ↔ (lastPower st s).toInt = (ebOf st i).toNat := by
        rw [← Int64.toInt_inj, hw]
      by_cases h1 : (lastPower st s).toInt = (ebOf st i).toNat
      · rw [if_pos (heq.mpr h1), if_pos (le_of_eq h1)]
      · rw [if_neg (fun h => h1 (heq.mp h))]
        by_cases h2 : (lastPower st s).toInt < (ebOf st i).toNat
        · rw [if_pos (hlt.mpr h2), if_pos (le_of_lt h2)]
        · rw [if_neg (fun h => h2 (hlt.mp h)), if_neg (by omega)]

section Round
variable {st : Store} (hs : Sound st) (hwf : (roster st).WF) {s : Bytes} {i : UInt32}
  (hi : (roster st).index s = some i) (hb : (roster st).bit i = true) (hl : s.length = 32)
include hs hwf hi hb hl

/-- The power of a 32-byte member after the round. -/
theorem sendUpdates_member :
    lastPower (sendUpdates st true (debugSubjectsFromBits st)).1 s =
      (rowPower true (existingTotal st (debugSubjectsFromBits st)) (lastPower st s) (memberRow st s i)).getD
        (lastPower st s) :=
  sendUpdates_power_row (r := memberRow st s i) (debugSubjectsFromBits_nodup hs hwf)
    ((mem_debugSubjectsFromBits hs hwf).mpr ⟨s, i, hi, hb, rfl⟩) hl

/-- A first power is 1 beside a live set and the balance otherwise; later ones only fall. -/
theorem member_power :
    (lastPower (sendUpdates st true (debugSubjectsFromBits st)).1 s).toInt =
      if ebOf st i = 0 then (lastPower st s).toInt
      else if lastPower st s = 0 then
        (if existingTotal st (debugSubjectsFromBits st) > 0 then 1 else ((ebOf st i).toNat : Int))
      else min (lastPower st s).toInt (ebOf st i).toNat := by
  rw [sendUpdates_member hs hwf hi hb hl, rowPower_member hl]
  by_cases he : ebOf st i = 0
  · rw [if_pos he, if_pos he]
    rfl
  · have hpos : 0 < (ebOf st i).toNat := Nat.pos_of_ne_zero (fun h0 => he (UInt8.toNat_inj.mp h0))
    rw [if_neg he, if_neg he]
    by_cases hp : lastPower st s = 0
    · rw [if_pos hp, if_pos hp, Option.getD_some]
      by_cases hx : existingTotal st (debugSubjectsFromBits st) > 0
      · by_cases h1 : 1 < (ebOf st i).toNat
        · rw [if_pos ⟨hx, h1⟩, if_pos hx]
          rfl
        · rw [if_neg (fun hc => h1 hc.2), if_pos hx, memberRow_weight]
          omega
      · rw [if_neg (fun hc => hx hc.1), if_neg hx, memberRow_weight]
    · rw [if_neg hp, if_neg hp]
      by_cases hle : (lastPower st s).toInt ≤ (ebOf st i).toNat
      · rw [if_pos hle, min_eq_left hle]
        rfl
      · rw [if_neg hle, min_eq_right (by omega), Option.getD_some, memberRow_weight]

end Round

theorem eb_of_ebOf_ne_zero {st : Store} {i : UInt32} (he : ebOf st i ≠ 0) : (roster st).eb i = some (ebOf st i) := by
  rw [ebOf_eq] at he ⊢
  cases hv : (roster st).eb i with
  | none => simp [hv] at he
  | some b => rfl

/-- The subjects the round keeps: the 32-byte members. -/
theorem mem_seen_members {st : Store} (hs : Sound st) (hwf : (roster st).WF) {s : Bytes} :
    s ∈ (cometRows (debugSubjectsFromBits st)).map (·.subject) ↔ s.length = 32 ∧ (roster st).Member s := by
  rw [mem_seen, List.mem_map]
  refine and_congr_right (fun _ => ?_)
  constructor
  · rintro ⟨r, hr, rfl⟩
    obtain ⟨t, i, hi, hb, rfl⟩ := (mem_debugSubjectsFromBits hs hwf).mp hr
    exact ⟨i, hi, hb⟩
  · rintro ⟨i, hi, hb⟩
    exact ⟨_, (mem_debugSubjectsFromBits hs hwf).mpr ⟨s, i, hi, hb, rfl⟩, rfl⟩

namespace PowersSent
variable {st st' : Store}

/-- Operations that leave the powers alone keep the invariant, whatever their acts. -/
theorem acts (h : PowersSent st) (hp : ∀ s, lastPower st s = lastPower st' s) {a : List (Act Bytes)}
    (hr : roster st' = (roster st).acts a) : PowersSent st' := by
  intro s hne
  rw [← hp] at hne ⊢
  obtain ⟨hpos, hmax, hl, i, b, hi, hb, hle⟩ := h s hne
  have hi' := Roster.index_acts_of_some hi a
  rw [← hr] at hi'
  have heb := Roster.eb_acts_of_some hb a
  rw [← hr] at heb
  rcases heb with hb | hz
  · exact ⟨hpos, hmax, hl, i, b, hi', hb, hle⟩
  · exact ⟨hpos, hmax, hl, i, 0, hi', hz, .inl rfl⟩

theorem sendUpdates (h : PowersSent st) (hs : Sound st) (hwf : (roster st).WF) :
    PowersSent (Keeper.sendUpdates st true (debugSubjectsFromBits st)).1 := by
  intro s hne
  have hseen : s ∈ (cometRows (debugSubjectsFromBits st)).map (·.subject) := by
    by_contra hout
    exact hne (sendUpdates_power_other hout)
  obtain ⟨hl, i, hi, hb⟩ := (mem_seen_members hs hwf).mp hseen
  have hpow := member_power hs hwf hi hb hl
  rw [roster_sendUpdates]
  by_cases he : ebOf st i = 0
  · rw [if_pos he] at hpow
    have hsame := Int64.toInt_inj.mp hpow
    rw [hsame] at hne ⊢
    exact h s hne
  · have hpos : 0 < (ebOf st i).toNat := Nat.pos_of_ne_zero (fun h0 => he (UInt8.toNat_inj.mp h0))
    have hmax := (ebOf st i).toNat_lt
    have hval : 0 < (lastPower (Keeper.sendUpdates st true (debugSubjectsFromBits st)).1 s).toInt ∧
        (lastPower (Keeper.sendUpdates st true (debugSubjectsFromBits st)).1 s).toInt ≤ (ebOf st i).toNat := by
      rw [hpow, if_neg he]
      by_cases hp : lastPower st s = 0
      · rw [if_pos hp]
        split <;> omega
      · rw [if_neg hp]
        obtain ⟨hprev, _⟩ := h s hp
        omega
    exact ⟨hval.1, by omega, hl, i, _, hi, eb_of_ebOf_ne_zero he, .inr hval.2⟩

/-- Without a numbered subject there is nothing to send: every row weighs zero. -/
theorem sendUpdates_rows (h : PowersSent st) (hs : Sound st) (hno : ∀ s, (roster st).index s = none)
    (period : UInt64) : PowersSent (Keeper.sendUpdates st false (bondedSet st period)).1 := by
  intro s hne
  refine absurd ?_ hne
  by_cases hseen : s ∈ (cometRows (bondedSet st period)).map (·.subject)
  · obtain ⟨hl, hmem⟩ := mem_seen.mp hseen
    obtain ⟨r, hr, rfl⟩ := List.mem_map.mp hmem
    have hprev : lastPower st r.subject = 0 := by
      by_contra hp
      obtain ⟨_, _, _, i, _, hi, _⟩ := h _ hp
      cases (hno _).symm.trans hi
    have hweight : r.weight = 0 := by
      cases hp : r.hasProof with
      | true =>
        obtain ⟨_, _, hi⟩ := hs.bonded hr hp
        rw [hno] at hi
        cases hi
      | false => exact bondedSet_weight hr hp
    rw [sendUpdates_power_row (bondedSet_nodup st period) hr hl, hprev]
    simp [rowPower, hl, hweight]
  · exact sendUpdates_power_other hseen

theorem validatorUpdates (h : PowersSent st) (hs : Sound st) (hwf : (roster st).WF) (period : UInt64) :
    PowersSent (Keeper.validatorUpdates st period).1 := by
  unfold Keeper.validatorUpdates
  by_cases hu : usingBits st = true
  · rw [if_pos hu]
    exact h.sendUpdates hs hwf
  · rw [if_neg hu]
    have hno (s : Bytes) : (roster st).index s = none := by
      cases hi : (roster st).index s with
      | none => rfl
      | some i => exact absurd (usingBits_of_index hwf hi) hu
    have hacts : carryActs (carrySource st period) = [] := by
      rw [List.eq_nil_iff_forall_not_mem]
      intro a ha
      cases a with
      | enroll s w =>
        obtain ⟨_, _, hi⟩ := hs.carryActs ha
        rw [hno] at hi
        cases hi
      | drop s =>
        obtain ⟨r, _, hr⟩ := List.mem_filterMap.mp ha
        split at hr <;> cases hr
    have hroster : roster (bondedSetOrCarry st period).1 = roster st := by
      rw [roster_bondedSetOrCarry, hacts]
      rfl
    have hlast := lastPower_eq_of_agree (agree_bondedSetOrCarry (b := lastUpdatesPrefix) (by decide) st period)
    have h1 : PowersSent (bondedSetOrCarry st period).1 := h.acts (a := []) hlast hroster
    simp only [bondedSetOrCarry_rows]
    exact h1.sendUpdates_rows (hs.bondedSetOrCarry period) (fun s => by rw [hroster, hno]) period

theorem opStep (h : PowersSent st) (hs : Sound st) (host : Host) (op : Op)
    (hc : (roster (Keeper.opStep host st op)).count < 2 ^ 32) : PowersSent (Keeper.opStep host st op) := by
  by_cases hop : ∃ period, op = .validatorUpdates period
  · obtain ⟨period, rfl⟩ := hop
    have hle := (roster st).count_le_acts (opActs host st (.validatorUpdates period))
    rw [← roster_opStep hs] at hle
    exact h.validatorUpdates hs (hs.wf (by omega)) period
  · have ha := agree_opStep (b := lastUpdatesPrefix) (by decide) host st (fun p he => hop ⟨p, he⟩)
    exact h.acts (lastPower_eq_of_agree ha) (roster_opStep hs host op)

end PowersSent

/-- Counts only grow along a run. -/
theorem count_le_run {st : Store} (hs : Sound st) (h : Host) (ops : List Op) :
    (roster st).count ≤ (roster (run (opStep h) st ops)).count := by
  induction ops generalizing st with
  | nil => exact Nat.le_refl _
  | cons op ops ih =>
    have hle := (roster st).count_le_acts (opActs h st op)
    rw [← roster_opStep hs] at hle
    exact hle.trans (ih (hs.op h op))

theorem agree_seedSubjects {b : UInt8} (hb : b ∉ bondedPrefix :: rosterTables) (subs : List GenesisSubject)
    (st : Store) :
    Agree [b] st (subs.foldl seedSubject st) := by
  induction subs generalizing st with
  | nil => exact Agree.refl _ _
  | cons s subs ih =>
    refine Agree.trans ?_ (ih _)
    unfold seedSubject
    split
    · exact Agree.refl _ _
    · split
      · exact agree_acceptProof hb _ _ _ _
      · exact agree_putSubject (List.ne_of_not_mem_cons hb) _ _ _ _

/-- Genesis sends no power yet. -/
theorem lastPower_genesis (gs : GenesisState) (s : Bytes) : lastPower (genesisStore ∅ gs) s = 0 := by
  have hset : Agree [lastUpdatesPrefix] ∅ (setOwnsValset (set (∅ : Store) periodParamKey
      (putI64 (if gs.blocksPerPeriod ≤ 0 then blocksPerPeriod else gs.blocksPerPeriod))) gs.ownsValset) :=
    (agree_set_table (c := periodParamPrefix) (by decide)).trans
      (agree_set_table (c := ownsValsetPrefix) (by decide))
  have hgen : Agree [lastUpdatesPrefix] ∅ (genesisStore ∅ gs) :=
    (hset.trans (agree_seedSubjects (by decide) _ _)).trans (agree_syncObjectRoots (by decide) _)
  rw [← lastPower_eq_of_agree hgen]
  simp [lastPower]

theorem powersSent_genesis (gs : GenesisState) : PowersSent (genesisStore ∅ gs) :=
  fun s hne => absurd (lastPower_genesis gs s) hne

theorem PowersSent.runOps {st : Store} (h : PowersSent st) (hs : Sound st) (host : Host) (ops : List Op)
    (hc : (roster (run (Keeper.opStep host) st ops)).count < 2 ^ 32) :
    PowersSent (run (Keeper.opStep host) st ops) := by
  induction ops generalizing st with
  | nil => exact h
  | cons op ops ih =>
    have hle := count_le_run (hs.op host op) host ops
    rw [run_cons] at hc ⊢
    exact ih (h.opStep hs host op (by omega)) (hs.op host op) hc

theorem Reachable.powersSent {h : Host} {st : Store} (hr : Reachable h st) (hc : (roster st).count < 2 ^ 32) :
    PowersSent st := by
  obtain ⟨gs, st0, ops, hg, rfl⟩ := hr
  obtain rfl := initGenesis_eq_ok hg
  exact (powersSent_genesis gs).runOps (sound_empty.genesisStore gs) h ops hc

end Terpz.Leanval.Keeper
