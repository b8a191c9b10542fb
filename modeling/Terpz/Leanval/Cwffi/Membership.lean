import Terpz.Leanval.Keeper.Powers
import Terpz.Leanval.Cwffi.Participants

/-! The committee simplex seats against the membership the keeper computes. The driver reads
bits and ignores balances, and falls back to period rows when no 32-byte bit is set. -/
namespace Terpz.Leanval.Cwffi
open Lib Lib.BigEndian Lib.PrefixStore Keeper

/-- The keeper's rows with a 32-byte subject and a proof, by subject. -/
def provenRows (st : Store) : List SubjectPower :=
  sortBySubject ((debugSubjectsFromBits st).filter (fun r => r.hasProof && r.subject.length == 32))

/-- The committee in the keeper's terms: each proven subject with its balance. -/
def provenCommittee (st : Store) : Bytes × List UInt64 :=
  (((provenRows st).map (·.subject)).flatten, (provenRows st).map (fun r => r.weight.toUInt64))

theorem provenCommittee_fst (st : Store) : (provenCommittee st).1 = ((provenRows st).map (·.subject)).flatten := rfl

theorem provenCommittee_snd (st : Store) :
    (provenCommittee st).2 = (provenRows st).map (fun r => r.weight.toUInt64) := rfl

/-- Equal committees have equal keys. -/
theorem keys_flatten_eq {st : Store} {epoch : UInt64}
    (h : bondedParticipantsWeights (subspaceQuery st) epoch = provenCommittee st) :
    (committeeKeys (subspaceQuery st) epoch).flatten = ((provenRows st).map (·.subject)).flatten := by
  rw [← committee_fst, h, provenCommittee_fst]

/-- Every 32-byte member has a balance, and without such a member the epoch's rows name nobody. -/
structure Backed (st : Store) (epoch : UInt64) : Prop where
  balance : ∀ s i, Seatable s → (roster st).index s = some i → (roster st).bit i = true → ebOf st i ≠ 0
  fallback : (∃ s, Seatable s ∧ (roster st).Member s) ∨
    ∀ r ∈ bondedSet st epoch, Seatable r.subject → r.hasProof = false

section Rows
variable {st : Store}

theorem flatten_injective {l m : List Bytes} (hl : ∀ k ∈ l, Seatable k) (hm : ∀ k ∈ m, Seatable k)
    (h : l.flatten = m.flatten) : l = m := by
  have hchunks := chunks_flatten id hl
  rw [h, chunks_flatten id hm, List.map_id, List.map_id] at hchunks
  exact hchunks.symm

theorem mem_provenRows (hs : Sound st) (hwf : (roster st).WF) {r : SubjectPower} :
    r ∈ provenRows st ↔ ∃ s i, Seatable s ∧ (roster st).index s = some i ∧ (roster st).bit i = true ∧
      ebOf st i ≠ 0 ∧ r = memberRow st s i := by
  rw [provenRows, sortBySubject, List.mem_insertionSort, List.mem_filter, mem_debugSubjectsFromBits hs hwf]
  constructor
  · rintro ⟨⟨s, i, hi, hb, rfl⟩, hp⟩
    simp only [memberRow, Bool.and_eq_true, decide_eq_true_eq, beq_iff_eq] at hp
    exact ⟨s, i, hp.2, hi, hb, UInt8.pos_iff_ne_zero.mp hp.1, rfl⟩
  · rintro ⟨s, i, hl, hi, hb, he, rfl⟩
    have hl : s.length = 32 := hl
    refine ⟨⟨s, i, hi, hb, rfl⟩, ?_⟩
    simp only [memberRow, Bool.and_eq_true, decide_eq_true_eq, beq_iff_eq]
    exact ⟨UInt8.pos_iff_ne_zero.mpr he, hl⟩

theorem mem_provenSubjects (hs : Sound st) (hwf : (roster st).WF) {s : Bytes} :
    s ∈ (provenRows st).map (·.subject) ↔
      Seatable s ∧ ∃ i, (roster st).index s = some i ∧ (roster st).bit i = true ∧ ebOf st i ≠ 0 := by
  rw [List.mem_map]
  constructor
  · rintro ⟨r, hr, rfl⟩
    obtain ⟨s, i, hl, hi, hb, he, rfl⟩ := (mem_provenRows hs hwf).mp hr
    exact ⟨hl, i, hi, hb, he⟩
  · rintro ⟨hl, i, hi, hb, he⟩
    exact ⟨memberRow st s i, (mem_provenRows hs hwf).mpr ⟨s, i, hl, hi, hb, he, rfl⟩, rfl⟩

theorem provenSubjects_nodup (hs : Sound st) (hwf : (roster st).WF) : ((provenRows st).map (·.subject)).Nodup := by
  refine ((List.perm_insertionSort _ _).map _).nodup_iff.mpr ?_
  exact (debugSubjectsFromBits_nodup hs hwf).sublist (List.filter_sublist.map _)

/-- The proven subjects, each once and in byte order. -/
theorem provenSubjects_sorted (hs : Sound st) (hwf : (roster st).WF) :
    ((provenRows st).map (·.subject)).Pairwise (· < ·) := by
  have hle : ((provenRows st).map (·.subject)).Pairwise (· ≤ ·) := by
    rw [provenRows, sortBySubject, List.map_insertionSort _ (· ≤ ·) _ _ (fun _ _ _ _ => Iff.rfl)]
    exact List.pairwise_insertionSort _ _
  refine (hle.and (provenSubjects_nodup hs hwf)).imp ?_
  rintro a b ⟨hab, hne⟩
  exact (List.le_iff_lt_or_eq.mp hab).resolve_right hne

end Rows

section Seated
variable {st : Store} (hs : Sound st) (hwf : (roster st).WF) (ha : Addressable st) {t : Bytes} (ht : Seatable t)
  (hm : (roster st).Member t)
include hs hwf ha ht hm

private theorem seated_keys_eq (epoch : UInt64)
    (hbal : ∀ s i, Seatable s → (roster st).index s = some i → (roster st).bit i = true → ebOf st i ≠ 0) :
    committeeKeys (subspaceQuery st) epoch = (provenRows st).map (·.subject) := by
  have hsorted := provenSubjects_sorted hs hwf
  have hperm : (pubkeysFromBits (subspaceQuery st subspacePath [bitfieldPrefix])
      (subspaceQuery st subspacePath [depositIndexPrefix])).Perm ((provenRows st).map (·.subject)) := by
    refine (List.perm_ext_iff_of_nodup (pubkeysFromBits_nodup ha) (provenSubjects_nodup hs hwf)).mpr ?_
    intro s
    rw [mem_pubkeysFromBits ha, mem_provenSubjects hs hwf]
    constructor
    · rintro ⟨hl, i, hi, hb⟩
      exact ⟨hl, i, hi, hb, hbal s i hl hi hb⟩
    · rintro ⟨hl, i, hi, hb, _⟩
      exact ⟨hl, i, hi, hb⟩
  rw [committeeKeys_eq ha ht hm]
  exact ((List.perm_insertionSort _ _).trans hperm).eq_of_pairwise (fun a b _ _ hab hba => List.le_antisymm hab hba)
    (List.pairwise_insertionSort (· ≤ ·) _) (hsorted.imp List.le_of_lt)

/-- While a 32-byte member is set, the seated committee is the keeper's if no such member is without balance. -/
theorem seated_iff_balance (epoch : UInt64) :
    bondedParticipantsWeights (subspaceQuery st) epoch = provenCommittee st ↔
      ∀ s i, Seatable s → (roster st).index s = some i → (roster st).bit i = true → ebOf st i ≠ 0 := by
  constructor
  · intro heq s i hl hi hb
    have hkeys : committeeKeys (subspaceQuery st) epoch = (provenRows st).map (·.subject) :=
      flatten_injective (fun k hk => ((mem_committeeKeys ha ht hm epoch).mp hk).1)
        (fun k hk => ((mem_provenSubjects hs hwf).mp hk).1) (keys_flatten_eq heq)
    have hmem := (mem_committeeKeys ha ht hm epoch).mpr ⟨hl, i, hi, hb⟩
    rw [hkeys] at hmem
    obtain ⟨_, j, hj, _, he⟩ := (mem_provenSubjects hs hwf).mp hmem
    obtain rfl : i = j := Option.some.inj (hi.symm.trans hj)
    exact he
  · intro hbal
    have hkeys := seated_keys_eq hs hwf ha ht hm epoch hbal
    refine Prod.ext ?_ ?_
    · rw [committee_fst, hkeys, provenCommittee_fst]
    · rw [committee_weights ha ht hm, hkeys, List.map_map, provenCommittee_snd]
      refine List.map_congr_left ?_
      intro r hr
      obtain ⟨s, i, _, hi, _, he, rfl⟩ := (mem_provenRows hs hwf).mp hr
      have hw : (ebOf st i).toUInt64 > 0 := by
        rw [gt_iff_lt, UInt64.lt_iff_toNat_lt, UInt8.toNat_toUInt64]
        exact UInt8.lt_iff_toNat_lt.mp (UInt8.pos_iff_ne_zero.mpr he)
      simp only [Function.comp, weightOf, memberRow_subject, hi, eb_of_ebOf_ne_zero he, Option.map_some, if_pos hw]
      exact (UInt64.toUInt64_toInt64 _).symm

end Seated

section Unseated
variable {st : Store} {epoch : UInt64}

/-- A pair of the period's answer decodes to the keeper's row for it. -/
private theorem bondedSetRow_eq {pref k : Bytes} (hk : pref <+: k) (v : Bytes) :
    bondedSetRow pref ⟨k, v⟩ = some ⟨(bondedRow pref (k, v)).subject, (bondedRow pref (k, v)).weight,
      (bondedRow pref (k, v)).hasProof⟩ := by
  rw [bondedSetRow, if_neg (Nat.not_lt.mpr hk.length_le)]
  by_cases hv : v.length < 9
  · simp [bondedRow, decodeRec, hv]
  · simp [bondedRow, decodeRec, hv, Nat.le_of_not_lt hv]

/-- The keys of the fall-back are the 32-byte subjects of the period's accepted rows. -/
theorem mem_pubkeysFromBonded
    (hb : (subspaceQuery st subspacePath (bondedPrefixForPeriod epoch)).length < 2 ^ 63) {s : Bytes} :
    s ∈ pubkeysFromBonded (subspaceQuery st subspacePath (bondedPrefixForPeriod epoch)) epoch ↔
      Seatable s ∧ ∃ r ∈ bondedSet st epoch, r.subject = s ∧ r.hasProof = true := by
  unfold subspaceQuery at hb ⊢
  rw [if_pos rfl] at hb ⊢
  rw [pubkeysFromBonded, decodeBondedSubspace_encode _ _ hb]
  simp only [List.mem_map, List.mem_filter, List.mem_filterMap, decide_eq_true_eq]
  constructor
  · rintro ⟨row, ⟨⟨_, ⟨⟨k, v⟩, he, rfl⟩, hrow⟩, hl, hp⟩, rfl⟩
    rw [bondedSetRow_eq (mem_iteratePrefix.mp he).1] at hrow
    obtain rfl := Option.some.inj hrow
    refine ⟨hl, bondedRow (bondedPrefixForPeriod epoch) (k, v), ?_, rfl, hp⟩
    rw [bondedSet, sortBySubject, List.mem_insertionSort]
    exact List.mem_map.mpr ⟨(k, v), he, rfl⟩
  · rintro ⟨hl, r, hr, rfl, hp⟩
    rw [bondedSet, sortBySubject, List.mem_insertionSort] at hr
    obtain ⟨⟨k, v⟩, he, rfl⟩ := List.mem_map.mp hr
    exact ⟨_, ⟨⟨_, ⟨(k, v), he, rfl⟩, bondedSetRow_eq (mem_iteratePrefix.mp he).1 v⟩, hl, hp⟩, rfl⟩

/-- With no 32-byte member set, the committee is empty, as the keeper's is, unless the epoch's rows name a key. -/
theorem unseated_iff_fallback (hs : Sound st) (hwf : (roster st).WF) (ha : Addressable st)
    (hb : (subspaceQuery st subspacePath (bondedPrefixForPeriod epoch)).length < 2 ^ 63)
    (hno : ¬ ∃ s, Seatable s ∧ (roster st).Member s) :
    bondedParticipantsWeights (subspaceQuery st) epoch = provenCommittee st ↔
      ∀ r ∈ bondedSet st epoch, Seatable r.subject → r.hasProof = false := by
  have hproven : provenRows st = [] := by
    refine List.eq_nil_iff_forall_not_mem.mpr ?_
    intro r hr
    obtain ⟨s, i, hl, hi, hbit, _⟩ := (mem_provenRows hs hwf).mp hr
    exact hno ⟨s, hl, i, hi, hbit⟩
  have hbits : pubkeysFromBits (subspaceQuery st subspacePath [bitfieldPrefix])
      (subspaceQuery st subspacePath [depositIndexPrefix]) = [] := by
    refine List.eq_nil_iff_forall_not_mem.mpr ?_
    intro s h
    exact hno ⟨s, (mem_pubkeysFromBits ha).mp h⟩
  have hmem (s : Bytes) : s ∈ committeeKeys (subspaceQuery st) epoch ↔
      Seatable s ∧ ∃ r ∈ bondedSet st epoch, r.subject = s ∧ r.hasProof = true := by
    rw [committeeKeys, hbits, if_pos List.length_nil, List.mem_insertionSort, mem_pubkeysFromBonded hb]
  constructor
  · intro heq r hr hl
    have hflat := keys_flatten_eq heq
    rw [hproven, List.map_nil] at hflat
    have hkeys : committeeKeys (subspaceQuery st) epoch = [] :=
      flatten_injective (fun k hk => ((hmem k).mp hk).1) (fun _ h => absurd h List.not_mem_nil) hflat
    rw [Bool.eq_false_iff]
    intro hp
    have := (hmem r.subject).mpr ⟨hl, r, hr, rfl, hp⟩
    rw [hkeys] at this
    exact absurd this List.not_mem_nil
  · intro hrows
    have hkeys : committeeKeys (subspaceQuery st) epoch = [] := by
      refine List.eq_nil_iff_forall_not_mem.mpr ?_
      intro s h
      obtain ⟨hl, r, hr, rfl, hp⟩ := (hmem s).mp h
      rw [hrows r hr hl] at hp
      cases hp
    rw [bondedParticipantsWeights, bondedParticipants, hkeys, provenCommittee, hproven]
    rfl

end Unseated

/-- The committee simplex seats for a reachable store is the keeper's proven rows, sorted, each
once and with its balance, exactly when every 32-byte member has a balance and the epoch's rows
stand in for nobody. -/
theorem committee_is_keeper_membership_iff (h : Host) {st : Store} (hr : Reachable h st)
    (hc : (roster st).count < 2 ^ 32) (ha : Addressable st) (epoch : UInt64)
    (hb : (subspaceQuery st subspacePath (bondedPrefixForPeriod epoch)).length < 2 ^ 63) :
    (bondedParticipantsWeights (subspaceQuery st) epoch = provenCommittee st ↔ Backed st epoch) ∧
      ((provenRows st).map (·.subject)).Pairwise (· < ·) := by
  have hs := hr.sound
  have hwf := hs.wf hc
  refine ⟨?_, provenSubjects_sorted hs hwf⟩
  by_cases hm : ∃ s, Seatable s ∧ (roster st).Member s
  · obtain ⟨t, ht, hm'⟩ := hm
    rw [seated_iff_balance hs hwf ha ht hm']
    exact ⟨fun hbal => ⟨hbal, .inl ⟨t, ht, hm'⟩⟩, Backed.balance⟩
  · rw [unseated_iff_fallback hs hwf ha hb hm]
    constructor
    · intro hrows
      exact ⟨fun s i hl hi hbit => absurd ⟨s, hl, i, hi, hbit⟩ hm, .inr hrows⟩
    · intro hbacked
      exact hbacked.fallback.resolve_left hm

theorem committee_is_keeper_membership_duo :
    Backed (genesisStore ∅ duoGenesis) 0 ∧
      ((provenRows (genesisStore ∅ duoGenesis)).map (·.subject)).Pairwise (· < ·) := by
  have hfacts : (roster (genesisStore ∅ duoGenesis)).count < 2 ^ 32 ∧
      (∀ b ∈ [bitfieldPrefix, depositIndexPrefix, ebPrefix],
        (subspaceQuery (genesisStore ∅ duoGenesis) subspacePath [b]).length < 2 ^ 63) ∧
      (subspaceQuery (genesisStore ∅ duoGenesis) subspacePath (bondedPrefixForPeriod 0)).length < 2 ^ 63 ∧
      bondedParticipantsWeights (subspaceQuery (genesisStore ∅ duoGenesis)) 0 =
        provenCommittee (genesisStore ∅ duoGenesis) := by
    decide +kernel
  obtain ⟨hc, ha, hb, heq⟩ := hfacts
  have hmain := committee_is_keeper_membership_iff dummyHost ⟨duoGenesis, _, [], rfl, rfl⟩ hc ha 0 hb
  exact ⟨hmain.1.mp heq, hmain.2⟩

/-- A validator that left and joined again: its bit is back, its balance is not. -/
def rejoinedStore : Store :=
  run (opStep dummyHost) (genesisStore ∅ duoGenesis) [.applyLeave ⟨0, keyOf 0xb2⟩, .applyJoin ⟨0, keyOf 0xb2, 7, []⟩]

/-- The only validator left in period 1; its row of period 0 stays. -/
def emptiedStore : Store := run (opStep dummyHost) (genesisStore ∅ soloGenesis) [.applyLeave ⟨1, keyOf 0xa1⟩]

/-- A member without balance is seated with weight 1, and a leaver is seated from an old row. -/
theorem committee_seats_unproven :
    (Reachable dummyHost rejoinedStore ∧
      bondedParticipantsWeights (subspaceQuery rejoinedStore) 0 = (keyOf 0xa1 ++ keyOf 0xb2, [10, 1]) ∧
      provenCommittee rejoinedStore = (keyOf 0xa1, [10])) ∧
    (Reachable dummyHost emptiedStore ∧
      bondedParticipantsWeights (subspaceQuery emptiedStore) 0 = (keyOf 0xa1, [1]) ∧
      provenCommittee emptiedStore = ([], [])) := by
  have hfacts : (bondedParticipantsWeights (subspaceQuery rejoinedStore) 0 = (keyOf 0xa1 ++ keyOf 0xb2, [10, 1]) ∧
      provenCommittee rejoinedStore = (keyOf 0xa1, [10])) ∧
      bondedParticipantsWeights (subspaceQuery emptiedStore) 0 = (keyOf 0xa1, [1]) ∧
      provenCommittee emptiedStore = ([], []) := by
    decide +kernel
  exact ⟨⟨⟨duoGenesis, _, _, rfl, rfl⟩, hfacts.1⟩, ⟨soloGenesis, _, _, rfl, rfl⟩, hfacts.2⟩

end Terpz.Leanval.Cwffi
