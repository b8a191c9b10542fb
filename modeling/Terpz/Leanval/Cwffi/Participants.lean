import Terpz.Lib.Overwrite
import Terpz.Leanval.Types.Pairs
import Terpz.Leanval.Keeper.Bonded

/-! The simplex committee, read from the store's subspace queries: sorted 32-byte keys with
their bit set, or the period's accepted rows when no bit is set, with balances as weights. -/
namespace Terpz.Leanval.Cwffi
open Lib Lib.BigEndian Lib.PrefixStore

abbrev StoreQuery := String → Bytes → Bytes

def subspacePath : String := "/store/leanval/subspace"

/-- A node's answer about its own committed store. -/
def subspaceQuery (st : Store) : StoreQuery := fun path data =>
  if path = subspacePath then encodeKVPairs ((iteratePrefix st data).map (fun e => ⟨e.1, e.2⟩)) else []

/-- The pairs of an answer; one that does not decode has none. -/
def subspacePairs (raw : Bytes) : List KV := (decodeSubspacePairs raw).toOption.getD []

/-- The value stored under exactly the bitfield key. -/
def bitfieldEntry (p : KV) : Option (Unit × Bytes) := if p.key = bitfieldKey then some ((), p.value) else none

def storedBitfield (pairs : List KV) : Bytes := overwrite (fun _ => []) (pairs.filterMap bitfieldEntry) ()

/-- The subject and number of a deposit-index pair with a 32-byte subject. -/
def indexedKey (p : KV) : Option (Bytes × UInt32) :=
  match p.key with
  | [] => none
  | b :: subj =>
    if b ≠ depositIndexPrefix ∨ subj.length ≠ 32 ∨ p.value.length < 5 then none
    else some (subj, getU32 (p.value.drop (p.value.length - 4)))

/-- The number and balance of a well-formed EB pair. -/
def ebEntry (p : KV) : Option (UInt32 × UInt64) :=
  match p.key, p.value with
  | b :: idx, v :: _ => if b = ebPrefix ∧ idx.length = 4 then some (getU32 idx, v.toUInt64) else none
  | _, _ => none

def ebByIdx (pairs : List KV) : UInt32 → Option UInt64 :=
  overwrite (fun _ => none) ((pairs.filterMap ebEntry).map (fun e => (e.1, some e.2)))

def subjIdx (pairs : List KV) : Bytes → Option UInt32 :=
  overwrite (fun _ => none) ((pairs.filterMap indexedKey).map (fun e => (e.1, some e.2)))

def pubkeysFromBits (bfRaw idxRaw : Bytes) : List Bytes :=
  let bf := storedBitfield (subspacePairs bfRaw)
  if bf.length = 0 then []
  else (((subspacePairs idxRaw).filterMap indexedKey).filter (fun e => Keeper.bitGet bf e.2)).map (·.1)

def pubkeysFromBonded (raw : Bytes) (epoch : UInt64) : List Bytes :=
  match decodeBondedSubspace epoch raw with
  | .error _ => []
  | .ok rows => (rows.filter (fun r => r.subject.length = 32 ∧ r.hasProof = true)).map (·.subject)

def committeeKeys (q : StoreQuery) (epoch : UInt64) : List Bytes :=
  let pks := pubkeysFromBits (q subspacePath [bitfieldPrefix]) (q subspacePath [depositIndexPrefix])
  let pks := if pks.length = 0 then pubkeysFromBonded (q subspacePath (bondedPrefixForPeriod epoch)) epoch else pks
  pks.insertionSort (· ≤ ·)

/-- The sorted keys, concatenated. -/
def bondedParticipants (q : StoreQuery) (epoch : UInt64) : Bytes := (committeeKeys q epoch).flatten

/-- A key without a positive balance weighs 1. -/
def weightOf (index : Bytes → Option UInt32) (eb : UInt32 → Option UInt64) (subj : Bytes) : UInt64 :=
  match index subj with
  | none => 1
  | some idx =>
    match eb idx with
    | none => 1
    | some w => if w > 0 then w else 1

def bondedParticipantsWeights (q : StoreQuery) (epoch : UInt64) : Bytes × List UInt64 :=
  let pks := bondedParticipants q epoch
  let index := subjIdx (subspacePairs (q subspacePath [depositIndexPrefix]))
  let eb := ebByIdx (subspacePairs (q subspacePath [ebPrefix]))
  (pks, (List.range (pks.length / 32)).map (fun i => weightOf index eb ((pks.drop (i * 32)).take 32)))

/-- The answers about a store's membership tables are short enough to be sliced. -/
def Addressable (st : Store) : Prop :=
  ∀ b ∈ [bitfieldPrefix, depositIndexPrefix, ebPrefix], (subspaceQuery st subspacePath [b]).length < 2 ^ 63

section Answers
variable {st : Store}

def tablePairs (st : Store) (b : UInt8) : List KV := (iteratePrefix st [b]).map (fun e => ⟨e.1, e.2⟩)

theorem subspacePairs_query (h : Addressable st) {b : UInt8} (hb : b ∈ [bitfieldPrefix, depositIndexPrefix, ebPrefix]) :
    subspacePairs (subspaceQuery st subspacePath [b]) = tablePairs st b := by
  have hlen := h b hb
  unfold subspaceQuery at hlen ⊢
  rw [if_pos rfl] at hlen ⊢
  rw [subspacePairs, decodeSubspacePairs_encode _ hlen]
  rfl

theorem mem_tablePairs {b : UInt8} {k v : Bytes} : ⟨k, v⟩ ∈ tablePairs st b ↔ [b] <+: k ∧ st[k]? = some v := by
  rw [← mem_iteratePrefix, tablePairs, List.mem_map]
  constructor
  · rintro ⟨⟨k', v'⟩, he, hkv⟩
    obtain ⟨rfl, rfl⟩ := KV.mk.inj hkv
    exact he
  · intro he
    exact ⟨(k, v), he, rfl⟩

theorem tablePairs_nodup (st : Store) (b : UInt8) : ((tablePairs st b).map KV.key).Nodup := by
  rw [tablePairs, List.map_map]
  exact iteratePrefix_keys_nodup st [b]

private theorem bitfieldEntry_eq_some {k v w : Bytes} {u : Unit} :
    bitfieldEntry ⟨k, v⟩ = some (u, w) ↔ k = bitfieldKey ∧ v = w := by
  by_cases hk : k = bitfieldKey <;> simp [bitfieldEntry, hk]

private theorem storedBitfield_eq (st : Store) :
    storedBitfield (tablePairs st bitfieldPrefix) = get st bitfieldKey := by
  unfold storedBitfield
  cases hv : st[bitfieldKey]? with
  | none =>
    rw [overwrite_of_not_mem, PrefixStore.get, hv]
    · rfl
    · intro hk
      obtain ⟨⟨_, w⟩, he, _⟩ := List.mem_map.mp hk
      obtain ⟨⟨k, v⟩, hp, hkv⟩ := List.mem_filterMap.mp he
      obtain ⟨rfl, rfl⟩ := bitfieldEntry_eq_some.mp hkv
      rw [(mem_tablePairs.mp hp).2] at hv
      cases hv
  | some v =>
    rw [get_of_getElem? hv]
    refine overwrite_of_mem (filterMap_keys_nodup (tablePairs_nodup st _) ?_) ?_ _
    · rintro ⟨k, v⟩ ⟨k', v'⟩ u w w' ha hb
      exact (bitfieldEntry_eq_some.mp ha).1.trans (bitfieldEntry_eq_some.mp hb).1.symm
    · exact List.mem_filterMap.mpr ⟨⟨bitfieldKey, v⟩, mem_tablePairs.mpr ⟨List.prefix_refl _, hv⟩,
        bitfieldEntry_eq_some.mpr ⟨rfl, rfl⟩⟩

private theorem indexedKey_eq_some {k v s : Bytes} {i : UInt32} :
    indexedKey ⟨k, v⟩ = some (s, i) ↔ k = depositIndexKey s ∧ s.length = 32 ∧ Keeper.indexOfValue v = some i := by
  cases k with
  | nil => simp [indexedKey, depositIndexKey]
  | cons b subj =>
    simp only [indexedKey, depositIndexKey, Keeper.indexOfValue, Option.ite_none_left_eq_some, Option.some.injEq,
      Prod.mk.injEq, List.cons.injEq, not_or, not_not]
    constructor
    · rintro ⟨⟨rfl, hl, hv⟩, rfl, rfl⟩
      exact ⟨⟨rfl, rfl⟩, hl, hv, rfl⟩
    · rintro ⟨⟨rfl, rfl⟩, hl, hv, rfl⟩
      exact ⟨⟨rfl, hl, hv⟩, rfl, rfl⟩

private theorem mem_indexedKeys {s : Bytes} {i : UInt32} :
    (s, i) ∈ (tablePairs st depositIndexPrefix).filterMap indexedKey ↔
      s.length = 32 ∧ (Keeper.roster st).index s = some i := by
  rw [List.mem_filterMap]
  constructor
  · rintro ⟨⟨k, v⟩, hp, he⟩
    obtain ⟨rfl, hl, hi⟩ := indexedKey_eq_some.mp he
    refine ⟨hl, ?_⟩
    rw [← hi]
    exact congrArg Keeper.indexOfValue (get_of_getElem? (mem_tablePairs.mp hp).2)
  · rintro ⟨hl, hi⟩
    cases hv : st[depositIndexKey s]? with
    | none =>
      have hi : Keeper.indexOfValue (get st (depositIndexKey s)) = some i := hi
      rw [PrefixStore.get, hv] at hi
      cases hi
    | some v =>
      have hi : Keeper.indexOfValue (get st (depositIndexKey s)) = some i := hi
      rw [get_of_getElem? hv] at hi
      exact ⟨⟨depositIndexKey s, v⟩, mem_tablePairs.mpr ⟨⟨s, rfl⟩, hv⟩, indexedKey_eq_some.mpr ⟨rfl, hl, hi⟩⟩

private theorem indexedKeys_nodup (st : Store) :
    (((tablePairs st depositIndexPrefix).filterMap indexedKey).map Prod.fst).Nodup := by
  refine filterMap_keys_nodup (tablePairs_nodup st _) ?_
  rintro ⟨k, v⟩ ⟨k', v'⟩ s i j ha hb
  exact (indexedKey_eq_some.mp ha).1.trans (indexedKey_eq_some.mp hb).1.symm

private theorem ebEntry_eq_some {k v : Bytes} {i : UInt32} {w : UInt64} :
    ebEntry ⟨k, v⟩ = some (i, w) ↔ k = ebKey i ∧ v.head?.map UInt8.toUInt64 = some w := by
  cases k with
  | nil => simp [ebEntry, ebKey]
  | cons b idx =>
    cases v with
    | nil => simp [ebEntry]
    | cons e v =>
      simp only [ebEntry, ebKey, List.cons.injEq, List.head?_cons, Option.map_some, Option.some.injEq]
      by_cases hc : b = ebPrefix ∧ idx.length = 4
      · rw [if_pos hc]
        simp only [Option.some.injEq, Prod.mk.injEq, hc.1, true_and]
        constructor
        · rintro ⟨rfl, rfl⟩
          rw [putU32_getU32 hc.2.ge, List.take_of_length_le hc.2.le]
          exact ⟨rfl, rfl⟩
        · rintro ⟨rfl, rfl⟩
          exact ⟨getU32_putU32 i, rfl⟩
      · rw [if_neg hc]
        constructor
        · intro h
          cases h
        · rintro ⟨⟨rfl, rfl⟩, _⟩
          exact absurd ⟨rfl, putU32_length i⟩ hc

private theorem ebEntries_nodup (st : Store) : (((tablePairs st ebPrefix).filterMap ebEntry).map Prod.fst).Nodup := by
  refine filterMap_keys_nodup (tablePairs_nodup st _) ?_
  rintro ⟨k, v⟩ ⟨k', v'⟩ i w w' ha hb
  exact (ebEntry_eq_some.mp ha).1.trans (ebEntry_eq_some.mp hb).1.symm

private theorem mem_ebEntries {i : UInt32} {w : UInt64} :
    (i, w) ∈ (tablePairs st ebPrefix).filterMap ebEntry ↔ ((Keeper.roster st).eb i).map UInt8.toUInt64 = some w := by
  change _ ↔ (get st (ebKey i)).head?.map UInt8.toUInt64 = some w
  rw [List.mem_filterMap]
  constructor
  · rintro ⟨⟨k, v⟩, hp, he⟩
    obtain ⟨rfl, hw⟩ := ebEntry_eq_some.mp he
    rw [get_of_getElem? (mem_tablePairs.mp hp).2, hw]
  · intro hw
    cases hv : st[ebKey i]? with
    | none =>
      rw [PrefixStore.get, hv] at hw
      cases hw
    | some v =>
      rw [get_of_getElem? hv] at hw
      exact ⟨⟨ebKey i, v⟩, mem_tablePairs.mpr ⟨⟨_, rfl⟩, hv⟩, ebEntry_eq_some.mpr ⟨rfl, hw⟩⟩

theorem subjIdx_eq {s : Bytes} (hs : s.length = 32) :
    subjIdx (tablePairs st depositIndexPrefix) s = (Keeper.roster st).index s := by
  apply Option.ext
  intro i
  rw [subjIdx, overwrite_some_iff (indexedKeys_nodup st), mem_indexedKeys]
  simp [hs]

theorem ebByIdx_eq (i : UInt32) :
    ebByIdx (tablePairs st ebPrefix) i = ((Keeper.roster st).eb i).map UInt8.toUInt64 := by
  apply Option.ext
  intro w
  rw [ebByIdx, overwrite_some_iff (ebEntries_nodup st), mem_ebEntries]

/-- The keys read from the raw answers are the 32-byte members. -/
theorem mem_pubkeysFromBits (h : Addressable st) {s : Bytes} :
    s ∈ pubkeysFromBits (subspaceQuery st subspacePath [bitfieldPrefix])
        (subspaceQuery st subspacePath [depositIndexPrefix]) ↔
      s.length = 32 ∧ (Keeper.roster st).Member s := by
  rw [pubkeysFromBits, subspacePairs_query h (by simp), subspacePairs_query h (by simp), storedBitfield_eq]
  split
  · rename_i hl
    simp only [List.not_mem_nil, false_iff]
    rintro ⟨_, i, _, hb⟩
    have hb : Keeper.bitGet (Keeper.bitfield st) i = true := hb
    rw [Keeper.bitfield, if_pos hl, Keeper.bitGet_zero] at hb
    cases hb
  · rename_i hl
    have hbf : get st bitfieldKey = Keeper.bitfield st := by rw [Keeper.bitfield, if_neg hl]
    rw [hbf, List.mem_map]
    constructor
    · rintro ⟨⟨s, i⟩, he, rfl⟩
      obtain ⟨he, hb⟩ := List.mem_filter.mp he
      obtain ⟨hs, hi⟩ := mem_indexedKeys.mp he
      exact ⟨hs, i, hi, hb⟩
    · rintro ⟨hs, i, hi, hb⟩
      exact ⟨(s, i), List.mem_filter.mpr ⟨mem_indexedKeys.mpr ⟨hs, hi⟩, hb⟩, rfl⟩

theorem pubkeysFromBits_nodup (h : Addressable st) :
    (pubkeysFromBits (subspaceQuery st subspacePath [bitfieldPrefix])
      (subspaceQuery st subspacePath [depositIndexPrefix])).Nodup := by
  rw [pubkeysFromBits, subspacePairs_query h (by simp), subspacePairs_query h (by simp)]
  split
  · exact List.nodup_nil
  · exact (indexedKeys_nodup st).sublist (List.filter_sublist.map _)

end Answers

section Committee

/-- Cutting the concatenation of 32-byte keys gives the keys back. -/
theorem chunks_flatten {β : Type} (f : Bytes → β) {keys : List Bytes} (hk : ∀ k ∈ keys, k.length = 32) :
    (List.range (keys.flatten.length / 32)).map (fun i => f ((keys.flatten.drop (i * 32)).take 32)) = keys.map f := by
  induction keys with
  | nil => rfl
  | cons k keys ih =>
    have hl := hk k List.mem_cons_self
    have hdiv : (k :: keys).flatten.length / 32 = keys.flatten.length / 32 + 1 := by
      rw [List.flatten_cons, List.length_append, hl]
      omega
    have hdrop (i : Nat) : (k :: keys).flatten.drop (i.succ * 32) = keys.flatten.drop (i * 32) := by
      rw [List.flatten_cons, show i.succ * 32 = k.length + i * 32 by rw [hl, Nat.succ_mul]; omega,
        List.drop_length_add_append]
    rw [hdiv, List.range_succ_eq_map, List.map_cons, List.map_map, List.map_cons,
      ← ih (fun k hk' => hk k (List.mem_cons_of_mem _ hk'))]
    congr 1
    · rw [Nat.zero_mul, List.drop_zero, List.flatten_cons, List.take_left' hl]
    · refine List.map_congr_left ?_
      intro i _
      simp only [Function.comp, hdrop]

/-- A key that simplex can seat. -/
def Seatable (s : Bytes) : Prop := s.length = 32

variable {st st' : Store}

theorem committeeKeys_eq (h : Addressable st) {s : Bytes} (hs : Seatable s) (hm : (Keeper.roster st).Member s)
    (epoch : UInt64) : committeeKeys (subspaceQuery st) epoch =
      (pubkeysFromBits (subspaceQuery st subspacePath [bitfieldPrefix])
        (subspaceQuery st subspacePath [depositIndexPrefix])).insertionSort (· ≤ ·) := by
  have hmem := (mem_pubkeysFromBits h).mpr ⟨hs, hm⟩
  rw [committeeKeys, if_neg (fun hl => List.ne_nil_of_mem hmem (List.length_eq_zero_iff.mp hl))]

theorem mem_committeeKeys (h : Addressable st) {s : Bytes} (hs : Seatable s) (hm : (Keeper.roster st).Member s)
    (epoch : UInt64) {t : Bytes} :
    t ∈ committeeKeys (subspaceQuery st) epoch ↔ Seatable t ∧ (Keeper.roster st).Member t := by
  rw [committeeKeys_eq h hs hm, List.mem_insertionSort, mem_pubkeysFromBits h]
  rfl

/-- The weights beside the keys, from each key's number and byte. -/
theorem committee_weights (h : Addressable st) {s : Bytes} (hs : Seatable s) (hm : (Keeper.roster st).Member s)
    (epoch : UInt64) : (bondedParticipantsWeights (subspaceQuery st) epoch).2 =
      (committeeKeys (subspaceQuery st) epoch).map (weightOf (Keeper.roster st).index
        (fun i => ((Keeper.roster st).eb i).map UInt8.toUInt64)) := by
  have hlen : ∀ k ∈ committeeKeys (subspaceQuery st) epoch, k.length = 32 :=
    fun k hk => ((mem_committeeKeys h hs hm epoch).mp hk).1
  rw [bondedParticipantsWeights, bondedParticipants, chunks_flatten _ hlen, subspacePairs_query h (by simp),
    subspacePairs_query h (by simp)]
  refine List.map_congr_left ?_
  intro k hk
  simp only [weightOf, subjIdx_eq (hlen k hk), ebByIdx_eq]

theorem committee_fst (q : StoreQuery) (epoch : UInt64) :
    (bondedParticipantsWeights q epoch).1 = (committeeKeys q epoch).flatten := rfl

theorem committee_ne_nil (h : Addressable st) {s : Bytes} (hs : Seatable s) (hm : (Keeper.roster st).Member s)
    (epoch : UInt64) : (bondedParticipantsWeights (subspaceQuery st) epoch).1.length ≠ 0 := by
  obtain ⟨pre, post, he⟩ := List.append_of_mem ((mem_committeeKeys h hs hm epoch).mpr ⟨hs, hm⟩)
  have hlen : s.length = 32 := hs
  rw [committee_fst, he, List.flatten_append, List.flatten_cons, List.length_append, List.length_append]
  omega

private theorem insertionSort_eq_of_perm {l m : List Bytes} (h : l.Perm m) :
    l.insertionSort (· ≤ ·) = m.insertionSort (· ≤ ·) := by
  have hperm := ((List.perm_insertionSort (· ≤ ·) l).trans h).trans (List.perm_insertionSort (· ≤ ·) m).symm
  exact hperm.eq_of_pairwise (fun a b _ _ hab hba => List.le_antisymm hab hba)
    (List.pairwise_insertionSort (· ≤ ·) l) (List.pairwise_insertionSort (· ≤ ·) m)

/-- Stores with the same seatable members, numbers and bytes seat the same committee, whichever
epoch is asked for. -/
theorem committee_congr (h : Addressable st) (h' : Addressable st')
    (hsame : (Keeper.roster st).SameOn Seatable (Keeper.roster st')) {s : Bytes} (hs : Seatable s)
    (hm : (Keeper.roster st).Member s) (epoch epoch' : UInt64) :
    bondedParticipantsWeights (subspaceQuery st') epoch' = bondedParticipantsWeights (subspaceQuery st) epoch := by
  have hm' : (Keeper.roster st').Member s := (hsame.member_iff hs).mpr hm
  have hkeys : committeeKeys (subspaceQuery st') epoch' = committeeKeys (subspaceQuery st) epoch := by
    rw [committeeKeys_eq h' hs hm', committeeKeys_eq h hs hm]
    refine insertionSort_eq_of_perm ?_
    refine (List.perm_ext_iff_of_nodup (pubkeysFromBits_nodup h') (pubkeysFromBits_nodup h)).mpr ?_
    intro t
    rw [mem_pubkeysFromBits h', mem_pubkeysFromBits h]
    exact and_congr_right (fun ht => hsame.member_iff ht)
  refine Prod.ext (by rw [committee_fst, committee_fst, hkeys]) ?_
  rw [committee_weights h' hs hm', committee_weights h hs hm, hkeys]
  refine List.map_congr_left ?_
  intro k hk
  obtain ⟨hk, i, hi, hb⟩ := (mem_committeeKeys h hs hm epoch).mp hk
  have hi' := ((hsame.member k i hk).mpr ⟨hi, hb⟩).1
  simp only [weightOf, hi, hi', hsame.eb k i hk hi hb]

end Committee

end Terpz.Leanval.Cwffi
