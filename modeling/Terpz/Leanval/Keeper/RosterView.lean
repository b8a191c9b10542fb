import Terpz.Leanval.Roster

/-! The roster a store holds, and the two acts the keeper performs on it.
Writes outside the four membership tables are invisible here. -/
namespace Terpz.Leanval.Keeper
open Lib Lib.PrefixStore Function

def roster (st : Store) : Roster Bytes where
  next := nextDepositIndex st
  count := (iteratePrefix st [depositIndexPrefix]).countP (fun e => (indexOfValue e.2).isSome)
  index := depositIndexOf st
  bit := bitIsSet st
  eb i := (get st (ebKey i)).head?

theorem nextDepositIndex_eq (st : Store) : nextDepositIndex st = (roster st).next := rfl

theorem depositIndexOf_eq (st : Store) (s : Bytes) : depositIndexOf st s = (roster st).index s := rfl

/-- The tables a roster is read from: bitfield, deposit index, counter, EB. -/
def membershipTable (k : Bytes) : Bool :=
  match k with
  | [] => false
  | b :: _ => b == bitfieldPrefix || b == depositIndexPrefix || b == nextDepositIndexPrefix || b == ebPrefix

private theorem tables_congr {st st' : Store} (h : ∀ k, membershipTable k = true → st[k]? = st'[k]?) :
    (∀ k, membershipTable k = true → get st k = get st' k) ∧
      iteratePrefix st [depositIndexPrefix] = iteratePrefix st' [depositIndexPrefix] := by
  refine ⟨fun k hk => by rw [PrefixStore.get, PrefixStore.get, h k hk], Agree.iteratePrefix_eq ?_⟩
  rintro k ⟨t, rfl⟩
  exact h _ rfl

/-- Two stores that agree on the membership tables hold the same roster. -/
theorem roster_congr {st st' : Store} (h : ∀ k, membershipTable k = true → st[k]? = st'[k]?) :
    roster st = roster st' := by
  obtain ⟨hg, hi⟩ := tables_congr h
  unfold roster
  congr 1
  · exact congrArg getU32 (hg _ rfl)
  · rw [hi]
  · funext s
    exact congrArg indexOfValue (hg _ rfl)
  · funext i
    simp only [bitIsSet, bitfield, hg bitfieldKey rfl]
  · funext i
    exact congrArg List.head? (hg _ rfl)

/-- What is read off the membership tables is the same in stores that agree on them. -/
theorem reads_congr {st st' : Store} (h : ∀ k, membershipTable k = true → st[k]? = st'[k]?) :
    bitfield st = bitfield st' ∧ nextDepositIndex st = nextDepositIndex st' ∧
    subjectByIndex st = subjectByIndex st' ∧ ebOf st = ebOf st' := by
  obtain ⟨hg, hi⟩ := tables_congr h
  refine ⟨?_, congrArg getU32 (hg _ rfl), ?_, ?_⟩
  · simp only [bitfield, hg bitfieldKey rfl]
  · funext i
    rw [subjectByIndex, subjectByIndex, hi]
  · funext i
    rw [ebOf, ebOf, hg (ebKey i) rfl]

theorem debugSubjectsFromBits_congr {st st' : Store} (h : ∀ k, membershipTable k = true → st[k]? = st'[k]?) :
    debugSubjectsFromBits st = debugSubjectsFromBits st' := by
  obtain ⟨hbf, hnext, hsubj, heb⟩ := reads_congr h
  have hrow : bitRow st = bitRow st' := by
    funext i
    unfold bitRow bitIsSet
    rw [hbf, hsubj, heb]
  rw [debugSubjectsFromBits, hrow, hnext, debugSubjectsFromBits]

theorem getElem?_set_other {st : Store} {k v : Bytes} (hk : membershipTable k = false) {k' : Bytes}
    (hk' : membershipTable k' = true) : (set st k v)[k']? = st[k']? := by
  rw [getElem?_set, if_neg]
  rintro rfl
  rw [hk] at hk'
  cases hk'

theorem roster_set {st : Store} {k v : Bytes} (hk : membershipTable k = false) :
    roster (set st k v) = roster st := roster_congr (fun _ hk' => getElem?_set_other hk hk')

theorem roster_delete {st : Store} {k : Bytes} (hk : membershipTable k = false) :
    roster (delete st k) = roster st := by
  apply roster_congr
  intro k' hk'
  rw [getElem?_delete, if_neg]
  rintro rfl
  rw [hk] at hk'
  cases hk'

@[simp] theorem roster_syncObjectRoots (st : Store) : roster (syncObjectRoots st) = roster st :=
  roster_set rfl

theorem indexOfValue_depositIndexBytes (n : UInt32) : indexOfValue (depositIndexBytes n) = some n := by
  simp [indexOfValue, depositIndexBytes]

private theorem head_ne {a b : UInt8} {s t : Bytes} (h : a ≠ b) : a :: s ≠ b :: t :=
  fun he => h (List.cons.inj he).1

private theorem roster_setBitfield (st : Store) (i : UInt32) (v : Bool) :
    roster (setBitfield st (bitSet (bitfield st) i v)) =
      { roster st with bit := update (roster st).bit i v } := by
  have hlen : ¬ (bitSet (bitfield st) i v).length = 0 := by
    simp only [bitSet, List.length_modify, List.length_append, List.length_replicate]
    omega
  have hbf : bitfield (setBitfield st (bitSet (bitfield st) i v)) = bitSet (bitfield st) i v := by
    generalize bitSet (bitfield st) i v = b at hlen
    simp only [bitfield, setBitfield, get_set, hlen, if_true, if_false]
  have hg (k : Bytes) (hk : bitfieldKey ≠ k) (v : Bytes) : get (set st bitfieldKey v) k = get st k := by
    rw [get_set, if_neg hk]
  unfold roster
  congr 1
  · exact congrArg getU32 (hg _ (head_ne (by decide)) _)
  · rw [setBitfield, iteratePrefix_set_of_disjoint (by decide)]
  · funext s
    exact congrArg indexOfValue (hg _ (head_ne (by decide)) _)
  · funext j
    rw [bitIsSet, hbf, bitGet_bitSet, update_apply]
    rfl
  · funext j
    exact congrArg List.head? (hg _ (head_ne (by decide)) _)

private theorem roster_setEBKey (st : Store) (i : UInt32) (b : UInt8) :
    roster (set st (ebKey i) [b]) = { roster st with eb := update (roster st).eb i (some b) } := by
  have hg (k : Bytes) (hk : ebKey i ≠ k) : get (set st (ebKey i) [b]) k = get st k := by
    rw [get_set, if_neg hk]
  unfold roster
  congr 1
  · exact congrArg getU32 (hg _ (head_ne (by decide)))
  · rw [iteratePrefix_set_of_disjoint (by simp [ebKey, ebPrefix, depositIndexPrefix])]
  · funext s
    exact congrArg indexOfValue (hg _ (head_ne (by decide)))
  · funext j
    simp only [bitIsSet, bitfield, hg bitfieldKey (head_ne (by decide))]
  · funext j
    rw [get_set, update_apply]
    by_cases hj : j = i
    · simp [hj]
    · simp [hj, Ne.symm hj]

private theorem roster_setNext (st : Store) (n : UInt32) :
    roster (setNextDepositIndex st n) = { roster st with next := n } := by
  have hg (k : Bytes) (hk : nextDepositIndexKey ≠ k) (v : Bytes) :
      get (set st nextDepositIndexKey v) k = get st k := by
    rw [get_set, if_neg hk]
  unfold roster
  congr 1
  · simp [nextDepositIndex, setNextDepositIndex, get_set]
  · rw [setNextDepositIndex, iteratePrefix_set_of_disjoint (by decide)]
  · funext s
    exact congrArg indexOfValue (hg _ (head_ne (by decide)) _)
  · funext j
    simp only [bitIsSet, bitfield, setNextDepositIndex, hg bitfieldKey (head_ne (by decide))]
  · funext j
    exact congrArg List.head? (hg _ (head_ne (by decide)) _)

private theorem roster_setIndex (st : Store) (s : Bytes) (n : UInt32) (hs : depositIndexOf st s = none) :
    roster (set st (depositIndexKey s) (depositIndexBytes n)) =
      { roster st with index := update (roster st).index s (some n), count := (roster st).count + 1 } := by
  have hg (k : Bytes) (hk : depositIndexKey s ≠ k) (v : Bytes) :
      get (set st (depositIndexKey s) v) k = get st k := by
    rw [get_set, if_neg hk]
  unfold roster
  congr 1
  · exact congrArg getU32 (hg _ (head_ne (by decide)) _)
  · apply countP_iteratePrefix_set (fun v => (indexOfValue v).isSome) ⟨s, rfl⟩
    · simp [indexOfValue_depositIndexBytes]
    · intro w hw
      have : depositIndexOf st s = indexOfValue w := congrArg indexOfValue (get_of_getElem? hw)
      rw [← this, hs]
      rfl
  · funext t
    rw [depositIndexOf, get_set, update_apply]
    by_cases ht : t = s
    · simp [ht, indexOfValue_depositIndexBytes]
    · simp [ht, Ne.symm ht, depositIndexOf]
  · funext j
    simp only [bitIsSet, bitfield, hg bitfieldKey (head_ne (by decide))]
  · funext j
    exact congrArg List.head? (hg _ (head_ne (by decide)) _)

@[simp] theorem roster_setBit (st : Store) (i : UInt32) :
    roster (setBit st i) = { roster st with bit := update (roster st).bit i true } := by
  rw [setBit, roster_syncObjectRoots, roster_setBitfield]

@[simp] theorem roster_clearBit (st : Store) (i : UInt32) :
    roster (clearBit st i) = { roster st with bit := update (roster st).bit i false } := by
  rw [clearBit, roster_syncObjectRoots, roster_setBitfield]

@[simp] theorem roster_setEB (st : Store) (i : UInt32) (b : UInt8) :
    roster (setEB st i b) = { roster st with eb := update (roster st).eb i (some b) } := by
  rw [setEB, roster_syncObjectRoots, roster_setEBKey]

theorem ebOf_eq (st : Store) (i : UInt32) : ebOf st i = ((roster st).eb i).getD 0 := by
  change (get st (ebKey i)).headD 0 = (get st (ebKey i)).head?.getD 0
  cases get st (ebKey i) <;> rfl

/-- `admitMember` is the abstract admission, for every store. -/
@[simp] theorem roster_admitMember (st : Store) (s : Bytes) (w : Int64) :
    roster (admitMember st s w) = (roster st).enroll s w := by
  have hempty (st : Store) (i : UInt32) : (get st (ebKey i)).length = 0 ↔ (roster st).eb i = none := by
    change _ ↔ (get st (ebKey i)).head? = none
    rw [List.head?_eq_none_iff, List.length_eq_zero_iff]
  have halloc : roster (allocateIndex st s).1 =
      { roster st with
        next := if ((roster st).index s).isSome then (roster st).next else (roster st).next + 1
        count := if ((roster st).index s).isSome then (roster st).count else (roster st).count + 1
        index := update (roster st).index s (some ((roster st).slot s)) } := by
    unfold allocateIndex
    cases hs : depositIndexOf st s with
    | some i =>
      have hi : (roster st).index s = some i := hs
      simp only [hi, Option.isSome_some, if_true, Roster.slot_of_index hi]
      rw [← hi, update_eq_self]
    | none =>
      have hi : (roster st).index s = none := hs
      simp only [hi, Option.isSome_none, Roster.slot_of_fresh hi, roster_syncObjectRoots, roster_setNext,
        roster_setIndex st s _ hs]
      rfl
  have hidx : (allocateIndex st s).2 = (roster st).slot s := by
    unfold allocateIndex
    cases hs : depositIndexOf st s with
    | some i => exact (Roster.slot_of_index (r := roster st) hs).symm
    | none => exact (Roster.slot_of_fresh (r := roster st) hs).symm
  unfold admitMember Roster.enroll
  simp only [hidx]
  by_cases hw : w > 0
  · simp only [hw, if_true, true_and, roster_setBit]
    by_cases he : (roster st).eb ((roster st).slot s) = none
    · have hz : (get (allocateIndex st s).1 (ebKey ((roster st).slot s))).length = 0 := by
        rw [hempty, halloc]
        exact he
      rw [if_pos hz, if_pos he, roster_setEB, halloc]
    · have hz : ¬ (get (allocateIndex st s).1 (ebKey ((roster st).slot s))).length = 0 := by
        rw [hempty, halloc]
        exact he
      rw [if_neg hz, if_neg he, halloc]
  · simp only [hw, if_false, false_and, halloc]

/-- The tables an admission or a departure writes. -/
def rosterTables : List UInt8 :=
  [objectRootsPrefix, bitfieldPrefix, depositIndexPrefix, nextDepositIndexPrefix, ebPrefix]

theorem agree_set_table {st : Store} {b c : UInt8} {t v : Bytes} (h : b ≠ c) : Agree [b] st (set st (c :: t) v) :=
  agree_set (by simpa using h)

theorem agree_delete_table {st : Store} {b c : UInt8} {t : Bytes} (h : b ≠ c) :
    Agree [b] st (delete st (c :: t)) :=
  agree_delete (by simpa using h)

section Frame
variable {b : UInt8} (hb : b ∉ rosterTables) (st : Store)
include hb

theorem ne_of_not_mem_rosterTables {c : UInt8} (hc : c ∈ rosterTables) : b ≠ c := by
  rintro rfl
  exact hb hc

theorem agree_syncObjectRoots : Agree [b] st (syncObjectRoots st) :=
  agree_set_table (ne_of_not_mem_rosterTables hb (by decide))

theorem agree_setBit (i : UInt32) : Agree [b] st (setBit st i) :=
  (agree_set_table (ne_of_not_mem_rosterTables hb (by decide))).trans (agree_syncObjectRoots hb _)

theorem agree_clearBit (i : UInt32) : Agree [b] st (clearBit st i) :=
  (agree_set_table (ne_of_not_mem_rosterTables hb (by decide))).trans (agree_syncObjectRoots hb _)

theorem agree_setEB (i : UInt32) (e : UInt8) : Agree [b] st (setEB st i e) :=
  (agree_set_table (ne_of_not_mem_rosterTables hb (by decide))).trans (agree_syncObjectRoots hb _)

theorem agree_admitMember (s : Bytes) (w : Int64) : Agree [b] st (admitMember st s w) := by
  have halloc : Agree [b] st (allocateIndex st s).1 := by
    unfold allocateIndex
    cases depositIndexOf st s with
    | some i => exact Agree.refl _ _
    | none =>
      have hi : b ≠ depositIndexPrefix := ne_of_not_mem_rosterTables hb (by decide)
      have hn : b ≠ nextDepositIndexPrefix := ne_of_not_mem_rosterTables hb (by decide)
      exact ((agree_set_table hi).trans (agree_set_table hn)).trans (agree_syncObjectRoots hb _)
  unfold admitMember
  by_cases hw : w > 0
  · simp only [hw, if_true]
    refine halloc.trans (Agree.trans ?_ (agree_setBit hb _ _))
    split
    · exact agree_setEB hb _ _ _
    · exact Agree.refl _ _
  · simpa only [hw, if_false] using halloc

end Frame

@[simp] theorem roster_empty_index (s : Bytes) : (roster ∅).index s = none := by
  simp [roster, depositIndexOf, indexOfValue]

theorem bitGet_zero (i : UInt32) : bitGet [0] i = false := by
  rw [bitGet_eq_getLsbD]
  cases i.toNat / 8 <;> simp

@[simp] theorem roster_empty_bit (i : UInt32) : (roster ∅).bit i = false := by
  change bitGet (bitfield ∅) i = false
  rw [bitfield, get_empty]
  exact bitGet_zero i

@[simp] theorem roster_empty_eb (i : UInt32) : (roster ∅).eb i = none := by
  simp [roster]

theorem roster_empty_wf : (roster ∅).WF := by
  refine ⟨?_, by simp, by simp, ?_, by simp, by simp⟩
  · have hc : iteratePrefix (∅ : Store) [depositIndexPrefix] = [] := by
      simp [iteratePrefix]
    simp only [roster, hc, List.countP_nil]
    rfl
  · intro i hi
    exact absurd hi (UInt32.not_lt.mpr (UInt32.zero_le))

end Terpz.Leanval.Keeper
