import Terpz.Leanval.Keeper.Reach

/-! The rows read off the bitfield are the members of the roster, one row each. -/
namespace Terpz.Leanval.Keeper
open Lib Lib.PrefixStore

/-- The row of a member at deposit index `i`. -/
def memberRow (st : Store) (s : Bytes) (i : UInt32) : SubjectPower :=
  ⟨s, (ebOf st i).toUInt64.toInt64, decide (ebOf st i > 0)⟩

@[simp] theorem memberRow_subject (st : Store) (s : Bytes) (i : UInt32) : (memberRow st s i).subject = s := rfl

/-- A subject is read back at a number only if the index table gives it that number. -/
private theorem subjectByIndex_cases (st : Store) (i : UInt32) :
    (roster st).index (subjectByIndex st i) = some i ∨
      (subjectByIndex st i = [] ∧ ∀ s, (roster st).index s ≠ some i) := by
  unfold subjectByIndex
  cases hf : (iteratePrefix st [depositIndexPrefix]).find? (fun e => indexOfValue e.2 == some i) with
  | none =>
    refine .inr ⟨rfl, ?_⟩
    intro s hs
    have hidx : indexOfValue (PrefixStore.get st (depositIndexKey s)) = some i := hs
    cases hv : st[depositIndexKey s]? with
    | none =>
      rw [PrefixStore.get, hv] at hidx
      cases hidx
    | some v =>
      have hno := List.find?_eq_none.mp hf (depositIndexKey s, v) (mem_iteratePrefix.mpr ⟨⟨s, rfl⟩, hv⟩)
      rw [get_of_getElem? hv] at hidx
      simp [hidx] at hno
  | some e =>
    obtain ⟨k, u⟩ := e
    obtain ⟨⟨t, rfl⟩, hu⟩ := mem_iteratePrefix.mp (List.mem_of_find?_eq_some hf)
    have hui : indexOfValue u = some i := by simpa using List.find?_some hf
    refine .inl ?_
    change indexOfValue (PrefixStore.get st (depositIndexKey t)) = some i
    rw [← hui]
    exact congrArg indexOfValue (get_of_getElem? hu)

theorem index_subjectByIndex {st : Store} {i : UInt32} (hne : subjectByIndex st i ≠ []) :
    (roster st).index (subjectByIndex st i) = some i := by
  rcases subjectByIndex_cases st i with hi | ⟨hnil, _⟩
  · exact hi
  · exact absurd hnil hne

/-- The scan finds a subject at every number that is in use. -/
theorem index_subjectByIndex_of_index {st : Store} {s : Bytes} {i : UInt32} (hi : (roster st).index s = some i) :
    (roster st).index (subjectByIndex st i) = some i := by
  rcases subjectByIndex_cases st i with ht | ⟨_, hno⟩
  · exact ht
  · exact absurd hi (hno s)

theorem subjectByIndex_eq {st : Store} (hwf : (roster st).WF) {s : Bytes} {i : UInt32}
    (hi : (roster st).index s = some i) : subjectByIndex st i = s :=
  hwf.index_inj _ s i (index_subjectByIndex_of_index hi) hi

section Rows
variable {st : Store} (hs : Sound st) (hwf : (roster st).WF)
include hs hwf

theorem bitRow_eq {i : UInt32} {s : Bytes} (hi : (roster st).index s = some i) (hb : bitIsSet st i = true) :
    bitRow st i = some (memberRow st s i) := by
  have hne : ¬ s.length = 0 := by
    intro hl
    rw [List.length_eq_zero_iff.mp hl, hs.subject_ne] at hi
    cases hi
  simp only [bitRow, hb, Bool.not_true, Bool.false_eq_true, if_false, subjectByIndex_eq hwf hi, hne]
  rfl

/-- A row is its member's, at the index the subject holds. -/
private theorem bitRow_eq_some {i : UInt32} {r : SubjectPower} (hr : bitRow st i = some r) :
    (roster st).index r.subject = some i ∧ (roster st).bit i = true ∧ r = memberRow st r.subject i := by
  by_cases hb : bitIsSet st i = true
  · obtain ⟨s, hsi⟩ := hwf.index_surj i (hwf.bit_lt i hb)
    rw [bitRow_eq hs hwf hsi hb] at hr
    obtain rfl := Option.some.inj hr
    exact ⟨hsi, hb, rfl⟩
  · simp [bitRow, hb] at hr

/-- Every member has its row and every row is a member's. -/
theorem mem_debugSubjectsFromBits {r : SubjectPower} :
    r ∈ debugSubjectsFromBits st ↔
      ∃ s i, (roster st).index s = some i ∧ (roster st).bit i = true ∧ r = memberRow st s i := by
  rw [debugSubjectsFromBits, List.mem_filterMap]
  constructor
  · rintro ⟨i, _, hrow⟩
    obtain ⟨hi, hb, hr⟩ := bitRow_eq_some hs hwf hrow
    exact ⟨_, i, hi, hb, hr⟩
  · rintro ⟨s, i, hi, hb, rfl⟩
    have hlt := UInt32.lt_iff_toNat_lt.mp (hwf.bit_lt i hb)
    exact ⟨i, List.mem_map.mpr ⟨i.toNat, List.mem_range.mpr hlt, UInt32.ofNat_toNat⟩, bitRow_eq hs hwf hi hb⟩

theorem debugSubjectsFromBits_nodup : ((debugSubjectsFromBits st).map (·.subject)).Nodup := by
  have hidx : (indices (nextDepositIndex st)).Nodup := by
    refine List.Nodup.map_on ?_ List.nodup_range
    intro a ha b hb hab
    have hmax := (nextDepositIndex st).toNat_lt
    rw [List.mem_range] at ha hb
    have := congrArg UInt32.toNat hab
    rwa [UInt32.toNat_ofNat', UInt32.toNat_ofNat', Nat.mod_eq_of_lt (by omega), Nat.mod_eq_of_lt (by omega)] at this
  rw [debugSubjectsFromBits, List.map_filterMap]
  refine hidx.filterMap ?_
  intro i j s hi hj
  obtain ⟨ri, hri, rfl⟩ := Option.map_eq_some_iff.mp (Option.mem_def.mp hi)
  obtain ⟨rj, hrj, he⟩ := Option.map_eq_some_iff.mp (Option.mem_def.mp hj)
  obtain ⟨h1, _, _⟩ := bitRow_eq_some hs hwf hri
  obtain ⟨h2, _, _⟩ := bitRow_eq_some hs hwf hrj
  rw [he] at h2
  exact Option.some.inj (h1.symm.trans h2)

end Rows

/-- A numbered subject means the roster is kept in bits. -/
theorem usingBits_of_index {st : Store} (hwf : (roster st).WF) {s : Bytes} {i : UInt32}
    (hi : (roster st).index s = some i) : usingBits st = true := by
  have hlt : i < nextDepositIndex st := hwf.index_lt s i hi
  have hpos : nextDepositIndex st > 0 := UInt32.lt_of_le_of_lt (UInt32.zero_le) hlt
  simp [usingBits, hpos]

end Terpz.Leanval.Keeper
