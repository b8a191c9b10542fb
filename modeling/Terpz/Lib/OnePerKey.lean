import Mathlib.Algebra.Order.BigOperators.Group.Finset
import Mathlib.Algebra.Order.BigOperators.Group.List
import Mathlib.Algebra.Ring.Int.Defs
import Mathlib.Data.List.Perm.Subperm

/-! The largest weight that items with pairwise different keys can reach together. -/
namespace Terpz.Lib
variable {ι κ : Type} [DecidableEq κ] (key : ι → κ) (weight : ι → ℤ)

/-- The heaviest item of one key, zero when there is none. -/
def heaviest (items : List ι) (k : κ) : ℤ :=
  ((items.filter (fun i => key i = k)).map weight).foldr max 0

/-- One heaviest item for each key. -/
def onePerKey (items : List ι) : ℤ := ∑ k ∈ (items.map key).toFinset, heaviest key weight items k

variable {key weight}

private theorem foldr_max_nonneg (ws : List ℤ) : 0 ≤ ws.foldr max 0 := by
  cases ws with
  | nil => exact le_refl 0
  | cons w ws => exact le_max_of_le_right (foldr_max_nonneg ws)

private theorem le_foldr_max {ws : List ℤ} {w : ℤ} (hw : w ∈ ws) : w ≤ ws.foldr max 0 := by
  induction ws with
  | nil => cases hw
  | cons v ws ih =>
    rcases List.mem_cons.mp hw with rfl | hw
    · exact le_max_left _ _
    · exact le_max_of_le_right (ih hw)

private theorem foldr_max_mem {ws : List ℤ} (h : 0 < ws.foldr max 0) : ws.foldr max 0 ∈ ws := by
  induction ws with
  | nil => exact absurd h (lt_irrefl 0)
  | cons v ws ih =>
    rw [List.foldr_cons] at h ⊢
    rcases le_total (ws.foldr max 0) v with hv | hv
    · rw [max_eq_left hv]
      exact List.mem_cons_self
    · rw [max_eq_right hv] at h ⊢
      exact List.mem_cons_of_mem _ (ih h)

variable (key weight) in
theorem heaviest_nonneg (items : List ι) (k : κ) : 0 ≤ heaviest key weight items k := foldr_max_nonneg _

variable (key weight) in
theorem le_heaviest {items : List ι} {i : ι} (hi : i ∈ items) : weight i ≤ heaviest key weight items (key i) := by
  apply le_foldr_max
  apply List.mem_map_of_mem
  simpa using hi

/-- Some item of the key weighs as much as the heaviest. -/
theorem exists_heaviest {items : List ι} (hnonneg : ∀ i ∈ items, 0 ≤ weight i) {k : κ} (hk : k ∈ items.map key) :
    ∃ i ∈ items, key i = k ∧ weight i = heaviest key weight items k := by
  rcases (heaviest_nonneg key weight items k).eq_or_lt with hzero | hpos
  · obtain ⟨i, hi, rfl⟩ := List.mem_map.mp hk
    have hle := le_heaviest key weight hi
    have hge := hnonneg i hi
    exact ⟨i, hi, rfl, by omega⟩
  · obtain ⟨i, hi, hw⟩ := List.mem_map.mp (foldr_max_mem hpos)
    rw [List.mem_filter, decide_eq_true_eq] at hi
    exact ⟨i, hi.1, hi.2, hw⟩

/-- A selection with pairwise different keys. -/
structure Selection (key : ι → κ) (items chosen : List ι) : Prop where
  subset : chosen ⊆ items
  distinct : (chosen.map key).Nodup

theorem Selection.sum_le {items chosen : List ι} (h : Selection key items chosen) :
    (chosen.map weight).sum ≤ onePerKey key weight items := by
  have hsub : (chosen.map key).toFinset ⊆ (items.map key).toFinset := by
    intro k hk
    rw [List.mem_toFinset] at hk ⊢
    exact List.map_subset key h.subset hk
  calc (chosen.map weight).sum ≤ (chosen.map (fun i => heaviest key weight items (key i))).sum := by
        apply List.sum_le_sum
        intro i hi
        exact le_heaviest key weight (h.subset hi)
    _ = ((chosen.map key).map (heaviest key weight items)).sum := by
        rw [List.map_map]
        rfl
    _ = ∑ k ∈ (chosen.map key).toFinset, heaviest key weight items k := (List.sum_toFinset _ h.distinct).symm
    _ ≤ onePerKey key weight items := by
        apply Finset.sum_le_sum_of_subset_of_nonneg hsub
        intro k _ _
        exact heaviest_nonneg key weight items k

private theorem exists_choice (items : List ι) (hnonneg : ∀ i ∈ items, 0 ≤ weight i) (ks : List κ)
    (hks : ks ⊆ items.map key) : ∃ chosen : List ι, chosen ⊆ items ∧ chosen.map key = ks ∧
      chosen.map weight = ks.map (heaviest key weight items) := by
  induction ks with
  | nil => exact ⟨[], List.nil_subset _, rfl, rfl⟩
  | cons k ks ih =>
    obtain ⟨chosen, hsub, hkey, hweight⟩ := ih (fun x hx => hks (List.mem_cons_of_mem _ hx))
    obtain ⟨i, hi, hik, hiw⟩ := exists_heaviest hnonneg (hks List.mem_cons_self)
    refine ⟨i :: chosen, List.cons_subset.mpr ⟨hi, hsub⟩, ?_, ?_⟩
    · rw [List.map_cons, hkey, hik]
    · rw [List.map_cons, hweight, hiw, List.map_cons]

variable (key) in
/-- The bound is reached. -/
theorem exists_selection {items : List ι} (hnonneg : ∀ i ∈ items, 0 ≤ weight i) :
    ∃ chosen, Selection key items chosen ∧ (chosen.map weight).sum = onePerKey key weight items := by
  obtain ⟨chosen, hsub, hkey, hweight⟩ := exists_choice items hnonneg (items.map key).dedup (List.dedup_subset _)
  have hnodup := (items.map key).nodup_dedup
  refine ⟨chosen, ⟨hsub, ?_⟩, ?_⟩
  · rw [hkey]
    exact hnodup
  · have hkeys : (items.map key).dedup.toFinset = (items.map key).toFinset := by
      ext k
      simp
    rw [hweight, onePerKey, ← hkeys, List.sum_toFinset _ hnodup]

variable (key) in
theorem onePerKey_le_sum {items : List ι} (hnonneg : ∀ i ∈ items, 0 ≤ weight i) :
    onePerKey key weight items ≤ (items.map weight).sum := by
  obtain ⟨chosen, hsel, hsum⟩ := exists_selection key hnonneg
  obtain ⟨l, hperm, hsub⟩ := List.subperm_of_subset hsel.distinct.of_map hsel.subset
  rw [← hsum, ← (hperm.map weight).sum_eq]
  apply (hsub.map weight).sum_le_sum
  intro w hw
  obtain ⟨i, hi, rfl⟩ := List.mem_map.mp hw
  exact hnonneg i hi

end Terpz.Lib
