import Mathlib.Algebra.BigOperators.Group.List.Basic
import Mathlib.Data.List.Nodup
import Std.Data.ExtTreeMap
import Terpz.Lib.Text

/-! Tables of records under text keys, walked in the order of their keys. -/
namespace Terpz.Lib

abbrev Table (V : Type) := Std.ExtTreeMap Text V compare

namespace Table
variable {V : Type}

def values (t : Table V) : List V := t.toList.map Prod.snd

theorem getElem?_insert (t : Table V) (k k' : Text) (v : V) :
    (t.insert k v)[k']? = if k = k' then some v else t[k']? := by
  simp only [Std.ExtTreeMap.getElem?_insert, Std.compare_eq_iff_eq]

theorem getElem?_erase (t : Table V) (k k' : Text) : (t.erase k)[k']? = if k = k' then none else t[k']? := by
  simp only [Std.ExtTreeMap.getElem?_erase, Std.compare_eq_iff_eq]

theorem mem_values {t : Table V} {v : V} : v ∈ values t ↔ ∃ k : Text, t[k]? = some v := by
  simp only [values, List.mem_map, Prod.exists, Std.ExtTreeMap.mem_toList_iff_getElem?_eq_some]
  constructor
  · rintro ⟨k, w, hk, rfl⟩
    exact ⟨k, hk⟩
  · rintro ⟨k, hk⟩
    exact ⟨k, v, hk, rfl⟩

theorem keys_nodup (t : Table V) : (t.toList.map Prod.fst).Nodup := by
  rw [List.Nodup, List.pairwise_map]
  apply Std.ExtTreeMap.ordered_keys_toList.imp
  intro a b h he
  rw [he, Std.ReflOrd.compare_self] at h
  cases h

theorem toList_nodup (t : Table V) : t.toList.Nodup := (keys_nodup t).of_map _

/-- Writing a record replaces the one under its key and keeps the others. -/
theorem toList_insert_perm (t : Table V) (k : Text) (v : V) :
    (t.insert k v).toList.Perm ((k, v) :: t.toList.filter (fun e => e.1 ≠ k)) := by
  have hn : (k, v) ∉ t.toList.filter (fun e => e.1 ≠ k) := by simp
  apply (List.perm_ext_iff_of_nodup (toList_nodup _) (List.nodup_cons.mpr ⟨hn, (toList_nodup t).filter _⟩)).mpr
  rintro ⟨k', v'⟩
  rw [Std.ExtTreeMap.mem_toList_iff_getElem?_eq_some, getElem?_insert, List.mem_cons, List.mem_filter,
    Std.ExtTreeMap.mem_toList_iff_getElem?_eq_some]
  by_cases hk : k = k'
  · subst hk
    simp [eq_comm]
  · simp [hk, Ne.symm hk, eq_comm]

section Sum
variable {M : Type} [AddCommGroup M] (f : V → M)

def sum (t : Table V) : M := ((values t).map f).sum

private theorem sum_eq_toList (t : Table V) : sum f t = (t.toList.map (fun e => f e.2)).sum := by
  rw [sum, values, List.map_map]
  rfl

private theorem sum_filter_add (k : Text) (t : Table V) :
    ((t.toList.filter (fun e => e.1 ≠ k)).map (fun e => f e.2)).sum = sum f t - (t[k]?.map f).getD 0 := by
  cases hk : t[k]? with
  | none =>
    have hall : t.toList.filter (fun e => e.1 ≠ k) = t.toList := by
      apply List.filter_eq_self.mpr
      rintro ⟨k', v'⟩ hmem
      have hv := Std.ExtTreeMap.mem_toList_iff_getElem?_eq_some.mp hmem
      simp only [ne_eq, decide_eq_true_eq]
      rintro rfl
      rw [hk] at hv
      cases hv
    rw [hall, sum_eq_toList]
    simp
  | some w =>
    have hsame : t.insert k w = t := by
      apply Std.ExtTreeMap.ext_getElem?
      intro k'
      rw [getElem?_insert]
      split
      · next h => rw [← h, hk]
      · rfl
    have hp := ((toList_insert_perm t k w).map (fun e => f e.2)).sum_eq
    rw [hsame, ← sum_eq_toList, List.map_cons, List.sum_cons] at hp
    rw [hp]
    simp

/-- A write moves the sum from the old record of the key to the new one. -/
theorem sum_insert (t : Table V) (k : Text) (v : V) :
    sum f (t.insert k v) = sum f t - (t[k]?.map f).getD 0 + f v := by
  rw [sum_eq_toList, ((toList_insert_perm t k v).map (fun e => f e.2)).sum_eq, List.map_cons, List.sum_cons,
    sum_filter_add, add_comm]

@[simp] theorem sum_empty : sum f (∅ : Table V) = 0 := by
  have hnil : (∅ : Table V).toList = [] := Std.ExtTreeMap.toList_eq_nil_iff.mpr rfl
  simp [sum, values, hnil]

end Sum

section Records
variable {α : Type} (key : α → Text) (val : α → V)

/-- Records written one after the other, each under its own key. -/
def insertAll (t : Table V) (xs : List α) : Table V := xs.foldl (fun t x => t.insert (key x) (val x)) t

theorem getElem?_insertAll_of_not_mem (t : Table V) (xs : List α) {k : Text} (h : ∀ x ∈ xs, key x ≠ k) :
    (insertAll key val t xs)[k]? = t[k]? := by
  induction xs generalizing t with
  | nil => rfl
  | cons x xs ih =>
    have hx := h x List.mem_cons_self
    have hxs : ∀ y ∈ xs, key y ≠ k := fun y hy => h y (List.mem_cons_of_mem _ hy)
    calc (insertAll key val (t.insert (key x) (val x)) xs)[k]? = (t.insert (key x) (val x))[k]? := ih _ hxs
      _ = t[k]? := by rw [getElem?_insert, if_neg hx]

theorem getElem?_insertAll_of_mem (t : Table V) {xs : List α} (hn : (xs.map key).Nodup) {x : α} (hx : x ∈ xs) :
    (insertAll key val t xs)[key x]? = some (val x) := by
  induction xs generalizing t with
  | nil => cases hx
  | cons y xs ih =>
    rw [List.map_cons, List.nodup_cons] at hn
    rcases List.mem_cons.mp hx with rfl | hx
    · have hfresh : ∀ z ∈ xs, key z ≠ key x := by
        intro z hz he
        exact hn.1 (he ▸ List.mem_map_of_mem hz)
      calc (insertAll key val (t.insert (key x) (val x)) xs)[key x]? = (t.insert (key x) (val x))[key x]? :=
            getElem?_insertAll_of_not_mem key val _ xs hfresh
        _ = some (val x) := by rw [getElem?_insert, if_pos rfl]
    · exact ih _ hn.2 hx

/-- From the empty table a key holds the record of the list that has it. -/
theorem getElem?_insertAll_empty {xs : List α} (hn : (xs.map key).Nodup) {k : Text} {v : V} :
    (insertAll key val ∅ xs)[k]? = some v ↔ ∃ x ∈ xs, key x = k ∧ val x = v := by
  constructor
  · intro h
    by_cases hk : ∃ x ∈ xs, key x = k
    · obtain ⟨x, hx, rfl⟩ := hk
      rw [getElem?_insertAll_of_mem key val ∅ hn hx] at h
      exact ⟨x, hx, rfl, Option.some.inj h⟩
    · rw [getElem?_insertAll_of_not_mem key val ∅ xs (fun x hx he => hk ⟨x, hx, he⟩)] at h
      simp at h
  · rintro ⟨x, hx, rfl, rfl⟩
    exact getElem?_insertAll_of_mem key val ∅ hn hx

end Records

section Keyed
variable (key : V → Text)

/-- Every record lies under its own key. -/
def Keyed (t : Table V) : Prop := ∀ (k : Text) (v : V), t[k]? = some v → key v = k

variable {key}

theorem Keyed.empty : Keyed key (∅ : Table V) := by
  intro k v h
  simp at h

theorem Keyed.insert {t : Table V} (ht : Keyed key t) (v : V) : Keyed key (t.insert (key v) v) := by
  intro k w h
  rw [getElem?_insert] at h
  split at h
  · next hk =>
    cases h
    exact hk
  · exact ht k w h

theorem Keyed.insertAll {t : Table V} (ht : Keyed key t) (vs : List V) : Keyed key (insertAll key id t vs) := by
  induction vs generalizing t with
  | nil => exact ht
  | cons v vs ih => exact ih (ht.insert v)

private theorem Keyed.map_values {t : Table V} (ht : Keyed key t) :
    (values t).map key = t.toList.map Prod.fst := by
  rw [values, List.map_map]
  apply List.map_congr_left
  rintro ⟨k, v⟩ h
  exact ht k v (Std.ExtTreeMap.mem_toList_iff_getElem?_eq_some.mp h)

theorem Keyed.values_nodup {t : Table V} (ht : Keyed key t) : ((values t).map key).Nodup := by
  rw [ht.map_values]
  exact keys_nodup t

/-- Writing back the listed records of a keyed table gives the table. -/
theorem Keyed.insertAll_values {t : Table V} (ht : Keyed key t) :
    Table.insertAll key id (∅ : Table V) (values t) = t := by
  apply Std.ExtTreeMap.ext_getElem?
  intro k
  cases hk : t[k]? with
  | some v =>
    have hkey := ht k v hk
    have hmem : v ∈ values t := mem_values.mpr ⟨k, hk⟩
    rw [← hkey]
    exact getElem?_insertAll_of_mem key id _ ht.values_nodup hmem
  | none =>
    have hfresh : ∀ v ∈ values t, key v ≠ k := by
      intro v hv he
      obtain ⟨k', hk'⟩ := mem_values.mp hv
      have : k' = k := (ht k' v hk').symm.trans he
      subst this
      rw [hk] at hk'
      cases hk'
    rw [getElem?_insertAll_of_not_mem key id _ _ hfresh]
    simp

end Keyed
end Table
end Terpz.Lib
