import Std.Data.ExtTreeMap
import Mathlib.Data.List.Sort
import Mathlib.Data.List.Nodup

/-! Ordered key-value store with prefix iteration. An absent key reads as the empty
value; iteration visits the keys of a prefix in ascending order. -/
namespace Terpz.Lib
set_option linter.unusedSectionVars false

variable {α β : Type} [Ord α]

abbrev PrefixStore (α β : Type) [Ord α] := Std.ExtTreeMap (List α) (List β) compare

namespace PrefixStore
variable [Std.TransOrd α] [Std.LawfulEqOrd α]

def get (st : PrefixStore α β) (k : List α) : List β := st[k]?.getD []

def set (st : PrefixStore α β) (k : List α) (v : List β) : PrefixStore α β := st.insert k v

def delete (st : PrefixStore α β) (k : List α) : PrefixStore α β := st.erase k

def iteratePrefix [DecidableEq α] (st : PrefixStore α β) (p : List α) : List (List α × List β) :=
  st.toList.filter (fun e => p.isPrefixOf e.1)

@[simp] theorem get_empty (k : List α) : get (∅ : PrefixStore α β) k = [] := by
  simp [get]

theorem get_set [DecidableEq α] (st : PrefixStore α β) (k k' : List α) (v : List β) :
    get (set st k v) k' = if k = k' then v else get st k' := by
  simp only [get, set, Std.ExtTreeMap.getElem?_insert, Std.compare_eq_iff_eq]
  split <;> rfl

theorem getElem?_set [DecidableEq α] (st : PrefixStore α β) (k k' : List α) (v : List β) :
    (set st k v)[k']? = if k = k' then some v else st[k']? := by
  simp only [set, Std.ExtTreeMap.getElem?_insert, Std.compare_eq_iff_eq]

theorem getElem?_delete [DecidableEq α] (st : PrefixStore α β) (k k' : List α) :
    (delete st k)[k']? = if k = k' then none else st[k']? := by
  simp only [delete, Std.ExtTreeMap.getElem?_erase, Std.compare_eq_iff_eq]

theorem get_of_getElem? {st : PrefixStore α β} {k : List α} {v : List β} (h : st[k]? = some v) :
    get st k = v := by
  simp [get, h]

section Iterate
variable [DecidableEq α]

theorem mem_iteratePrefix {st : PrefixStore α β} {p k : List α} {v : List β} :
    (k, v) ∈ iteratePrefix st p ↔ p <+: k ∧ st[k]? = some v := by
  simp [iteratePrefix, Std.ExtTreeMap.mem_toList_iff_getElem?_eq_some, and_comm]

theorem iteratePrefix_ordered (st : PrefixStore α β) (p : List α) :
    (iteratePrefix st p).Pairwise (fun a b => compare a.1 b.1 = .lt) :=
  Std.ExtTreeMap.ordered_keys_toList.filter _

private theorem key_ne_of_ordered {a b : List α × List β} (h : compare a.1 b.1 = .lt) : a.1 ≠ b.1 := by
  intro he
  rw [he, Std.ReflOrd.compare_self] at h
  cases h

theorem iteratePrefix_keys_nodup (st : PrefixStore α β) (p : List α) :
    ((iteratePrefix st p).map Prod.fst).Nodup := by
  rw [List.Nodup, List.pairwise_map]
  exact (iteratePrefix_ordered st p).imp key_ne_of_ordered

theorem iteratePrefix_nodup (st : PrefixStore α β) (p : List α) : (iteratePrefix st p).Nodup :=
  (iteratePrefix_keys_nodup st p).of_map _

/-- Two stores with the same entries below a prefix. -/
def Agree (p : List α) (st st' : PrefixStore α β) : Prop := ∀ k, p <+: k → st[k]? = st'[k]?

theorem Agree.refl (p : List α) (st : PrefixStore α β) : Agree p st st := fun _ _ => rfl

theorem Agree.trans {p : List α} {a b c : PrefixStore α β} (hab : Agree p a b) (hbc : Agree p b c) :
    Agree p a c := fun k hk => (hab k hk).trans (hbc k hk)

theorem Agree.mono {p q : List α} {a b : PrefixStore α β} (h : Agree p a b) (hq : p <+: q) : Agree q a b :=
  fun k hk => h k (hq.trans hk)

theorem Agree.get_eq {p k : List α} {st st' : PrefixStore α β} (h : Agree p st st') (hk : p <+: k) :
    get st k = get st' k := by
  rw [PrefixStore.get, PrefixStore.get, h k hk]

theorem agree_set {st : PrefixStore α β} {p k : List α} {v : List β} (h : ¬ p <+: k) :
    Agree p st (set st k v) := by
  intro k' hk'
  rw [getElem?_set, if_neg]
  rintro rfl
  exact h hk'

/-- One write to both keeps two stores in agreement. -/
theorem Agree.set {p k : List α} {v : List β} {st st' : PrefixStore α β} (h : Agree p st st') :
    Agree p (PrefixStore.set st k v) (PrefixStore.set st' k v) := by
  intro k' hk'
  rw [getElem?_set, getElem?_set, h k' hk']

theorem agree_delete {st : PrefixStore α β} {p k : List α} (h : ¬ p <+: k) :
    Agree p st (delete st k) := by
  intro k' hk'
  rw [getElem?_delete, if_neg]
  rintro rfl
  exact h hk'

/-- Iteration depends only on the entries below its prefix. -/
theorem Agree.iteratePrefix_eq {st st' : PrefixStore α β} {p : List α} (h : Agree p st st') :
    iteratePrefix st p = iteratePrefix st' p := by
  have hp : (iteratePrefix st p).Perm (iteratePrefix st' p) := by
    apply (List.perm_ext_iff_of_nodup (iteratePrefix_nodup st p) (iteratePrefix_nodup st' p)).mpr
    intro ⟨k, v⟩
    rw [mem_iteratePrefix, mem_iteratePrefix]
    constructor
    · rintro ⟨hk, hv⟩
      exact ⟨hk, by rw [← h k hk, hv]⟩
    · rintro ⟨hk, hv⟩
      exact ⟨hk, by rw [h k hk, hv]⟩
  refine hp.eq_of_pairwise ?_ (iteratePrefix_ordered st p) (iteratePrefix_ordered st' p)
  intro a b _ _ hab hba
  rw [Std.OrientedCmp.gt_of_lt hab] at hba
  cases hba

theorem iteratePrefix_set_of_disjoint {st : PrefixStore α β} {p k : List α} {v : List β}
    (h : ¬ p <+: k) : iteratePrefix (set st k v) p = iteratePrefix st p :=
  (agree_set h).iteratePrefix_eq.symm

/-- A write below the prefix replaces the entry of its key and keeps the others. -/
theorem iteratePrefix_set_perm {st : PrefixStore α β} {p k : List α} {v : List β} (hp : p <+: k) :
    (iteratePrefix (set st k v) p).Perm ((k, v) :: (iteratePrefix st p).filter (fun e => e.1 ≠ k)) := by
  have hn : (k, v) ∉ (iteratePrefix st p).filter (fun e => e.1 ≠ k) := by simp
  apply (List.perm_ext_iff_of_nodup (iteratePrefix_nodup _ p)
    (List.nodup_cons.mpr ⟨hn, (iteratePrefix_nodup st p).filter _⟩)).mpr
  intro ⟨k', v'⟩
  rw [mem_iteratePrefix, getElem?_set, List.mem_cons, List.mem_filter, mem_iteratePrefix]
  by_cases he : k = k'
  · subst he
    simp [hp, eq_comm]
  · simp [he, Ne.symm he]

/-- Counting entries by value: a write that newly satisfies the test counts once more. -/
theorem countP_iteratePrefix_set {st : PrefixStore α β} {p k : List α} {v : List β}
    (f : List β → Bool) (hp : p <+: k) (hv : f v = true) (hold : ∀ w, st[k]? = some w → f w = false) :
    (iteratePrefix (set st k v) p).countP (fun e => f e.2) =
      (iteratePrefix st p).countP (fun e => f e.2) + 1 := by
  rw [(iteratePrefix_set_perm hp).countP_eq, List.countP_cons, if_pos hv, List.countP_filter]
  congr 1
  apply List.countP_congr
  intro ⟨k', w⟩ he
  by_cases hk : k' = k
  · subst hk
    simp [hold w (mem_iteratePrefix.mp he).2]
  · simp [hk]

end Iterate
end PrefixStore
end Terpz.Lib
