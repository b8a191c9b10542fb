import Mathlib.Data.List.Sort
import Mathlib.Order.Compare

/-! Lists in strictly ascending order of a key: sorting leaves them alone and halving search finds by the key. -/
namespace Terpz.Lib
variable {α κ : Type} [Ord κ] (key : α → κ)

def Ascending (xs : List α) : Prop := xs.Pairwise (fun a b => compare (key a) (key b) = .lt)

def sortBy (xs : List α) : List α := xs.mergeSort (fun a b => (compare (key a) (key b)).isLE)

/-- Search by halves: below the middle element, at it, or above it. -/
def search (k : κ) (xs : List α) : Option α :=
  match xs with
  | [] => none
  | [x] => if compare k (key x) = .eq then some x else none
  | x :: y :: zs =>
    let mid := (x :: y :: zs).length / 2
    match (x :: y :: zs)[mid]? with
    | none => none
    | some c =>
      match compare k (key c) with
      | .lt => search k ((x :: y :: zs).take mid)
      | .eq => some c
      | .gt => search k ((x :: y :: zs).drop (mid + 1))
termination_by xs.length
decreasing_by
  · simp only [List.length_take, List.length_cons]
    omega
  · simp only [List.length_drop, List.length_cons]
    omega

variable {key}

theorem Ascending.sublist {xs ys : List α} (h : Ascending key ys) (hsub : xs.Sublist ys) : Ascending key xs :=
  List.Pairwise.sublist hsub h

theorem sortBy_of_ascending {xs : List α} (h : Ascending key xs) : sortBy key xs = xs :=
  List.mergeSort_of_pairwise (h.imp (fun hlt => by rw [hlt]; rfl))

private theorem eq_take_cons_drop {xs : List α} {i : Nat} {c : α} (hc : xs[i]? = some c) :
    xs = xs.take i ++ c :: xs.drop (i + 1) := by
  obtain ⟨hi, rfl⟩ := List.getElem?_eq_some_iff.mp hc
  rw [← List.drop_eq_getElem_cons hi, List.take_append_drop]

/-- Around an element stand the smaller keys and the larger ones. -/
private theorem ascending_around {xs : List α} (h : Ascending key xs) {i : Nat} {c : α} (hc : xs[i]? = some c) :
    (∀ x ∈ xs.take i, compare (key x) (key c) = .lt) ∧ ∀ x ∈ xs.drop (i + 1), compare (key c) (key x) = .lt := by
  unfold Ascending at h
  rw [eq_take_cons_drop hc, List.pairwise_append] at h
  obtain ⟨-, hright, hacross⟩ := h
  exact ⟨fun x hx => hacross x hx c List.mem_cons_self, (List.pairwise_cons.mp hright).1⟩

private theorem mem_around {xs : List α} {i : Nat} {c x : α} (hc : xs[i]? = some c) :
    x ∈ xs ↔ x ∈ xs.take i ∨ x = c ∨ x ∈ xs.drop (i + 1) := by
  rw [← List.mem_cons, ← List.mem_append, ← eq_take_cons_drop hc]

variable [Std.LawfulEqOrd κ]

theorem Ascending.nodup_keys {xs : List α} (h : Ascending key xs) : (xs.map key).Nodup := by
  rw [List.Nodup, List.pairwise_map]
  refine h.imp ?_
  intro a b hlt heq
  rw [heq, Std.ReflOrd.compare_self] at hlt
  cases hlt

/-- The key identifies the element. -/
theorem Ascending.eq_of_key {xs : List α} (h : Ascending key xs) {x y : α} (hx : x ∈ xs) (hy : y ∈ xs)
    (hkey : key x = key y) : x = y := List.inj_on_of_nodup_map h.nodup_keys hx hy hkey

variable [Std.TransOrd κ]

theorem search_eq_some {k : κ} {xs : List α} (h : Ascending key xs) {x : α} :
    search key k xs = some x ↔ x ∈ xs ∧ key x = k := by
  fun_induction search key k xs with
  | case1 => simp
  | case2 y heq =>
    rw [Std.compare_eq_iff_eq] at heq
    rw [Option.some.injEq, List.mem_singleton]
    constructor
    · rintro rfl
      exact ⟨rfl, heq.symm⟩
    · rintro ⟨rfl, -⟩
      rfl
  | case3 y hne =>
    rw [Std.compare_eq_iff_eq] at hne
    simp only [reduceCtorEq, List.mem_singleton, false_iff, not_and]
    rintro rfl hkey
    exact hne hkey.symm
  | case4 y z zs mid hnone =>
    have hlt : mid < (y :: z :: zs).length := by simp only [mid, List.length_cons]; omega
    rw [List.getElem?_eq_getElem hlt] at hnone
    cases hnone
  | case5 y z zs mid c hc hlt ih =>
    obtain ⟨-, hright⟩ := ascending_around h hc
    rw [ih (h.sublist (List.take_sublist _ _)), mem_around hc]
    refine ⟨fun ⟨hx, hkey⟩ => ⟨.inl hx, hkey⟩, ?_⟩
    rintro ⟨hx | rfl | hx, rfl⟩
    · exact ⟨hx, rfl⟩
    · rw [Std.ReflOrd.compare_self] at hlt
      cases hlt
    · exact absurd (Std.TransCmp.lt_trans hlt (hright x hx)) (by rw [Std.ReflOrd.compare_self]; nofun)
  | case6 y z zs mid c hc heq =>
    rw [Std.compare_eq_iff_eq] at heq
    rw [Option.some.injEq]
    constructor
    · rintro rfl
      exact ⟨List.mem_of_getElem? hc, heq.symm⟩
    · rintro ⟨hx, hkey⟩
      exact h.eq_of_key (List.mem_of_getElem? hc) hx (heq.symm.trans hkey.symm)
  | case7 y z zs mid c hc hgt ih =>
    obtain ⟨hleft, -⟩ := ascending_around h hc
    rw [ih (h.sublist (List.drop_sublist _ _)), mem_around hc]
    refine ⟨fun ⟨hx, hkey⟩ => ⟨.inr (.inr hx), hkey⟩, ?_⟩
    rintro ⟨hx | rfl | hx, rfl⟩
    · exact absurd hgt (by rw [hleft x hx]; nofun)
    · rw [Std.ReflOrd.compare_self] at hgt
      cases hgt
    · exact ⟨hx, rfl⟩

theorem search_eq_none {k : κ} {xs : List α} (h : Ascending key xs) :
    search key k xs = none ↔ ∀ x ∈ xs, key x ≠ k := by
  rw [Option.eq_none_iff_forall_ne_some]
  simp only [ne_eq, search_eq_some h, not_and]

end Terpz.Lib
