import Mathlib.Logic.Function.Basic
import Terpz.Lib.DoublingTree

/-! Stores that keep every string under its hash, and lists of strings that are compared by their hashes. -/
namespace Terpz.Lib.ContentStore
open DoublingTree Function
variable {α : Type} {H : List α → List α} {st : List α → Option (List α)}

/-- Every entry hashes to its key. -/
def Addressed (H : List α → List α) (st : List α → Option (List α)) : Prop := ∀ k v, st k = some v → H v = k

theorem addressed_empty : Addressed H (fun _ => none) := by
  intro k v h
  cases h

theorem Addressed.update [DecidableEq α] (h : Addressed H st) {k v : List α} (hk : H v = k) :
    Addressed H (update st k (some v)) := by
  intro k' v' h'
  rw [update_apply] at h'
  split at h'
  · next heq =>
    cases h'
    exact hk.trans heq.symm
  · exact h k' v' h'

/-- A list of strings is a prefix of another as soon as their hashes are, or two of the strings collide. -/
theorem prefix_or_collision {xs ys : List (List α)} (h : xs.map H <+: ys.map H) : xs <+: ys ∨ Collision H xs ys := by
  induction xs generalizing ys with
  | nil => exact .inl List.nil_prefix
  | cons x xs ih =>
    cases ys with
    | nil => exact absurd (List.prefix_nil.mp h) (List.cons_ne_nil _ _)
    | cons y ys =>
      rw [List.map_cons, List.map_cons, List.cons_prefix_cons] at h
      rcases eq_or_collision List.mem_cons_self List.mem_cons_self h.1 with rfl | hxy
      · rcases ih h.2 with htail | hcol
        · exact .inl (List.cons_prefix_cons.mpr ⟨rfl, htail⟩)
        · exact .inr (hcol.mono (List.subset_cons_self ..) (List.subset_cons_self ..))
      · exact .inr hxy

end Terpz.Lib.ContentStore
