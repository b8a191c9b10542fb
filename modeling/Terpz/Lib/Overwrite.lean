import Mathlib.Data.List.Nodup
import Mathlib.Logic.Function.Basic

/-! A map filled by a loop over entries: a later entry replaces an earlier one of its key. -/
namespace Terpz.Lib
open Function
variable {κ ν : Type} [DecidableEq κ]

def overwrite (m : κ → ν) (es : List (κ × ν)) : κ → ν := es.foldl (fun m e => update m e.1 e.2) m

theorem overwrite_of_not_mem {es : List (κ × ν)} {k : κ} (h : k ∉ es.map Prod.fst) (m : κ → ν) :
    overwrite m es k = m k := by
  induction es generalizing m with
  | nil => rfl
  | cons e es ih =>
    rw [List.map_cons, List.mem_cons, not_or] at h
    exact (ih h.2 _).trans (update_of_ne h.1 _ _)

/-- What the default and every entry satisfy, the filled map satisfies. -/
theorem overwrite_satisfies {P : ν → Prop} {es : List (κ × ν)} (he : ∀ e ∈ es, P e.2) {m : κ → ν} (hm : ∀ k, P (m k))
    (k : κ) : P (overwrite m es k) := by
  induction es generalizing m with
  | nil => exact hm k
  | cons e es ih =>
    obtain ⟨hhead, htail⟩ := List.forall_mem_cons.mp he
    refine ih htail (fun j => ?_)
    dsimp only
    by_cases hj : j = e.1
    · subst hj
      rw [update_self]
      exact hhead
    · rw [update_of_ne hj]
      exact hm j

/-- With distinct keys every entry is found again. -/
theorem overwrite_of_mem {es : List (κ × ν)} (hn : (es.map Prod.fst).Nodup) {k : κ} {v : ν} (h : (k, v) ∈ es)
    (m : κ → ν) : overwrite m es k = v := by
  induction es generalizing m with
  | nil => cases h
  | cons e es ih =>
    obtain ⟨he, hn⟩ := List.nodup_cons.mp hn
    rcases List.mem_cons.mp h with rfl | h
    · exact (overwrite_of_not_mem he _).trans (update_self ..)
    · exact ih hn h _

/-- A table of present values holds exactly the entries it was filled with. -/
theorem overwrite_some_iff {es : List (κ × ν)} (hn : (es.map Prod.fst).Nodup) {k : κ} {v : ν} :
    overwrite (fun _ => none) (es.map (fun e => (e.1, some e.2))) k = some v ↔ (k, v) ∈ es := by
  have hkeys : (es.map (fun e => (e.1, some e.2))).map Prod.fst = es.map Prod.fst := by
    rw [List.map_map]
    rfl
  have hfound : ∀ w, (k, w) ∈ es → overwrite (fun _ => none) (es.map (fun e => (e.1, some e.2))) k = some w := by
    intro w hw
    have hmem : (k, some w) ∈ es.map (fun e => (e.1, some e.2)) := List.mem_map.mpr ⟨(k, w), hw, rfl⟩
    exact overwrite_of_mem (by rwa [hkeys]) hmem _
  constructor
  · intro h
    by_cases hk : k ∈ es.map Prod.fst
    · obtain ⟨⟨k, w⟩, hw, rfl⟩ := List.mem_map.mp hk
      rwa [← Option.some.inj ((hfound w hw).symm.trans h)]
    · rw [overwrite_of_not_mem (by rwa [hkeys])] at h
      cases h
  · exact hfound v

omit [DecidableEq κ] in
/-- Entries read off items have distinct keys when a key determines its item's own key. -/
theorem filterMap_keys_nodup {α γ : Type} {f : α → Option (κ × ν)} {key : α → γ} {l : List α} (hl : (l.map key).Nodup)
    (hf : ∀ a b k v w, f a = some (k, v) → f b = some (k, w) → key a = key b) :
    ((l.filterMap f).map Prod.fst).Nodup := by
  rw [List.Nodup, List.pairwise_map, List.pairwise_filterMap]
  rw [List.Nodup, List.pairwise_map] at hl
  refine hl.imp ?_
  rintro a b hne ⟨k, v⟩ ha ⟨k', w⟩ hb he
  have he : k = k' := he
  subst he
  exact hne (hf a b k v w ha hb)

end Terpz.Lib
