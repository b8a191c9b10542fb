import Mathlib.Data.List.Infix

/-! An index of a table by owner: the owner of a record, followed by the record's key. Keys of one length keep the
entries apart; a walk over the entries that start with an owner does not keep to that owner. -/
namespace Terpz.Lib
variable {α V : Type} {length : Nat} {owner : V → Option (List α)} {table table' : List α → Option V}
  {index index' : List α → Prop} {c : List α}

/-- The entries of the index are those of the records with an owner. -/
structure OwnerIndex (length : Nat) (owner : V → Option (List α)) (table : List α → Option V)
    (index : List α → Prop) : Prop where
  keys : ∀ c v, table c = some v → c.length = length
  entries : ∀ k, index k ↔ ∃ c v o, table c = some v ∧ owner v = some o ∧ k = o ++ c

namespace OwnerIndex

/-- An entry says exactly who owns a record. -/
theorem entry_iff (h : OwnerIndex length owner table index) (hc : c.length = length) {o : List α} :
    index (o ++ c) ↔ ∃ v, table c = some v ∧ owner v = some o := by
  rw [h.entries]
  constructor
  · rintro ⟨c', v, o', hv, ho, heq⟩
    obtain ⟨rfl, rfl⟩ := List.append_inj' heq (hc.trans (h.keys c' v hv).symm)
    exact ⟨v, hv, ho⟩
  · rintro ⟨v, hv, ho⟩
    exact ⟨c, v, o, hv, ho, rfl⟩

/-- One record changes: the other entries stay, and those of the record follow it. -/
theorem update (h : OwnerIndex length owner table index) (hc : c.length = length)
    (htable : ∀ c', c' ≠ c → table' c' = table c') (hindex : ∀ k, ¬ c <:+ k → (index' k ↔ index k))
    (hat : ∀ o, index' (o ++ c) ↔ ∃ v, table' c = some v ∧ owner v = some o) :
    OwnerIndex length owner table' index' where
  keys c' v hv := by
    by_cases heq : c' = c
    · rw [heq, hc]
    · exact h.keys c' v (htable c' heq ▸ hv)
  entries k := by
    by_cases hsuffix : c <:+ k
    · obtain ⟨o, rfl⟩ := hsuffix
      rw [hat]
      constructor
      · rintro ⟨v, hv, ho⟩
        exact ⟨c, v, o, hv, ho, rfl⟩
      · rintro ⟨c', v, o', hv, ho, heq⟩
        have hlen : c'.length = length := by
          by_cases hcc : c' = c
          · rw [hcc, hc]
          · exact h.keys c' v (htable c' hcc ▸ hv)
        obtain ⟨rfl, rfl⟩ := List.append_inj' heq (hc.trans hlen.symm)
        exact ⟨v, hv, ho⟩
    · rw [hindex k hsuffix, h.entries]
      refine exists_congr (fun c' => exists_congr (fun v => exists_congr (fun o => ?_)))
      constructor
      · rintro ⟨hv, ho, rfl⟩
        have hne : c' ≠ c := fun heq => hsuffix (heq ▸ List.suffix_append o c')
        exact ⟨(htable c' hne).trans hv, ho, rfl⟩
      · rintro ⟨hv, ho, rfl⟩
        have hne : c' ≠ c := fun heq => hsuffix (heq ▸ List.suffix_append o c')
        exact ⟨(htable c' hne).symm.trans hv, ho, rfl⟩

/-- A walk over the entries that start with an owner finds exactly the owner's records when no other entry starts
with it. -/
theorem walk_iff (h : OwnerIndex length owner table index) {d : List α} :
    (∀ x, index (d ++ x) ↔ ∃ v, table x = some v ∧ owner v = some d) ↔
      ∀ c v o, table c = some v → owner v = some o → d <+: o ++ c → o = d := by
  constructor
  · rintro hwalk c v o hv ho ⟨x, hx⟩
    have hentry : index (d ++ x) := (h.entries _).mpr ⟨c, v, o, hv, ho, hx⟩
    obtain ⟨v', hv', -⟩ := (hwalk x).mp hentry
    exact ((List.append_inj' hx ((h.keys x v' hv').trans (h.keys c v hv).symm)).1).symm
  · intro hapart x
    rw [h.entries]
    constructor
    · rintro ⟨c, v, o, hv, ho, heq⟩
      obtain rfl := hapart c v o hv ho ⟨x, heq⟩
      obtain rfl := List.append_cancel_left heq
      exact ⟨v, hv, ho⟩
    · rintro ⟨v, hv, ho⟩
      exact ⟨x, v, d, hv, ho, rfl⟩

end OwnerIndex
end Terpz.Lib
