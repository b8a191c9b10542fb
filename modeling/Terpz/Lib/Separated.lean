import Mathlib.Data.List.Infix

/-! Two lists joined by a separator that both may contain. The join does not say which separator is the middle one. -/
namespace Terpz.Lib
variable {α : Type} (sep : α)

def joined (a b : List α) : List α := a ++ sep :: b

/-- The second pair is cut at a later separator of the first pair's join. -/
def CutLater (a b a' b' : List α) : Prop := ∃ w, a' = joined sep a w ∧ b = joined sep w b'

/-- Two pairs with one join are the same pair, or one is cut at a later separator. -/
theorem joined_eq_iff {a b a' b' : List α} : joined sep a b = joined sep a' b' ↔
    (a = a' ∧ b = b') ∨ CutLater sep a b a' b' ∨ CutLater sep a' b' a b := by
  -- the longer first part goes on behind the shorter one, with nothing or with a separator
  have step {a b a' b' t : List α} (ha : a' = a ++ t) (hb : sep :: b = t ++ sep :: b') :
      (a = a' ∧ b = b') ∨ CutLater sep a b a' b' := by
    cases t with
    | nil =>
      rw [List.append_nil] at ha
      exact .inl ⟨ha.symm, (List.cons.inj hb).2⟩
    | cons x w =>
      obtain ⟨rfl, hw⟩ := List.cons.inj hb
      exact .inr ⟨w, ha, hw⟩
  constructor
  · intro h
    rcases List.append_eq_append_iff.mp h with ⟨t, ha, hb⟩ | ⟨t, ha, hb⟩
    · exact (step ha hb).imp_right .inl
    · rcases step ha hb with ⟨rfl, rfl⟩ | hcut
      · exact .inl ⟨rfl, rfl⟩
      · exact .inr (.inr hcut)
  · rintro (⟨rfl, rfl⟩ | ⟨w, rfl, rfl⟩ | ⟨w, rfl, rfl⟩)
    · rfl
    · simp [joined]
    · simp [joined]

/-- A pair is cut at a later separator only if it is another pair. -/
theorem CutLater.ne {sep : α} {a b a' b' : List α} (h : CutLater sep a b a' b') : a ≠ a' := by
  obtain ⟨w, ha, -⟩ := h
  intro he
  have hlen := congrArg List.length (he.trans ha)
  simp [joined] at hlen

/-- What lies under a first part and its separator: its own pairs, those whose first part goes on behind the
separator, and those of a shorter first part whose second part holds the rest. -/
theorem prefix_joined_iff {p a b : List α} : p ++ [sep] <+: joined sep a b ↔
    p = a ∨ (∃ w, a = joined sep p w) ∨ ∃ w rest, p = joined sep a w ∧ b = joined sep w rest := by
  have hunder : p ++ [sep] <+: joined sep a b ↔ ∃ t, joined sep p t = joined sep a b := by
    simp only [List.IsPrefix, joined, List.append_assoc, List.singleton_append]
  simp only [hunder, joined_eq_iff]
  constructor
  · rintro ⟨t, ⟨rfl, -⟩ | ⟨w, ha, -⟩ | ⟨w, hp, hb⟩⟩
    · exact .inl rfl
    · exact .inr (.inl ⟨w, ha⟩)
    · exact .inr (.inr ⟨w, t, hp, hb⟩)
  · rintro (rfl | ⟨w, ha⟩ | ⟨w, rest, hp, hb⟩)
    · exact ⟨b, .inl ⟨rfl, rfl⟩⟩
    · exact ⟨joined sep w b, .inr (.inl ⟨w, ha, rfl⟩)⟩
    · exact ⟨rest, .inr (.inr ⟨w, hp, hb⟩)⟩

end Terpz.Lib
