import Mathlib.Algebra.Group.Basic
import Mathlib.Tactic.Ring

/-! Powers by repeated squaring, for a multiplication that agrees with a commutative monoid's
on the values that keep an invariant. -/
namespace Terpz.Lib

variable {α M : Type}

/-- `r · b ^ e`, from the low bit of `e` up; as many turns as `e` has bits are enough. -/
def squareMultiply (mul : α → α → α) : Nat → Nat → α → α → α
  | 0, _, _, r => r
  | fuel + 1, e, b, r =>
    if e > 0 then squareMultiply mul fuel (e / 2) (mul b b) (if e % 2 = 1 then mul r b else r) else r

theorem squareMultiply_spec [CommMonoid M] {mul : α → α → α} {P : α → Prop} {f : α → M}
    (hmul : ∀ x y, P x → P y → P (mul x y) ∧ f (mul x y) = f x * f y) {fuel e : Nat} (he : e < 2 ^ fuel) {b r : α}
    (hb : P b) (hr : P r) :
    P (squareMultiply mul fuel e b r) ∧ f (squareMultiply mul fuel e b r) = f r * f b ^ e := by
  induction fuel generalizing e b r with
  | zero =>
    obtain rfl : e = 0 := by simpa using he
    exact ⟨hr, by rw [squareMultiply, pow_zero, mul_one]⟩
  | succ fuel ih =>
    unfold squareMultiply
    by_cases h0 : e > 0
    · obtain ⟨hbb, hfbb⟩ := hmul b b hb hb
      have hhalf : e / 2 < 2 ^ fuel := by
        rw [Nat.pow_succ] at he
        omega
      have hsq : f (mul b b) ^ (e / 2) = f b ^ (2 * (e / 2)) := by rw [hfbb, pow_mul, sq]
      rw [if_pos h0]
      by_cases hodd : e % 2 = 1
      · obtain ⟨hrb, hfrb⟩ := hmul r b hr hb
        obtain ⟨hP, hf⟩ := ih hhalf hbb hrb
        have hsplit : e = 2 * (e / 2) + 1 := by omega
        rw [if_pos hodd]
        refine ⟨hP, ?_⟩
        rw [hf, hsq, hfrb, mul_assoc, ← pow_succ', ← hsplit]
      · obtain ⟨hP, hf⟩ := ih hhalf hbb hr
        have hsplit : 2 * (e / 2) = e := by omega
        rw [if_neg hodd]
        refine ⟨hP, ?_⟩
        rw [hf, hsq, hsplit]
    · obtain rfl : e = 0 := by omega
      rw [if_neg h0, pow_zero, mul_one]
      exact ⟨hr, rfl⟩

end Terpz.Lib
