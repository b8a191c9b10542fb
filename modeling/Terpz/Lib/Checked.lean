import Terpz.Lib.SquareMultiply

/-! Word arithmetic that stops where a result does not fit its word, and powers computed with it. -/
namespace Terpz.Lib.Checked

def add32 (a b : UInt32) : Option UInt32 := if a.toNat + b.toNat < 2 ^ 32 then some (a + b) else none

def sub32 (a b : UInt32) : Option UInt32 := if b.toNat ≤ a.toNat then some (a - b) else none

def add64 (a b : UInt64) : Option UInt64 := if a.toNat + b.toNat < 2 ^ 64 then some (a + b) else none

def sub64 (a b : UInt64) : Option UInt64 := if b.toNat ≤ a.toNat then some (a - b) else none

def mul64 (a b : UInt64) : Option UInt64 := if a.toNat * b.toNat < 2 ^ 64 then some (a * b) else none

/-- A step that goes through hands its result on. -/
theorem bind_of_eq {α β : Type} {x : Option α} {a : α} (h : x = some a) (f : α → Option β) : x >>= f = f a := by
  rw [h]
  rfl

section Fits
variable {a b : UInt32} {x y : UInt64}

theorem add32_eq (h : a.toNat + b.toNat < 2 ^ 32) : add32 a b = some (a + b) := if_pos h

theorem sub32_eq (h : b.toNat ≤ a.toNat) : sub32 a b = some (a - b) := if_pos h

theorem add64_eq (h : x.toNat + y.toNat < 2 ^ 64) : add64 x y = some (x + y) := if_pos h

theorem sub64_eq (h : y.toNat ≤ x.toNat) : sub64 x y = some (x - y) := if_pos h

theorem mul64_eq (h : x.toNat * y.toNat < 2 ^ 64) : mul64 x y = some (x * y) := if_pos h

end Fits

section Power
variable {α : Type}

/-- `squareMultiply` with a multiplication that may stop. -/
def squareMultiply (mul : α → α → Option α) : Nat → Nat → α → α → Option α
  | 0, _, _, r => some r
  | fuel + 1, e, b, r =>
    if e > 0 then do
      let r ← if e % 2 = 1 then mul r b else some r
      let b ← mul b b
      squareMultiply mul fuel (e / 2) b r
    else some r

/-- A multiplication that goes through on the values of an invariant, and keeps it, never stops the power. -/
theorem squareMultiply_eq {mul : α → α → α} {mulChecked : α → α → Option α} {P : α → Prop}
    (hmul : ∀ x y, P x → P y → P (mul x y) ∧ mulChecked x y = some (mul x y)) (fuel e : Nat) {b r : α}
    (hb : P b) (hr : P r) :
    squareMultiply mulChecked fuel e b r = some (Lib.squareMultiply mul fuel e b r) := by
  induction fuel generalizing e b r with
  | zero => rfl
  | succ fuel ih =>
    obtain ⟨hbb, hbb'⟩ := hmul b b hb hb
    obtain ⟨hrb, hrb'⟩ := hmul r b hr hb
    unfold squareMultiply Lib.squareMultiply
    by_cases h0 : e > 0
    · rw [if_pos h0, if_pos h0]
      by_cases hodd : e % 2 = 1
      · rw [if_pos hodd, if_pos hodd, hrb', hbb']
        exact ih _ hbb hrb
      · rw [if_neg hodd, if_neg hodd, hbb']
        exact ih _ hbb hr
    · rw [if_neg h0, if_neg h0]

end Power
end Terpz.Lib.Checked
