import Mathlib.Algebra.Order.Floor.Semiring
import Mathlib.Data.Rat.Floor
import Mathlib.Tactic.SplitIfs

/-! Decimals with eighteen places, held as the integer number of their last place. Results beyond a limit are
refused, which is `none`. -/
namespace Terpz.Lib.Decimal

/-- One, in units of the last place. -/
def one : Nat := 10 ^ 18

/-- Half of one. -/
def half : Nat := 5 * 10 ^ 17

/-- Division of a number of last places by one, to the nearest and at a tie to the even quotient. -/
def chopNat (n : Nat) : Nat :=
  let quo := n / one
  let rem := n % one
  if rem < half then quo
  else if half < rem then quo + 1
  else if quo % 2 = 0 then quo else quo + 1

/-- `chopPrecisionAndRound`. -/
def chop (n : Int) : Int := if n < 0 then -(chopNat n.natAbs : Int) else chopNat n.natAbs

/-- A value, unless it is beyond the limit on either side. -/
def inRange (limit : Nat) (n : Int) : Option Int := if n.natAbs ≤ limit then some n else none

def mul (limit : Nat) (a b : Int) : Option Int := inRange limit (chop (a * b))

def mulInt (limit : Nat) (a : Int) (n : Int) : Option Int := inRange limit (a * n)

/-- Division by an integer, towards zero; division by zero is refused. -/
def quoInt (a n : Int) : Option Int := if n = 0 then none else some (a.tdiv n)

/-- The next whole decimal. -/
def ceil (a : Int) : Int :=
  if a.tmod one ≤ 0 then a.tdiv one * one else (a.tdiv one + 1) * one

/-- The largest integer of 256 bits. -/
def maxInt : Nat := 2 ^ 256 - 1

def roundInt (a : Int) : Option Int := inRange maxInt (chop a)

theorem inRange_eq_some {limit : Nat} {n m : Int} : inRange limit n = some m ↔ n.natAbs ≤ limit ∧ m = n := by
  unfold inRange
  split <;> simp_all [eq_comm]

theorem chopNat_mul_one (n : Nat) : chopNat (n * one) = n := by
  simp [chopNat, one, half]

theorem chop_mul_one (n : Int) : chop (n * one) = n := by
  unfold chop
  rw [Int.natAbs_mul, Int.natAbs_natCast, chopNat_mul_one]
  have hone : (0 : Int) < one := by decide
  split
  · next hneg =>
    have := neg_of_mul_neg_left hneg hone.le
    omega
  · next hnonneg =>
    have := nonneg_of_mul_nonneg_left (not_lt.mp hnonneg) hone
    omega

theorem chopNat_le_iff (n m : Nat) : chopNat n ≤ m ↔ n < m * one + half ∨ n = m * one + half ∧ m % 2 = 0 := by
  unfold chopNat
  dsimp only
  split_ifs <;> simp only [one, half] at * <;> omega

/-- Rounding stays at or below an integer up to the half above it, which is a tie. -/
theorem chop_le_iff {n m : Int} (hn : 0 ≤ n) (hm : 0 ≤ m) :
    chop n ≤ m ↔ n < m * one + half ∨ n = m * one + half ∧ m % 2 = 0 := by
  obtain ⟨n, rfl⟩ := Int.eq_ofNat_of_zero_le hn
  obtain ⟨m, rfl⟩ := Int.eq_ofNat_of_zero_le hm
  rw [chop, if_neg (not_lt.mpr hn), Int.natAbs_natCast]
  exact_mod_cast chopNat_le_iff n m

/-- A product with a whole decimal is exact. -/
theorem mul_whole (limit : Nat) (a n : Int) : mul limit a (n * one) = inRange limit (a * n) := by
  rw [mul, ← mul_assoc, chop_mul_one]

theorem ceil_eq (a : Int) : ceil a = ⌈(a : ℚ) / one⌉ * one := by
  have hone : (one : Int) = 10 ^ 18 := by decide
  rw [Rat.ceil_intCast_div_natCast]
  unfold ceil
  rw [hone]
  rcases le_total 0 a with ha | ha
  · rw [Int.tdiv_eq_ediv_of_nonneg ha, Int.tmod_eq_emod_of_nonneg ha]
    split <;> omega
  · obtain ⟨b, rfl⟩ : ∃ b, a = -b := ⟨-a, by omega⟩
    rw [Int.neg_tdiv, Int.neg_tmod, Int.tdiv_eq_ediv_of_nonneg (by omega), Int.tmod_eq_emod_of_nonneg (by omega)]
    split <;> omega

theorem roundInt_ceil (a : Int) : roundInt (ceil a) = inRange maxInt ⌈(a : ℚ) / one⌉ := by
  rw [roundInt, ceil_eq, chop_mul_one]

end Terpz.Lib.Decimal
