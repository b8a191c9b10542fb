import Mathlib.Tactic.LinearCombination
import Mathlib.Tactic.Ring

/-! Polynomials as coefficient lists over a commutative ring, and the even-odd fold of their
values: two values at opposite points give one value of a polynomial half as long. -/
namespace Terpz.Lib.Folding

variable {R : Type} [CommRing R]

def polyEval (c : List R) (x : R) : R := c.foldr (fun a acc => a + x * acc) 0

@[simp] theorem polyEval_nil (x : R) : polyEval [] x = 0 := rfl

@[simp] theorem polyEval_cons (a : R) (c : List R) (x : R) : polyEval (a :: c) x = a + x * polyEval c x := rfl

theorem polyEval_add {c d : List R} (h : c.length = d.length) (x : R) :
    polyEval (List.zipWith (· + ·) c d) x = polyEval c x + polyEval d x := by
  induction c generalizing d with
  | nil =>
    obtain rfl := List.length_eq_zero_iff.mp h.symm
    simp
  | cons a c ih =>
    cases d with
    | nil => simp at h
    | cons b d =>
      rw [List.zipWith_cons_cons, polyEval_cons, polyEval_cons, polyEval_cons, ih (Nat.succ.inj h)]
      ring

/-- At most one coefficient: the same value everywhere. -/
theorem polyEval_const {c : List R} (h : c.length ≤ 1) (x y : R) : polyEval c x = polyEval c y := by
  match c, h with
  | [], _ => rfl
  | [a], _ => simp

/-- Even coefficients plus `β` times odd ones. -/
def foldCoeffs (β : R) : List R → List R
  | [] => []
  | [a] => [a]
  | a :: b :: rest => (a + β * b) :: foldCoeffs β rest

theorem foldCoeffs_length (β : R) (c : List R) : (foldCoeffs β c).length = (c.length + 1) / 2 := by
  induction c using foldCoeffs.induct with
  | case1 => simp [foldCoeffs]
  | case2 a => simp [foldCoeffs]
  | case3 a b rest ih =>
    simp only [foldCoeffs, List.length_cons, ih]
    omega

/-- Half the sum at `x` and `-x`, plus `β` times half the difference over `x`. -/
def foldPair (half xinv β u v : R) : R := half * (u + v) + β * (half * ((u - v) * xinv))

theorem foldPair_polyEval {half x xinv : R} (hhalf : half * 2 = 1) (hx : x * xinv = 1) (β : R) (c : List R) :
    foldPair half xinv β (polyEval c x) (polyEval c (-x)) = polyEval (foldCoeffs β c) (x * x) := by
  induction c using foldCoeffs.induct with
  | case1 => simp [foldPair, foldCoeffs]
  | case2 a =>
    simp only [foldPair, foldCoeffs, polyEval_cons, polyEval_nil]
    linear_combination a * hhalf
  | case3 a b rest ih =>
    simp only [foldPair, foldCoeffs, polyEval_cons] at ih ⊢
    linear_combination (x * x) * ih + a * hhalf + β * b * half * 2 * hx + β * b * hhalf

/-- Four coefficients are determined by the values at the fourth roots of unity. -/
theorem coeffs_eq_of_fourth_roots {half i : R} (hhalf : half * 2 = 1) (hi : i * i = -1) {c d : List R}
    (hc : c.length = 4) (hd : d.length = 4) (h1 : polyEval c 1 = polyEval d 1) (hm : polyEval c (-1) = polyEval d (-1))
    (hpi : polyEval c i = polyEval d i) (hmi : polyEval c (-i) = polyEval d (-i)) : c = d := by
  match c, hc, d, hd with
  | [a, b, e, f], _, [a', b', e', f'], _ =>
    simp only [polyEval_cons, polyEval_nil] at h1 hm hpi hmi
    have ha : a = a' := by
      linear_combination half * half * (h1 + hm + hpi + hmi) - 2 * half * half * (e - e') * hi -
        (a - a') * (2 * half + 1) * hhalf
    have hb : b = b' := by
      linear_combination half * half * (h1 - hm - i * (hpi - hmi)) +
        2 * half * half * ((b - b') + (f - f') * (i * i - 1)) * hi - (b - b') * (2 * half + 1) * hhalf
    have he : e = e' := by
      linear_combination half * half * (h1 + hm - hpi - hmi) + 2 * half * half * (e - e') * hi -
        (e - e') * (2 * half + 1) * hhalf
    have hf : f = f' := by
      linear_combination half * half * (h1 - hm + i * (hpi - hmi)) -
        2 * half * half * ((b - b') + (f - f') * (i * i - 1)) * hi - (f - f') * (2 * half + 1) * hhalf
    rw [ha, hb, he, hf]

end Terpz.Lib.Folding
