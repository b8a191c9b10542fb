import Mathlib.Algebra.QuadraticAlgebra.Defs
import Mathlib.NumberTheory.LegendreSymbol.Basic
import Mathlib.NumberTheory.LucasLehmer
import Terpz.Lib.SquareMultiply

/-! Arithmetic modulo 2^31 - 1 in 32-bit words, and its extension by a square root of -1.
The reduction subtracts the modulus once, so it is exact only below 2^62 - 1. -/
namespace Terpz.Aggregate
open Lib

namespace M31

def P : UInt32 := ((1 : UInt32) <<< 31) - 1

def red (x : UInt64) : UInt32 :=
  let v := (x.toUInt32 &&& P) + (x >>> 31).toUInt32
  if v ≥ P then v - P else v

def add (a b : UInt32) : UInt32 := red (a.toUInt64 + b.toUInt64)

def sub (a b : UInt32) : UInt32 := red (a.toUInt64 + P.toUInt64 - b.toUInt64)

def mul (a b : UInt32) : UInt32 := red (a.toUInt64 * b.toUInt64)

/-- `a ^ (P - 2)`. -/
def inv (a : UInt32) : UInt32 := squareMultiply mul 32 (P - 2).toNat a 1

end M31

/-- `a + b·i` with `i² = -1`. -/
structure F2 where
  a : UInt32
  b : UInt32
  deriving DecidableEq, Repr

namespace F2
open M31

def zero : F2 := ⟨0, 0⟩

def one : F2 := ⟨1, 0⟩

def new (a b : UInt32) : F2 := ⟨a % P, b % P⟩

def add (z o : F2) : F2 := ⟨M31.add z.a o.a, M31.add z.b o.b⟩

def sub (z o : F2) : F2 := ⟨M31.sub z.a o.a, M31.sub z.b o.b⟩

def mul (z o : F2) : F2 :=
  ⟨M31.sub (M31.mul z.a o.a) (M31.mul z.b o.b), M31.add (M31.mul z.a o.b) (M31.mul z.b o.a)⟩

def scale (z : F2) (s : UInt32) : F2 := ⟨M31.mul z.a s, M31.mul z.b s⟩

def inv (z : F2) : F2 :=
  let n := M31.add (M31.mul z.a z.a) (M31.mul z.b z.b)
  let i := M31.inv n
  ⟨M31.mul z.a i, M31.mul (M31.sub 0 z.b) i⟩

def pow (z : F2) (e : UInt32) : F2 := squareMultiply mul 32 e.toNat z one

end F2

/-- `(2 + i) ^ ((p² - 1) / 16)`: the base squared 27 times, then raised to `P - 1`. -/
def omega16 : F2 :=
  let h := Nat.repeat (fun h : F2 => h.mul h) 27 (F2.new 2 1)
  h.pow (M31.P - 1)

namespace M31

def modulus : Nat := 2147483647

abbrev Fp := ZMod modulus

instance : Fact modulus.Prime := ⟨lucas_lehmer_sufficiency 31 (by decide) (by norm_num)⟩

/-- The residue a word stands for. -/
def toFp (a : UInt32) : Fp := (a.toNat : Fp)

def Canonical (a : UInt32) : Prop := a.toNat < modulus

instance (a : UInt32) : Decidable (Canonical a) := inferInstanceAs (Decidable (a.toNat < modulus))

theorem P_toNat : P.toNat = modulus := rfl

section Reduction

private theorem low_bits (x : UInt64) : (x.toUInt32 &&& P).toNat = x.toNat % 2 ^ 31 := by
  rw [UInt32.toNat_and, UInt64.toNat_toUInt32, P_toNat]
  change x.toNat % 2 ^ 32 &&& (2 ^ 31 - 1) = _
  rw [Nat.and_two_pow_sub_one_eq_mod]
  omega

private theorem high_bits (x : UInt64) : (x >>> 31).toUInt32.toNat = x.toNat / 2 ^ 31 % 2 ^ 32 := by
  rw [UInt64.toNat_toUInt32, UInt64.toNat_shiftRight]
  change x.toNat >>> 31 % 2 ^ 32 = _
  rw [Nat.shiftRight_eq_div_pow]

/-- One conditional subtraction, on numbers. -/
private theorem red_toNat_eq (x : UInt64) : (red x).toNat =
    let v := (x.toNat % 2 ^ 31 + x.toNat / 2 ^ 31 % 2 ^ 32) % 2 ^ 32
    if modulus ≤ v then v - modulus else v := by
  unfold red
  have hv : ((x.toUInt32 &&& P) + (x >>> 31).toUInt32).toNat =
      (x.toNat % 2 ^ 31 + x.toNat / 2 ^ 31 % 2 ^ 32) % 2 ^ 32 := by
    rw [UInt32.toNat_add, low_bits, high_bits]
  simp only [ge_iff_le, UInt32.le_iff_toNat_le, P_toNat, hv]
  split
  · rename_i hle
    rw [UInt32.toNat_sub_of_le _ _ (by rw [UInt32.le_iff_toNat_le, hv, P_toNat]; exact hle), hv, P_toNat]
  · exact hv

theorem red_toNat {x : UInt64} (h : x.toNat < 2 ^ 62 - 1) : (red x).toNat = x.toNat % modulus := by
  -- the high part moves down by the modulus: 2^31 is one more
  have hx : x.toNat = x.toNat % 2 ^ 31 + x.toNat / 2 ^ 31 + modulus * (x.toNat / 2 ^ 31) := by
    have := Nat.mod_add_div x.toNat (2 ^ 31)
    unfold modulus
    omega
  have hv : (x.toNat % 2 ^ 31 + x.toNat / 2 ^ 31 % 2 ^ 32) % 2 ^ 32 = x.toNat % 2 ^ 31 + x.toNat / 2 ^ 31 := by
    omega
  have hlt : x.toNat % 2 ^ 31 + x.toNat / 2 ^ 31 < 2 * modulus := by
    unfold modulus
    omega
  rw [red_toNat_eq, hv, hx, Nat.add_mul_mod_self_left, ← hx]
  generalize x.toNat % 2 ^ 31 + x.toNat / 2 ^ 31 = v at hlt ⊢
  simp only
  split
  · rename_i hle
    rw [Nat.mod_eq_sub_mod hle, Nat.mod_eq_of_lt (by omega)]
  · rename_i hle
    rw [Nat.mod_eq_of_lt (by omega)]

/-- Whatever is reduced, the result exceeds the modulus by at most one. -/
theorem red_le (x : UInt64) : (red x).toNat ≤ modulus + 1 := by
  rw [red_toNat_eq]
  unfold modulus
  simp only
  split <;> omega

end Reduction

section Arithmetic
variable {a b : UInt32}

theorem red_spec {x : UInt64} (h : x.toNat < 2 ^ 62 - 1) : Canonical (red x) ∧ toFp (red x) = (x.toNat : Fp) := by
  rw [Canonical, toFp, red_toNat h]
  exact ⟨Nat.mod_lt _ (by decide), ZMod.natCast_mod _ _⟩

/-- Sums of any two words are reduced exactly. -/
theorem add_spec (a b : UInt32) : Canonical (add a b) ∧ toFp (add a b) = toFp a + toFp b := by
  have ha := a.toNat_lt
  have hb := b.toNat_lt
  have hsum : (a.toUInt64 + b.toUInt64).toNat = a.toNat + b.toNat := by
    rw [UInt64.toNat_add, UInt32.toNat_toUInt64, UInt32.toNat_toUInt64]
    omega
  obtain ⟨hc, hv⟩ := red_spec (x := a.toUInt64 + b.toUInt64) (by omega)
  exact ⟨hc, by rw [add, hv, hsum, Nat.cast_add]; rfl⟩

theorem sub_spec (a : UInt32) (hb : Canonical b) : Canonical (sub a b) ∧ toFp (sub a b) = toFp a - toFp b := by
  have ha := a.toNat_lt
  have hb' : b.toNat < 2147483647 := hb
  have hdiff : (a.toUInt64 + P.toUInt64 - b.toUInt64).toNat = a.toNat + modulus - b.toNat := by
    have hsum : (a.toUInt64 + P.toUInt64).toNat = a.toNat + modulus := by
      rw [UInt64.toNat_add, UInt32.toNat_toUInt64, UInt32.toNat_toUInt64, P_toNat]
      unfold modulus
      omega
    rw [UInt64.toNat_sub_of_le _ _ (by
      rw [UInt64.le_iff_toNat_le, hsum, UInt32.toNat_toUInt64]; unfold modulus; omega), hsum, UInt32.toNat_toUInt64]
  have hle : b.toNat ≤ a.toNat + modulus := by unfold modulus; omega
  obtain ⟨hc, hv⟩ := red_spec (x := a.toUInt64 + P.toUInt64 - b.toUInt64) (by rw [hdiff]; unfold modulus; omega)
  refine ⟨hc, ?_⟩
  rw [sub, hv, hdiff, Nat.cast_sub hle, Nat.cast_add, ZMod.natCast_self, add_zero]
  rfl

/-- A canonical factor leaves room for one that reaches the modulus plus one. -/
theorem mul_spec (ha : Canonical a) (hb : b.toNat ≤ modulus + 1) :
    Canonical (mul a b) ∧ toFp (mul a b) = toFp a * toFp b := by
  have hbound : a.toNat * b.toNat < 2 ^ 62 - 1 := by
    have ha' : a.toNat ≤ 2147483646 := Nat.le_of_lt_succ ha
    calc a.toNat * b.toNat ≤ 2147483646 * 2147483648 := Nat.mul_le_mul ha' hb
      _ < 2 ^ 62 - 1 := by decide
  have hprod : (a.toUInt64 * b.toUInt64).toNat = a.toNat * b.toNat := by
    rw [UInt64.toNat_mul, UInt32.toNat_toUInt64, UInt32.toNat_toUInt64, Nat.mod_eq_of_lt (by omega)]
  obtain ⟨hc, hv⟩ := red_spec (x := a.toUInt64 * b.toUInt64) (by omega)
  exact ⟨hc, by rw [mul, hv, hprod, Nat.cast_mul]; rfl⟩

theorem Canonical.le (ha : Canonical a) : a.toNat ≤ modulus + 1 := Nat.le_add_right_of_le (Nat.le_of_lt ha)

theorem inv_spec (ha : Canonical a) : Canonical (inv a) ∧ toFp (inv a) = (toFp a)⁻¹ := by
  have hmul (x y : UInt32) (hx : Canonical x) (hy : Canonical y) :
      Canonical (mul x y) ∧ toFp (mul x y) = toFp x * toFp y := mul_spec hx hy.le
  have hbits : (P - 2).toNat < 2 ^ 32 := by decide
  obtain ⟨hc, hv⟩ := squareMultiply_spec hmul hbits ha (show Canonical 1 by decide)
  refine ⟨hc, ?_⟩
  have hone : toFp 1 = 1 := Nat.cast_one
  have hexp : (P - 2).toNat = modulus - 2 := rfl
  rw [inv, hv, hone, one_mul, hexp]
  by_cases h0 : toFp a = 0
  · rw [h0, inv_zero, zero_pow (by decide)]
  · refine eq_inv_of_mul_eq_one_left ?_
    rw [← pow_succ]
    exact ZMod.pow_card_sub_one_eq_one h0

theorem toFp_inj (ha : Canonical a) (hb : Canonical b) (h : toFp a = toFp b) : a = b := by
  have hn := congrArg ZMod.val h
  rw [toFp, toFp, ZMod.val_natCast_of_lt ha, ZMod.val_natCast_of_lt hb] at hn
  exact UInt32.toNat_inj.mp hn

end Arithmetic
end M31

namespace F2
open M31 (Fp toFp)

/-- The extension field, as pairs. -/
abbrev K := QuadraticAlgebra Fp (-1) 0

def val (z : F2) : K := ⟨toFp z.a, toFp z.b⟩

def Canonical (z : F2) : Prop := M31.Canonical z.a ∧ M31.Canonical z.b

instance (z : F2) : Decidable z.Canonical := inferInstanceAs (Decidable (_ ∧ _))

/-- A word as an element of the extension. -/
def ofWord (s : UInt32) : K := ⟨toFp s, 0⟩

section Spec
variable {z w : F2}

theorem val_inj (hz : z.Canonical) (hw : w.Canonical) (h : z.val = w.val) : z = w := by
  obtain ⟨ha, hb⟩ := QuadraticAlgebra.ext_iff.mp h
  obtain ⟨a, b⟩ := z
  obtain ⟨c, d⟩ := w
  rw [show a = c from M31.toFp_inj hz.1 hw.1 ha, show b = d from M31.toFp_inj hz.2 hw.2 hb]

theorem add_spec (z w : F2) : (z.add w).Canonical ∧ (z.add w).val = z.val + w.val := by
  obtain ⟨ha, hva⟩ := M31.add_spec z.a w.a
  obtain ⟨hb, hvb⟩ := M31.add_spec z.b w.b
  exact ⟨⟨ha, hb⟩, QuadraticAlgebra.ext hva hvb⟩

theorem sub_spec (z : F2) (hw : w.Canonical) : (z.sub w).Canonical ∧ (z.sub w).val = z.val - w.val := by
  obtain ⟨ha, hva⟩ := M31.sub_spec z.a hw.1
  obtain ⟨hb, hvb⟩ := M31.sub_spec z.b hw.2
  exact ⟨⟨ha, hb⟩, QuadraticAlgebra.ext hva hvb⟩

theorem mul_spec (hz : z.Canonical) (hw : w.Canonical) : (z.mul w).Canonical ∧ (z.mul w).val = z.val * w.val := by
  obtain ⟨_, haa⟩ := M31.mul_spec hz.1 hw.1.le
  obtain ⟨hbb', hbb⟩ := M31.mul_spec hz.2 hw.2.le
  obtain ⟨_, hab⟩ := M31.mul_spec hz.1 hw.2.le
  obtain ⟨_, hba⟩ := M31.mul_spec hz.2 hw.1.le
  obtain ⟨hre, hvre⟩ := M31.sub_spec (M31.mul z.a w.a) hbb'
  obtain ⟨him, hvim⟩ := M31.add_spec (M31.mul z.a w.b) (M31.mul z.b w.a)
  refine ⟨⟨hre, him⟩, QuadraticAlgebra.ext ?_ ?_⟩
  · rw [QuadraticAlgebra.re_mul]
    change toFp _ = toFp z.a * toFp w.a + -1 * toFp z.b * toFp w.b
    rw [mul, hvre, haa, hbb]
    ring
  · rw [QuadraticAlgebra.im_mul]
    change toFp _ = toFp z.a * toFp w.b + toFp z.b * toFp w.a + 0 * toFp z.b * toFp w.b
    rw [mul, hvim, hab, hba]
    ring

theorem scale_spec (hz : z.Canonical) {s : UInt32} (hs : s.toNat ≤ M31.modulus + 1) :
    (z.scale s).Canonical ∧ (z.scale s).val = z.val * ofWord s := by
  obtain ⟨ha, hva⟩ := M31.mul_spec hz.1 hs
  obtain ⟨hb, hvb⟩ := M31.mul_spec hz.2 hs
  refine ⟨⟨ha, hb⟩, QuadraticAlgebra.ext ?_ ?_⟩
  · rw [QuadraticAlgebra.re_mul]
    change toFp (M31.mul z.a s) = toFp z.a * toFp s + -1 * toFp z.b * 0
    rw [hva]
    ring
  · rw [QuadraticAlgebra.im_mul]
    change toFp (M31.mul z.b s) = toFp z.a * 0 + toFp z.b * toFp s + 0 * toFp z.b * 0
    rw [hvb]
    ring

theorem zero_spec : zero.Canonical ∧ zero.val = 0 :=
  ⟨⟨by decide, by decide⟩, QuadraticAlgebra.ext Nat.cast_zero Nat.cast_zero⟩

theorem one_spec : one.Canonical ∧ one.val = 1 :=
  ⟨⟨by decide, by decide⟩, QuadraticAlgebra.ext Nat.cast_one Nat.cast_zero⟩

theorem new_canonical (a b : UInt32) : (new a b).Canonical := by
  have hmod (c : UInt32) : M31.Canonical (c % M31.P) := by
    rw [M31.Canonical, UInt32.toNat_mod, M31.P_toNat]
    exact Nat.mod_lt _ (by decide)
  exact ⟨hmod a, hmod b⟩

theorem pow_spec (hz : z.Canonical) (e : UInt32) : (z.pow e).Canonical ∧ (z.pow e).val = z.val ^ e.toNat := by
  have hmul (x y : F2) (hx : x.Canonical) (hy : y.Canonical) :
      (x.mul y).Canonical ∧ (x.mul y).val = x.val * y.val := mul_spec hx hy
  obtain ⟨hc, hv⟩ := squareMultiply_spec hmul e.toNat_lt hz one_spec.1
  exact ⟨hc, by rw [pow, hv, one_spec.2, one_mul]⟩

/-- The sum of two squares is zero only at zero, since the modulus is 3 modulo 4. -/
private theorem norm_ne_zero {x y : Fp} (h : x ≠ 0 ∨ y ≠ 0) : x * x + y * y ≠ 0 := by
  intro h0
  have hneg : x ^ 2 = -y ^ 2 := by linear_combination h0
  by_cases hy : y = 0
  · rw [hy] at hneg
    have hx : x = 0 := by simpa using hneg
    exact h.elim (absurd hx) (absurd hy)
  · exact ZMod.mod_four_ne_three_of_sq_eq_neg_sq' hy hneg (by decide)

theorem inv_spec (hz : z.Canonical) (h0 : z ≠ zero) : z.inv.Canonical ∧ z.val * z.inv.val = 1 := by
  obtain ⟨_, haa⟩ := M31.mul_spec hz.1 hz.1.le
  obtain ⟨_, hbb⟩ := M31.mul_spec hz.2 hz.2.le
  obtain ⟨hn, hvn⟩ := M31.add_spec (M31.mul z.a z.a) (M31.mul z.b z.b)
  obtain ⟨hi, hvi⟩ := M31.inv_spec hn
  obtain ⟨hs, hvs⟩ := M31.sub_spec 0 hz.2
  obtain ⟨hra, hvra⟩ := M31.mul_spec hz.1 hi.le
  obtain ⟨hrb, hvrb⟩ := M31.mul_spec hs hi.le
  have hnorm : toFp z.a * toFp z.a + toFp z.b * toFp z.b ≠ 0 := by
    refine norm_ne_zero ?_
    by_contra hboth
    rw [not_or, not_not, not_not] at hboth
    exact h0 (val_inj hz zero_spec.1 (QuadraticAlgebra.ext (hboth.1.trans Nat.cast_zero.symm)
      (hboth.2.trans Nat.cast_zero.symm)))
  have hzero : toFp 0 = 0 := Nat.cast_zero
  rw [haa, hbb] at hvn
  rw [hvn] at hvi
  refine ⟨⟨hra, hrb⟩, QuadraticAlgebra.ext ?_ ?_⟩
  · rw [QuadraticAlgebra.re_mul]
    change toFp z.a * toFp (M31.mul _ _) + -1 * toFp z.b * toFp (M31.mul _ _) = 1
    rw [hvra, hvrb, hvs, hvi, hzero]
    linear_combination mul_inv_cancel₀ hnorm
  · rw [QuadraticAlgebra.im_mul]
    change toFp z.a * toFp (M31.mul _ _) + toFp z.b * toFp (M31.mul _ _) + 0 * toFp z.b * toFp (M31.mul _ _) = 0
    rw [hvra, hvrb, hvs, hvi, hzero]
    ring

end Spec
end F2

section RootOfUnity

private theorem omega16_facts : omega16.Canonical ∧ omega16.pow 8 = ⟨M31.P - 1, 0⟩ := by decide +kernel

theorem omega16_canonical : omega16.Canonical := omega16_facts.1

/-- The eighth power is -1, so the order is exactly 16. -/
theorem omega16_pow_eight : omega16.val ^ 8 = -1 := by
  have hval : (F2.mk (M31.P - 1) 0).val = -1 := by
    refine QuadraticAlgebra.ext ?_ ?_
    · change ((M31.modulus - 1 : Nat) : M31.Fp) = -1
      rw [Nat.cast_sub (by decide), ZMod.natCast_self, Nat.cast_one, zero_sub]
    · change ((0 : Nat) : M31.Fp) = -0
      rw [Nat.cast_zero, neg_zero]
  rw [← hval, ← omega16_facts.2, (F2.pow_spec omega16_canonical 8).2]
  rfl

/-- A power of the root of unity times its computed inverse is one. -/
theorem omega16_pow_inv (e : UInt32) :
    (omega16.pow e).inv.Canonical ∧ omega16.val ^ e.toNat * (omega16.pow e).inv.val = 1 := by
  obtain ⟨hc, hv⟩ := F2.pow_spec omega16_canonical e
  have hne : omega16.pow e ≠ F2.zero := by
    intro h0
    -- zero has no power that is one
    have hone : (omega16.val ^ e.toNat) ^ 16 = 1 := by
      rw [← pow_mul, mul_comm, pow_mul, show 16 = 8 * 2 from rfl, pow_mul omega16.val, omega16_pow_eight, neg_one_sq,
        one_pow]
    rw [← hv, h0, F2.zero_spec.2, zero_pow (by decide)] at hone
    exact zero_ne_one hone
  rw [← hv]
  exact F2.inv_spec hc hne

/-- Halving in the field. -/
theorem half_spec : M31.Canonical (M31.inv 2) ∧ F2.ofWord (M31.inv 2) * 2 = 1 := by
  obtain ⟨hc, hv⟩ := M31.inv_spec (a := 2) (by decide)
  refine ⟨hc, ?_⟩
  have htwo : M31.toFp 2 = 2 := Nat.cast_ofNat
  have hne : (2 : M31.Fp) ≠ 0 := by
    intro h0
    have := M31.toFp_inj (a := 2) (b := 0) (by decide) (by decide) (by rw [htwo, h0]; exact Nat.cast_zero.symm)
    exact absurd this (by decide)
  refine QuadraticAlgebra.ext ?_ ?_
  · rw [QuadraticAlgebra.re_mul]
    change M31.toFp (M31.inv 2) * 2 + -1 * 0 * 0 = 1
    rw [hv, htwo, inv_mul_cancel₀ hne]
    ring
  · rw [QuadraticAlgebra.im_mul]
    change M31.toFp (M31.inv 2) * 0 + 0 * 2 + 0 * 0 * 0 = 0
    ring

end RootOfUnity
end Terpz.Aggregate
