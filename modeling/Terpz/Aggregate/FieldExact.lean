import Mathlib.GroupTheory.OrderOfElement
import Terpz.Lib.Checked
import Terpz.Aggregate.M31

/-! The field arithmetic run with overflow checks: on canonical operands no word overflows, and what comes out is the
canonical representative of the result. -/
namespace Terpz.Aggregate
open Lib
open Lib.Checked (bind_of_eq)

namespace M31
namespace Checked
open Lib.Checked

/-- The one addition that the source allows to wrap is checked as well. -/
def red (x : UInt64) : Option UInt32 := do
  let v ← add32 (x.toUInt32 &&& P) (x >>> 31).toUInt32
  if v ≥ P then sub32 v P else some v

def add (a b : UInt32) : Option UInt32 := do
  let x ← add64 a.toUInt64 b.toUInt64
  red x

def sub (a b : UInt32) : Option UInt32 := do
  let s ← add64 a.toUInt64 P.toUInt64
  let x ← sub64 s b.toUInt64
  red x

def mul (a b : UInt32) : Option UInt32 := do
  let x ← mul64 a.toUInt64 b.toUInt64
  red x

def inv (a : UInt32) : Option UInt32 := Lib.Checked.squareMultiply mul 32 (P - 2).toNat a 1

end Checked

section NoOverflow
variable {a b : UInt32}

/-- Below 2^62 the two halves that are added have 31 bits each. -/
private theorem red_checked {x : UInt64} (h : x.toNat < 2 ^ 62) : Checked.red x = some (red x) := by
  have hlow : (x.toUInt32 &&& P).toNat < 2 ^ 31 := by
    rw [UInt32.toNat_and, P_toNat]
    exact Nat.lt_of_le_of_lt Nat.and_le_right (by decide)
  have hhigh : (x >>> 31).toUInt32.toNat < 2 ^ 31 := by
    rw [UInt64.toNat_toUInt32, UInt64.toNat_shiftRight]
    change x.toNat >>> 31 % 2 ^ 32 < _
    rw [Nat.shiftRight_eq_div_pow]
    omega
  have hsum : Lib.Checked.add32 (x.toUInt32 &&& P) (x >>> 31).toUInt32 =
      some ((x.toUInt32 &&& P) + (x >>> 31).toUInt32) := Lib.Checked.add32_eq (by omega)
  rw [Checked.red, bind_of_eq hsum, red]
  split
  · rename_i hle
    exact Lib.Checked.sub32_eq (UInt32.le_iff_toNat_le.mp hle)
  · rfl

theorem add_checked (a b : UInt32) : Checked.add a b = some (add a b) := by
  have ha := a.toNat_lt
  have hb := b.toNat_lt
  have hsum : Lib.Checked.add64 a.toUInt64 b.toUInt64 = some (a.toUInt64 + b.toUInt64) := by
    refine Lib.Checked.add64_eq ?_
    rw [UInt32.toNat_toUInt64, UInt32.toNat_toUInt64]
    omega
  rw [Checked.add, bind_of_eq hsum, add]
  refine red_checked ?_
  rw [UInt64.toNat_add, UInt32.toNat_toUInt64, UInt32.toNat_toUInt64]
  omega

theorem sub_checked (a : UInt32) (hb : Canonical b) : Checked.sub a b = some (sub a b) := by
  have ha := a.toNat_lt
  have hb' : b.toNat < modulus := hb
  have hsum : (a.toUInt64 + P.toUInt64).toNat = a.toNat + modulus := by
    rw [UInt64.toNat_add, UInt32.toNat_toUInt64, UInt32.toNat_toUInt64, P_toNat]
    unfold modulus
    omega
  have hadd : Lib.Checked.add64 a.toUInt64 P.toUInt64 = some (a.toUInt64 + P.toUInt64) := by
    refine Lib.Checked.add64_eq ?_
    rw [UInt32.toNat_toUInt64, UInt32.toNat_toUInt64, P_toNat]
    unfold modulus
    omega
  have hle : b.toUInt64.toNat ≤ (a.toUInt64 + P.toUInt64).toNat := by
    rw [hsum, UInt32.toNat_toUInt64]
    omega
  have hsub : Lib.Checked.sub64 (a.toUInt64 + P.toUInt64) b.toUInt64 =
      some (a.toUInt64 + P.toUInt64 - b.toUInt64) := Lib.Checked.sub64_eq hle
  rw [Checked.sub, bind_of_eq hadd, bind_of_eq hsub, sub]
  refine red_checked ?_
  rw [UInt64.toNat_sub_of_le _ _ (UInt64.le_iff_toNat_le.mpr hle), hsum]
  unfold modulus
  omega

theorem mul_checked (ha : Canonical a) (hb : Canonical b) : Checked.mul a b = some (mul a b) := by
  have hbound : a.toNat * b.toNat < 2 ^ 62 := by
    calc a.toNat * b.toNat < modulus * modulus := Nat.mul_lt_mul'' ha hb
      _ < 2 ^ 62 := by decide
  have hmul : Lib.Checked.mul64 a.toUInt64 b.toUInt64 = some (a.toUInt64 * b.toUInt64) := by
    refine Lib.Checked.mul64_eq ?_
    rw [UInt32.toNat_toUInt64, UInt32.toNat_toUInt64]
    omega
  rw [Checked.mul, bind_of_eq hmul, mul]
  refine red_checked ?_
  rw [UInt64.toNat_mul, UInt32.toNat_toUInt64, UInt32.toNat_toUInt64]
  omega

theorem inv_checked (ha : Canonical a) : Checked.inv a = some (inv a) := by
  have hmul (x y : UInt32) (hx : Canonical x) (hy : Canonical y) :
      Canonical (mul x y) ∧ Checked.mul x y = some (mul x y) := ⟨(mul_spec hx hy.le).1, mul_checked hx hy⟩
  have h1 : Canonical 1 := by decide
  unfold Checked.inv inv
  exact Lib.Checked.squareMultiply_eq hmul 32 _ ha h1

end NoOverflow

/-- The checked run goes through with the result, which is the canonical representative of `x`. -/
def Computes (checked : Option UInt32) (result : UInt32) (x : Fp) : Prop :=
  checked = some result ∧ Canonical result ∧ toFp result = x

/-- What the operations do with two canonical operands. -/
structure Exact (a b : UInt32) : Prop where
  add : Computes (Checked.add a b) (add a b) (toFp a + toFp b)
  sub : Computes (Checked.sub a b) (sub a b) (toFp a - toFp b)
  mul : Computes (Checked.mul a b) (mul a b) (toFp a * toFp b)
  inv : Computes (Checked.inv a) (inv a) (toFp a)⁻¹
  inv_mul : a ≠ 0 → M31.mul (M31.inv a) a = 1

theorem exact_of_canonical {a b : UInt32} (ha : Canonical a) (hb : Canonical b) : Exact a b where
  add := ⟨add_checked a b, add_spec a b⟩
  sub := ⟨sub_checked a hb, sub_spec a hb⟩
  mul := ⟨mul_checked ha hb, mul_spec ha hb.le⟩
  inv := ⟨inv_checked ha, inv_spec ha⟩
  inv_mul := by
    intro h0
    obtain ⟨hi, hvi⟩ := inv_spec ha
    obtain ⟨hm, hvm⟩ := mul_spec hi ha.le
    have hne : toFp a ≠ 0 := by
      intro hz
      exact h0 (toFp_inj ha (show Canonical 0 by decide) (hz.trans Nat.cast_zero.symm))
    refine toFp_inj hm (show Canonical 1 by decide) ?_
    rw [hvm, hvi, inv_mul_cancel₀ hne]
    exact Nat.cast_one.symm

end M31

namespace F2
namespace Checked
open M31 (P)

def add (z o : F2) : Option F2 := do
  let a ← M31.Checked.add z.a o.a
  let b ← M31.Checked.add z.b o.b
  some ⟨a, b⟩

def sub (z o : F2) : Option F2 := do
  let a ← M31.Checked.sub z.a o.a
  let b ← M31.Checked.sub z.b o.b
  some ⟨a, b⟩

def mul (z o : F2) : Option F2 := do
  let aa ← M31.Checked.mul z.a o.a
  let bb ← M31.Checked.mul z.b o.b
  let a ← M31.Checked.sub aa bb
  let ab ← M31.Checked.mul z.a o.b
  let ba ← M31.Checked.mul z.b o.a
  let b ← M31.Checked.add ab ba
  some ⟨a, b⟩

def inv (z : F2) : Option F2 := do
  let aa ← M31.Checked.mul z.a z.a
  let bb ← M31.Checked.mul z.b z.b
  let n ← M31.Checked.add aa bb
  let i ← M31.Checked.inv n
  let a ← M31.Checked.mul z.a i
  let nb ← M31.Checked.sub 0 z.b
  let b ← M31.Checked.mul nb i
  some ⟨a, b⟩

def pow (z : F2) (e : UInt32) : Option F2 := Lib.Checked.squareMultiply mul 32 e.toNat z one

end Checked

section NoOverflow
variable {z w : F2}

theorem add_checked (z w : F2) : Checked.add z w = some (z.add w) := by
  rw [Checked.add, bind_of_eq (M31.add_checked _ _), bind_of_eq (M31.add_checked _ _), add]

theorem sub_checked (z : F2) (hw : w.Canonical) : Checked.sub z w = some (z.sub w) := by
  rw [Checked.sub, bind_of_eq (M31.sub_checked _ hw.1), bind_of_eq (M31.sub_checked _ hw.2),
    sub]

theorem mul_checked (hz : z.Canonical) (hw : w.Canonical) : Checked.mul z w = some (z.mul w) := by
  have hbb := (M31.mul_spec hz.2 hw.2.le).1
  rw [Checked.mul, bind_of_eq (M31.mul_checked hz.1 hw.1),
    bind_of_eq (M31.mul_checked hz.2 hw.2), bind_of_eq (M31.sub_checked _ hbb),
    bind_of_eq (M31.mul_checked hz.1 hw.2), bind_of_eq (M31.mul_checked hz.2 hw.1),
    bind_of_eq (M31.add_checked _ _), mul]

theorem inv_checked (hz : z.Canonical) : Checked.inv z = some z.inv := by
  have hn := (M31.add_spec (M31.mul z.a z.a) (M31.mul z.b z.b)).1
  have hi := (M31.inv_spec hn).1
  have hs := (M31.sub_spec 0 hz.2).1
  rw [Checked.inv, bind_of_eq (M31.mul_checked hz.1 hz.1),
    bind_of_eq (M31.mul_checked hz.2 hz.2), bind_of_eq (M31.add_checked _ _),
    bind_of_eq (M31.inv_checked hn), bind_of_eq (M31.mul_checked hz.1 hi),
    bind_of_eq (M31.sub_checked 0 hz.2), bind_of_eq (M31.mul_checked hs hi), inv]

theorem pow_checked (hz : z.Canonical) (e : UInt32) : Checked.pow z e = some (z.pow e) := by
  have hmul (x y : F2) (hx : x.Canonical) (hy : y.Canonical) :
      (x.mul y).Canonical ∧ Checked.mul x y = some (x.mul y) := ⟨(mul_spec hx hy).1, mul_checked hx hy⟩
  unfold Checked.pow pow
  exact Lib.Checked.squareMultiply_eq hmul 32 _ hz one_spec.1

end NoOverflow

/-- The checked run goes through with the result, which represents `x` canonically. -/
def Computes (checked : Option F2) (result : F2) (x : K) : Prop :=
  checked = some result ∧ result.Canonical ∧ result.val = x

/-- What the operations do with two canonical operands; the inverse is one on both sides. -/
structure Exact (z w : F2) : Prop where
  add : Computes (Checked.add z w) (z.add w) (z.val + w.val)
  sub : Computes (Checked.sub z w) (z.sub w) (z.val - w.val)
  mul : Computes (Checked.mul z w) (z.mul w) (z.val * w.val)
  pow : ∀ e, Computes (Checked.pow z e) (z.pow e) (z.val ^ e.toNat)
  inv : Checked.inv z = some z.inv
  mul_inv : z ≠ zero → z.inv.Canonical ∧ z.mul z.inv = one ∧ z.inv.mul z = one

theorem exact_of_canonical {z w : F2} (hz : z.Canonical) (hw : w.Canonical) : Exact z w where
  add := ⟨add_checked z w, add_spec z w⟩
  sub := ⟨sub_checked z hw, sub_spec z hw⟩
  mul := ⟨mul_checked hz hw, mul_spec hz hw⟩
  pow := fun e => ⟨pow_checked hz e, pow_spec hz e⟩
  inv := inv_checked hz
  mul_inv := by
    intro h0
    obtain ⟨hi, hvi⟩ := inv_spec hz h0
    obtain ⟨hl, hvl⟩ := mul_spec hz hi
    obtain ⟨hr, hvr⟩ := mul_spec hi hz
    refine ⟨hi, val_inj hl one_spec.1 ?_, val_inj hr one_spec.1 ?_⟩
    · rw [hvl, hvi, one_spec.2]
    · rw [hvr, mul_comm, hvi, one_spec.2]

end F2

section RootOfUnity

private theorem neg_one_ne_one : (-1 : F2.K) ≠ 1 := by
  have : Fact (2 < M31.modulus) := ⟨by decide⟩
  intro h
  exact ZMod.neg_one_ne_one (congrArg QuadraticAlgebra.re h)

theorem orderOf_omega16 : orderOf omega16.val = 16 := by
  have h8 : ¬ omega16.val ^ 2 ^ 3 = 1 := by
    rw [show 2 ^ 3 = 8 from rfl, omega16_pow_eight]
    exact neg_one_ne_one
  have h16 : omega16.val ^ 2 ^ (3 + 1) = 1 := by
    rw [show 2 ^ (3 + 1) = 8 * 2 from rfl, pow_mul, omega16_pow_eight, neg_one_sq]
  exact orderOf_eq_prime_pow h8 h16

/-- The powers that are one in words are those with an exponent that 16 divides. -/
theorem omega16_pow_eq_one (e : UInt32) : omega16.pow e = F2.one ↔ 16 ∣ e.toNat := by
  obtain ⟨hc, hv⟩ := F2.pow_spec omega16_canonical e
  rw [← orderOf_omega16, orderOf_dvd_iff_pow_eq_one, ← hv, ← F2.one_spec.2]
  exact ⟨congrArg F2.val, F2.val_inj hc F2.one_spec.1⟩

/-- On canonical operands the word arithmetic is that of the fields, without overflow, and the root of unity has
order 16 with eighth power -1. -/
theorem field_arithmetic_exact :
    (∀ a b, M31.Canonical a → M31.Canonical b → M31.Exact a b) ∧
    (∀ z w : F2, z.Canonical → w.Canonical → F2.Exact z w) ∧
    omega16.Canonical ∧ orderOf omega16.val = 16 ∧ (∀ e, omega16.pow e = F2.one ↔ 16 ∣ e.toNat) ∧
    omega16.val ^ 8 = -1 ∧ omega16.pow 8 = F2.zero.sub F2.one := by
  refine ⟨fun a b ha hb => M31.exact_of_canonical ha hb, fun z w hz hw => F2.exact_of_canonical hz hw,
    omega16_canonical, orderOf_omega16, omega16_pow_eq_one, omega16_pow_eight, ?_⟩
  obtain ⟨hc, hv⟩ := F2.pow_spec omega16_canonical 8
  obtain ⟨hs, hvs⟩ := F2.sub_spec F2.zero F2.one_spec.1
  refine F2.val_inj hc hs ?_
  rw [hv, hvs, F2.zero_spec.2, F2.one_spec.2, zero_sub]
  exact omega16_pow_eight

end RootOfUnity
end Terpz.Aggregate
