import Terpz.Lib.BigEndian

/-! Bytes folded into the four lanes of a word by exclusive or. Each string starts again at the first lane. -/
namespace Terpz.Lib

def laneMix (mix : UInt32) (b : Bytes) : UInt32 :=
  b.zipIdx.foldl (fun m x => m ^^^ (x.1.toUInt32 <<< UInt32.ofNat (8 * (x.2 % 4)))) mix

/-- The word of four lanes, the first lane in its low byte. -/
def laneWord (a b c d : UInt8) : UInt32 :=
  a.toUInt32 ^^^ b.toUInt32 <<< 8 ^^^ c.toUInt32 <<< 16 ^^^ d.toUInt32 <<< 24

private theorem foldl_xor {α : Type} (f : α → UInt32) (xs : List α) (mix : UInt32) :
    xs.foldl (fun m x => m ^^^ f x) mix = mix ^^^ xs.foldl (fun m x => m ^^^ f x) 0 := by
  induction xs generalizing mix with
  | nil => simp
  | cons x xs ih => rw [List.foldl_cons, List.foldl_cons, ih, ih (0 ^^^ f x), UInt32.zero_xor, UInt32.xor_assoc]

/-- What is folded in does not depend on what was there. -/
theorem laneMix_eq_xor (mix : UInt32) (b : Bytes) : laneMix mix b = mix ^^^ laneMix 0 b := foldl_xor _ _ _

theorem laneMix_replicate_zero (mix : UInt32) (n : Nat) : laneMix mix (List.replicate n 0) = mix := by
  have hzero : ∀ (k : Nat) (m : UInt32), ((List.replicate n (0 : UInt8)).zipIdx k).foldl
      (fun m x => m ^^^ (x.1.toUInt32 <<< UInt32.ofNat (8 * (x.2 % 4)))) m = m := by
    induction n with
    | zero => exact fun _ _ => rfl
    | succ n ih =>
      intro k m
      rw [List.replicate_succ, List.zipIdx_cons, List.foldl_cons, ih]
      simp
  exact hzero 0 mix

theorem laneMix_four (mix : UInt32) (a b c d : UInt8) : laneMix mix [a, b, c, d] = mix ^^^ laneWord a b c d := by
  simp [laneMix, laneWord, UInt32.xor_assoc]

/-- The fifth byte falls into the first lane again. -/
theorem laneMix_five (mix : UInt32) (a b c d e : UInt8) :
    laneMix mix [a, b, c, d, e] = mix ^^^ laneWord a b c d ^^^ e.toUInt32 := by
  simp [laneMix, laneWord, UInt32.xor_assoc]

theorem laneMix_eight (mix : UInt32) (a b c d e f g h : UInt8) :
    laneMix mix [a, b, c, d, e, f, g, h] = mix ^^^ laneWord a b c d ^^^ laneWord e f g h := by
  simp [laneMix, laneWord, UInt32.xor_assoc]

private theorem xor_lanes (a b c d e f g h : UInt32) :
    a ^^^ b ^^^ c ^^^ d ^^^ (e ^^^ f ^^^ g ^^^ h) = (a ^^^ e) ^^^ (b ^^^ f) ^^^ (c ^^^ g) ^^^ (d ^^^ h) := by
  ac_rfl

theorem laneWord_xor (a b c d e f g h : UInt8) :
    laneWord a b c d ^^^ laneWord e f g h = laneWord (a ^^^ e) (b ^^^ f) (c ^^^ g) (d ^^^ h) := by
  have hlane : ∀ (x y : UInt8) (k : UInt32), (x ^^^ y).toUInt32 <<< k = x.toUInt32 <<< k ^^^ y.toUInt32 <<< k := by
    intro x y k
    rw [UInt8.toUInt32_xor, UInt32.shiftLeft_xor]
  rw [laneWord, laneWord, laneWord, hlane, hlane, hlane, UInt8.toUInt32_xor]
  exact xor_lanes _ _ _ _ _ _ _ _

theorem shiftLeft_xor_eq_add {a b i : Nat} (h : b < 2 ^ i) : a <<< i ^^^ b = a * 2 ^ i + b := by
  apply Nat.eq_of_testBit_eq
  intro j
  rw [Nat.testBit_xor, Nat.testBit_shiftLeft, Nat.mul_comm, Nat.testBit_two_pow_mul_add _ h]
  by_cases hj : j < i
  · simp [hj, Nat.not_le.mpr hj]
  · have hb : b.testBit j = false :=
      Nat.testBit_lt_two_pow (h.trans_le (Nat.pow_le_pow_right (by decide) (Nat.not_lt.mp hj)))
    simp [hj, hb, Nat.not_lt.mp hj]

theorem laneWord_toNat (a b c d : UInt8) :
    (laneWord a b c d).toNat = a.toNat + b.toNat * 2 ^ 8 + c.toNat * 2 ^ 16 + d.toNat * 2 ^ 24 := by
  have ha := a.toNat_lt
  have hb := b.toNat_lt
  have hc := c.toNat_lt
  have hd := d.toNat_lt
  have hshift : ∀ (x : UInt8) (k : Nat), k ≤ 24 → (x.toUInt32 <<< UInt32.ofNat k).toNat = x.toNat <<< k := by
    intro x k hk
    have hx := x.toNat_lt
    have hpow : 2 ^ k ≤ 2 ^ 24 := Nat.pow_le_pow_right (by decide) hk
    have hlt : x.toNat * 2 ^ k < 2 ^ 32 := Nat.mul_lt_mul_of_lt_of_le (c := 2 ^ 8) hx hpow (Nat.two_pow_pos _)
    rw [UInt32.toNat_shiftLeft, UInt32.toNat_ofNat', UInt8.toNat_toUInt32, Nat.mod_eq_of_lt (by omega : k < 2 ^ 32),
      Nat.mod_eq_of_lt (by omega : k < 32), Nat.shiftLeft_eq, Nat.mod_eq_of_lt hlt]
  -- the lanes from the top down, each above what is below it
  have hlow : b.toNat <<< 8 ^^^ a.toNat = b.toNat * 2 ^ 8 + a.toNat := shiftLeft_xor_eq_add ha
  have hmid : c.toNat <<< 16 ^^^ (b.toNat * 2 ^ 8 + a.toNat) = c.toNat * 2 ^ 16 + (b.toNat * 2 ^ 8 + a.toNat) :=
    shiftLeft_xor_eq_add (by omega)
  have hhigh : d.toNat <<< 24 ^^^ (c.toNat * 2 ^ 16 + (b.toNat * 2 ^ 8 + a.toNat)) =
      d.toNat * 2 ^ 24 + (c.toNat * 2 ^ 16 + (b.toNat * 2 ^ 8 + a.toNat)) := shiftLeft_xor_eq_add (by omega)
  have hb8 := hshift b 8 (by decide)
  have hc16 := hshift c 16 (by decide)
  have hd24 := hshift d 24 (by decide)
  simp only [laneWord, UInt32.toNat_xor, UInt8.toNat_toUInt32]
  rw [show (8 : UInt32) = UInt32.ofNat 8 from rfl, show (16 : UInt32) = UInt32.ofNat 16 from rfl,
    show (24 : UInt32) = UInt32.ofNat 24 from rfl, hb8, hc16, hd24, Nat.xor_comm a.toNat, hlow,
    Nat.xor_comm _ (c.toNat <<< 16), hmid, Nat.xor_comm _ (d.toNat <<< 24), hhigh]
  omega

/-- Four bytes fold into the little-endian word they spell. -/
theorem laneMix_four_toNat (a b c d : UInt8) :
    (laneMix 0 [a, b, c, d]).toNat = BigEndian.beNat [d, c, b, a] := by
  rw [laneMix_four, UInt32.zero_xor, laneWord_toNat]
  simp only [BigEndian.beNat, List.foldl_cons, List.foldl_nil]
  omega

end Terpz.Lib
