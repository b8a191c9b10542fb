import Mathlib.Data.Nat.Digits.Defs
import Terpz.Lib.BigEndian

/-! Byte strings that hold text: literals, hexadecimal bytes and decimal numerals. -/
namespace Terpz.Lib

abbrev Text := Bytes

def text (s : String) : Text := s.toUTF8.toList

def hexDigit (n : Nat) : UInt8 := UInt8.ofNat (if n < 10 then 48 + n else 87 + n)

/-- Two lower-case hexadecimal digits a byte. -/
def hex : Bytes → Text
  | [] => []
  | b :: bs => hexDigit (b.toNat / 16) :: hexDigit (b.toNat % 16) :: hex bs

private theorem hexDigit_inj : ∀ m < 16, ∀ n < 16, hexDigit m = hexDigit n → m = n := by decide

theorem hex_injective : Function.Injective hex := by
  intro a
  induction a with
  | nil =>
    intro b h
    cases b with
    | nil => rfl
    | cons y ys => cases h
  | cons x xs ih =>
    intro b h
    cases b with
    | nil => cases h
    | cons y ys =>
      simp only [hex, List.cons.injEq] at h
      obtain ⟨hhigh, hlow, hrest⟩ := h
      have hdiv := hexDigit_inj _ (by have := x.toNat_lt; omega) _ (by have := y.toNat_lt; omega) hhigh
      have hmod := hexDigit_inj _ (by omega) _ (by omega) hlow
      have hxy : x = y := UInt8.toNat_inj.mp (by omega)
      rw [hxy, ih hrest]

def decimal (n : Nat) : Text :=
  if n = 0 then [48] else (Nat.digits 10 n).reverse.map (fun d => UInt8.ofNat (48 + d))

theorem decimal_zero : decimal 0 = [48] := rfl

theorem decimal_pos {n : Nat} (hn : n ≠ 0) :
    decimal n = (Nat.digits 10 n).reverse.map (fun d => UInt8.ofNat (48 + d)) := if_neg hn

private theorem toNat_ofNat_digit {d : Nat} (hd : d < 10) : (UInt8.ofNat (48 + d)).toNat = 48 + d := by
  rw [UInt8.toNat_ofNat']
  omega

/-- A numeral has digits only. -/
theorem digit_of_mem_decimal {n : Nat} {b : UInt8} (hb : b ∈ decimal n) : 48 ≤ b.toNat ∧ b.toNat < 58 := by
  by_cases hn : n = 0
  · subst hn
    rw [decimal_zero, List.mem_singleton] at hb
    subst hb
    decide
  · rw [decimal_pos hn, List.mem_map] at hb
    obtain ⟨d, hd, rfl⟩ := hb
    have hlt := Nat.digits_lt_base (by omega) (List.mem_reverse.mp hd)
    rw [toNat_ofNat_digit hlt]
    omega

/-- The number a numeral stands for. -/
def ofDecimal (t : Text) : Nat := Nat.ofDigits 10 (t.reverse.map (fun b => b.toNat - 48))

theorem ofDecimal_decimal (n : Nat) : ofDecimal (decimal n) = n := by
  by_cases hn : n = 0
  · subst hn
    rfl
  · have hdigits : (Nat.digits 10 n).map ((fun b : UInt8 => b.toNat - 48) ∘ fun d => UInt8.ofNat (48 + d)) =
        (Nat.digits 10 n).map id := by
      apply List.map_congr_left
      intro d hd
      have hlt := Nat.digits_lt_base (by omega) hd
      simp only [Function.comp_apply, toNat_ofNat_digit hlt, id]
      omega
    rw [ofDecimal, decimal_pos hn, ← List.map_reverse, List.reverse_reverse, List.map_map, hdigits, List.map_id]
    exact Nat.ofDigits_digits 10 n

theorem decimal_injective : Function.Injective decimal :=
  Function.LeftInverse.injective ofDecimal_decimal

/-- A numeral with a minus sign where it is due. -/
def signedDecimal (n : Int) : Text := if n < 0 then 45 :: decimal n.natAbs else decimal n.natAbs

end Terpz.Lib
