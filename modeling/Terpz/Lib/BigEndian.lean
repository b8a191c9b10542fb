import Mathlib.Data.List.Induction
import Mathlib.Data.UInt
import Mathlib.Tactic.Ring

/-! Fixed-width big-endian byte words, as every wire format and store key uses them. -/
namespace Terpz.Lib

abbrev Bytes := List UInt8

instance bytesLawfulBEq : LawfulBEq Bytes := inferInstance

namespace BigEndian

/-- The low `n` bytes of a number, most significant first. -/
def beBytes : Nat → Nat → Bytes
  | 0, _ => []
  | n + 1, v => beBytes n (v / 256) ++ [UInt8.ofNat v]

def beNat (bs : Bytes) : Nat := bs.foldl (fun acc b => acc * 256 + b.toNat) 0

@[simp] theorem beBytes_length (n v : Nat) : (beBytes n v).length = n := by
  induction n generalizing v with
  | zero => rfl
  | succ n ih => simp [beBytes, ih]

theorem beNat_append_singleton (bs : Bytes) (b : UInt8) :
    beNat (bs ++ [b]) = beNat bs * 256 + b.toNat := by
  simp [beNat]

/-- A byte shifted in from the right. -/
theorem beNat_append_singleton_or (bs : Bytes) (b : UInt8) : beNat (bs ++ [b]) = beNat bs <<< 8 ||| b.toNat := by
  rw [beNat_append_singleton, ← Nat.shiftLeft_add_eq_or_of_lt b.toNat_lt, Nat.shiftLeft_eq]

theorem beNat_pair (a b : UInt8) : beNat [a, b] = a.toNat <<< 8 ||| b.toNat := by
  simpa [beNat] using beNat_append_singleton_or [a] b

theorem beNat_quad (a b c d : UInt8) :
    beNat [a, b, c, d] = a.toNat <<< 24 ||| b.toNat <<< 16 ||| c.toNat <<< 8 ||| d.toNat := by
  rw [show [a, b, c, d] = [a, b] ++ [c] ++ [d] from rfl, beNat_append_singleton_or, beNat_append_singleton_or,
    beNat_pair]
  simp only [Nat.shiftLeft_or_distrib, ← Nat.shiftLeft_add]

/-- Writing keeps exactly the residue that fits the width. -/
theorem beNat_beBytes (n v : Nat) : beNat (beBytes n v) = v % 256 ^ n := by
  induction n generalizing v with
  | zero => simp [beBytes, beNat, Nat.mod_one]
  | succ n ih =>
    have hb : (UInt8.ofNat v).toNat = v % 256 := by simp
    rw [beBytes, beNat_append_singleton, ih, hb, Nat.pow_succ, Nat.mul_comm (256 ^ n) 256,
      Nat.mod_mul]
    omega

theorem beNat_lt (bs : Bytes) : beNat bs < 256 ^ bs.length := by
  induction bs using List.reverseRecOn with
  | nil => simp [beNat]
  | append_singleton bs b ih =>
    have hb : b.toNat < 256 := b.toNat_lt
    rw [beNat_append_singleton, List.length_append, List.length_singleton, Nat.pow_succ]
    omega

/-- Reading back and writing again reproduces the bytes of the same width. -/
theorem beBytes_beNat (bs : Bytes) : beBytes bs.length (beNat bs) = bs := by
  induction bs using List.reverseRecOn with
  | nil => rfl
  | append_singleton bs b ih =>
    have hb : b.toNat < 256 := b.toNat_lt
    have hq : (beNat bs * 256 + b.toNat) / 256 = beNat bs := by omega
    rw [beNat_append_singleton, List.length_append, List.length_singleton, beBytes, hq, ih]
    congr 2
    apply UInt8.toNat_inj.mp
    simp

theorem beBytes_beNat_of_length {n : Nat} {bs : Bytes} (h : bs.length = n) : beBytes n (beNat bs) = bs := by
  rw [← h, beBytes_beNat]

/-- Bytes above the width do not count. -/
theorem beBytes_mod (n v : Nat) : beBytes n (v % 256 ^ n) = beBytes n v := by
  rw [← beNat_beBytes]
  exact beBytes_beNat_of_length (beBytes_length n v)

/-- A word is the word of its upper bytes followed by the word of its lower bytes. -/
theorem beBytes_add (m n v : Nat) : beBytes (m + n) v = beBytes m (v / 256 ^ n) ++ beBytes n v := by
  induction n generalizing v with
  | zero => simp [beBytes]
  | succ n ih =>
    rw [← Nat.add_assoc, beBytes, ih, beBytes, List.append_assoc, Nat.div_div_eq_div_mul, Nat.pow_succ']

theorem beBytes_inj {n v w : Nat} (hv : v < 256 ^ n) (hw : w < 256 ^ n)
    (h : beBytes n v = beBytes n w) : v = w := by
  have he := congrArg beNat h
  rwa [beNat_beBytes, beNat_beBytes, Nat.mod_eq_of_lt hv, Nat.mod_eq_of_lt hw] at he

end BigEndian
end Terpz.Lib
