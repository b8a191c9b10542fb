import Terpz.Lib.Text

/-! Bech32 texts. Reading is by search among addresses that are known. -/
namespace Terpz.Lib.Bech32
open BigEndian

def charset : Text := text "qpzry9x8gf2tvdw0s3jn54khce6mua7l"

def polymodStep (chk value : Nat) : Nat :=
  [0x3b6a57b2, 0x26508e6d, 0x1ea119fa, 0x3d4233dd, 0x2a1462b3].zipIdx.foldl
    (fun acc e => if (chk >>> 25).testBit e.2 then acc ^^^ e.1 else acc) ((chk % 2 ^ 25) <<< 5 ^^^ value)

/-- The lowest `n` groups of five bits, the highest first. -/
def groups (n v : Nat) : List Nat := (List.range n).reverse.map (fun i => v >>> (5 * i) % 32)

/-- The bits of the address are filled up with zeros, and six groups of a checksum follow. -/
def encode (hrp : Text) (a : Bytes) : Text :=
  let n := (8 * a.length + 4) / 5
  let data := groups n (beNat a <<< (5 * n - 8 * a.length))
  let head := hrp.map (·.toNat / 32) ++ 0 :: hrp.map (·.toNat % 32)
  let check := groups 6 ((head ++ data ++ List.replicate 6 0).foldl polymodStep 1 ^^^ 1)
  hrp ++ 49 :: (data ++ check).map (charset.getD · 0)

private theorem groups_inj {n v w : Nat} (h : groups n v = groups n w) : v % 32 ^ n = w % 32 ^ n := by
  induction n with
  | zero => simp [Nat.mod_one]
  | succ n ih =>
    have hpow : 2 ^ (5 * n) = 32 ^ n := Nat.pow_mul 2 5 n
    simp only [groups, List.range_succ, List.reverse_append, List.reverse_singleton, List.singleton_append,
      List.map_cons, List.cons.injEq, Nat.shiftRight_eq_div_pow, hpow] at h
    rw [Nat.pow_succ, Nat.mod_mul, Nat.mod_mul, h.1, ih (by simpa only [groups, Nat.shiftRight_eq_div_pow] using h.2)]

private theorem value_char : ∀ x < 32, charset.idxOf (charset.getD x 0) = x := by decide +kernel

theorem encode_injective (hrp : Text) : Function.Injective (encode hrp) := by
  intro a b h
  simp only [encode, List.append_cancel_left_eq, List.cons.injEq, true_and, List.map_append] at h
  have hlen : a.length = b.length := by
    have hsum := congrArg List.length h
    simp [groups] at hsum
    omega
  rw [hlen] at h
  have hvalues := congrArg (List.map charset.idxOf) (List.append_inj_left h (by simp [groups]))
  have hid (n v : Nat) : ((groups n v).map (charset.getD · 0)).map charset.idxOf = groups n v := by
    have hchars : ∀ x ∈ groups n v, charset.idxOf (charset.getD x 0) = x := by
      intro x hx
      obtain ⟨i, -, rfl⟩ := List.mem_map.mp hx
      exact value_char _ (Nat.mod_lt _ (by decide))
    rw [List.map_map]
    exact (List.map_congr_left hchars).trans (List.map_id _)
  rw [hid, hid] at hvalues
  have hmod := groups_inj hvalues
  generalize hn : (8 * b.length + 4) / 5 = n at hmod
  have hbits : 32 ^ n = 256 ^ b.length * 2 ^ (5 * n - 8 * b.length) := by
    rw [show (32 : Nat) = 2 ^ 5 from rfl, show (256 : Nat) = 2 ^ 8 from rfl, ← Nat.pow_mul, ← Nat.pow_mul,
      ← Nat.pow_add]
    congr 1
    omega
  have hfits (c : Bytes) (hc : c.length = b.length) : beNat c * 2 ^ (5 * n - 8 * b.length) < 32 ^ n := by
    rw [hbits]
    exact Nat.mul_lt_mul_of_pos_right (hc ▸ beNat_lt c) (Nat.two_pow_pos _)
  rw [Nat.shiftLeft_eq, Nat.shiftLeft_eq, Nat.mod_eq_of_lt (hfits a hlen), Nat.mod_eq_of_lt (hfits b rfl)] at hmod
  rw [← beBytes_beNat a, ← beBytes_beNat b, hlen, Nat.eq_of_mul_eq_mul_right (Nat.two_pow_pos _) hmod]

def upper (t : Text) : Text := t.map (fun b => if 97 ≤ b ∧ b ≤ 122 then b - 32 else b)

/-- Upper case is read as well. -/
def parse {ε : Type} (hrp : Text) (known : List Bytes) (err : ε) (t : Text) : Except ε Bytes :=
  match known.find? (fun a => encode hrp a = t ∨ upper (encode hrp a) = t) with
  | some a => .ok a
  | none => .error err

theorem parse_eq_ok {ε : Type} {hrp : Text} {known : List Bytes} {err : ε} {t : Text} {a : Bytes}
    (h : parse hrp known err t = .ok a) : a ∈ known ∧ (encode hrp a = t ∨ upper (encode hrp a) = t) := by
  unfold parse at h
  split at h
  · next hfind =>
    cases h
    exact ⟨List.mem_of_find?_eq_some hfind, by simpa using List.find?_some hfind⟩
  · cases h

end Terpz.Lib.Bech32
