import Terpz.Lib.Text

/-! Base64 with padding: four characters for three bytes. Line breaks are passed over in reading. -/
namespace Terpz.Lib.Base64

/-- The characters A-Z, a-z, 0-9, + and /. -/
def digit64 (n : Nat) : UInt8 :=
  UInt8.ofNat (if n < 26 then 65 + n else if n < 52 then 71 + n else if n < 62 then n - 4
    else if n = 62 then 43 else 47)

def value64 (c : UInt8) : Option Nat :=
  let n := c.toNat
  if 65 ≤ n ∧ n ≤ 90 then some (n - 65)
  else if 97 ≤ n ∧ n ≤ 122 then some (n - 71)
  else if 48 ≤ n ∧ n ≤ 57 then some (n + 4)
  else if n = 43 then some 62
  else if n = 47 then some 63
  else none

/-- The padding character. -/
def pad : UInt8 := 61

def encode : Bytes → Text
  | [] => []
  | [x] => [digit64 (x.toNat / 4), digit64 (x.toNat % 4 * 16), pad, pad]
  | [x, y] =>
    [digit64 (x.toNat / 4), digit64 (x.toNat % 4 * 16 + y.toNat / 16), digit64 (y.toNat % 16 * 4), pad]
  | x :: y :: z :: rest =>
    digit64 (x.toNat / 4) :: digit64 (x.toNat % 4 * 16 + y.toNat / 16) :: digit64 (y.toNat % 16 * 4 + z.toNat / 64) ::
      digit64 (z.toNat % 64) :: encode rest

/-- Quanta of four characters; the bits that padding leaves over are not looked at. -/
def decodeQuanta : Text → Option Bytes
  | [] => some []
  | a :: b :: c :: d :: rest =>
    match value64 a, value64 b with
    | some u, some v =>
      let x := UInt8.ofNat (u * 4 + v / 16)
      if c = pad then (if d = pad ∧ rest = [] then some [x] else none)
      else
        match value64 c with
        | none => none
        | some w =>
          let y := UInt8.ofNat (v % 16 * 16 + w / 4)
          if d = pad then (if rest = [] then some [x, y] else none)
          else
            match value64 d with
            | none => none
            | some t => (decodeQuanta rest).map (x :: y :: UInt8.ofNat (w % 4 * 64 + t) :: ·)
    | _, _ => none
  | _ => none

def decode (t : Text) : Option Bytes := decodeQuanta (t.filter (fun c => c != 10 && c != 13))

private theorem value64_digit64 : ∀ n < 64, value64 (digit64 n) = some n := by decide

private theorem digit64_plain : ∀ n < 64, digit64 n ≠ pad ∧ digit64 n ≠ 10 ∧ digit64 n ≠ 13 := by decide

private theorem ofNat_toNat_eq {n : Nat} {x : UInt8} (h : n = x.toNat) : UInt8.ofNat n = x := by
  rw [h, UInt8.ofNat_toNat]

theorem encode_length (b : Bytes) : (encode b).length = 4 * ((b.length + 2) / 3) := by
  induction b using encode.induct with
  | case1 => rfl
  | case2 x => simp [encode]
  | case3 x y => simp [encode]
  | case4 x y z rest ih =>
    simp only [encode, List.length_cons, ih]
    omega

/-- No character of the encoding is a line break. -/
private theorem encode_filter (b : Bytes) : (encode b).filter (fun c => c != 10 && c != 13) = encode b := by
  refine List.filter_eq_self.mpr ?_
  have hdigit : ∀ n < 64, (digit64 n != 10 && digit64 n != 13) = true := by decide
  have hpad : (pad != 10 && pad != 13) = true := by decide
  induction b using encode.induct with
  | case1 => exact nofun
  | case2 x =>
    have hx := x.toNat_lt
    simp only [encode, List.forall_mem_cons]
    exact ⟨hdigit _ (by omega), hdigit _ (by omega), hpad, hpad, nofun⟩
  | case3 x y =>
    have hx := x.toNat_lt
    have hy := y.toNat_lt
    simp only [encode, List.forall_mem_cons]
    exact ⟨hdigit _ (by omega), hdigit _ (by omega), hdigit _ (by omega), hpad, nofun⟩
  | case4 x y z rest ih =>
    have hx := x.toNat_lt
    have hy := y.toNat_lt
    have hz := z.toNat_lt
    simp only [encode, List.forall_mem_cons]
    exact ⟨hdigit _ (by omega), hdigit _ (by omega), hdigit _ (by omega), hdigit _ (by omega), ih⟩

private theorem decodeQuanta_encode (b : Bytes) : decodeQuanta (encode b) = some b := by
  induction b using encode.induct with
  | case1 => rfl
  | case2 x =>
    have hx := x.toNat_lt
    simp only [encode, decodeQuanta, value64_digit64 _ (show x.toNat / 4 < 64 by omega),
      value64_digit64 _ (show x.toNat % 4 * 16 < 64 by omega), if_true, and_self]
    rw [ofNat_toNat_eq (x := x) (by omega)]
  | case3 x y =>
    have hx := x.toNat_lt
    have hy := y.toNat_lt
    have hc := digit64_plain (y.toNat % 16 * 4) (by omega)
    simp only [encode, decodeQuanta, value64_digit64 _ (show x.toNat / 4 < 64 by omega),
      value64_digit64 _ (show x.toNat % 4 * 16 + y.toNat / 16 < 64 by omega),
      value64_digit64 _ (show y.toNat % 16 * 4 < 64 by omega), if_neg hc.1, if_true]
    rw [ofNat_toNat_eq (x := x) (by omega), ofNat_toNat_eq (x := y) (by omega)]
  | case4 x y z rest ih =>
    have hx := x.toNat_lt
    have hy := y.toNat_lt
    have hz := z.toNat_lt
    have hc := digit64_plain (y.toNat % 16 * 4 + z.toNat / 64) (by omega)
    have hd := digit64_plain (z.toNat % 64) (by omega)
    simp only [encode, decodeQuanta, value64_digit64 _ (show x.toNat / 4 < 64 by omega),
      value64_digit64 _ (show x.toNat % 4 * 16 + y.toNat / 16 < 64 by omega),
      value64_digit64 _ (show y.toNat % 16 * 4 + z.toNat / 64 < 64 by omega),
      value64_digit64 _ (show z.toNat % 64 < 64 by omega), if_neg hc.1, if_neg hd.1, ih, Option.map_some]
    rw [ofNat_toNat_eq (x := x) (by omega), ofNat_toNat_eq (x := y) (by omega), ofNat_toNat_eq (x := z) (by omega)]

theorem decode_encode (b : Bytes) : decode (encode b) = some b := by
  rw [decode, encode_filter, decodeQuanta_encode]

theorem encode_eq_nil {b : Bytes} : encode b = [] ↔ b = [] := by
  rw [← List.length_eq_zero_iff, encode_length, ← List.length_eq_zero_iff]
  omega

example : encode [0x4d, 0x61] = text "TWE=" := by decide +kernel

end Terpz.Lib.Base64
