import Terpz.Lib.BigEndian

/-! Protobuf fields: numbers in base 128 and delimited bytes. A field that is zero or empty is left out. -/
namespace Terpz.Lib.Protobuf
variable {tag : UInt8}

/-- Seven bits a byte from the lowest on; the top bit says that more follow. -/
def varintFrom : Nat → Nat → Bytes
  | 0, _ => []
  | fuel + 1, v => if v < 128 then [UInt8.ofNat v] else UInt8.ofNat (128 + v % 128) :: varintFrom fuel (v / 128)

def varint (v : Nat) : Bytes := varintFrom (v + 1) v

def readVarint : Bytes → Option (Nat × Bytes)
  | [] => none
  | b :: bs => if b.toNat < 128 then some (b.toNat, bs)
    else (readVarint bs).map (fun r => (b.toNat - 128 + 128 * r.1, r.2))

theorem readVarint_varint (v : Nat) (rest : Bytes) : readVarint (varint v ++ rest) = some (v, rest) := by
  have hfuel : ∀ fuel v, v < fuel → readVarint (varintFrom fuel v ++ rest) = some (v, rest) := by
    intro fuel
    induction fuel with
    | zero => intro v hv; omega
    | succ fuel ih =>
      intro v hv
      rw [varintFrom]
      split
      · next hlt => simp [readVarint, Nat.mod_eq_of_lt (show v < 256 by omega), hlt]
      · have hbyte : (UInt8.ofNat (128 + v % 128)).toNat = 128 + v % 128 := by
          rw [UInt8.toNat_ofNat']
          omega
        rw [List.cons_append, readVarint, hbyte, if_neg (by omega), ih (v / 128) (by omega)]
        exact congrArg some (Prod.ext (by simp only; omega) rfl)
  exact hfuel (v + 1) v (Nat.lt_succ_self v)

def numberField (tag : UInt8) (v : Nat) : Bytes := if v = 0 then [] else tag :: varint v

def bytesField (tag : UInt8) (bs : Bytes) : Bytes := if bs = [] then [] else tag :: (varint bs.length ++ bs)

/-- The value behind the tag, or nothing where the input has another one. -/
def readField {α : Type} (tag : UInt8) (absent : α) (read : Bytes → Option (α × Bytes)) (bz : Bytes) :
    Option (α × Bytes) :=
  if bz.head? = some tag then read bz.tail else some (absent, bz)

def readNumber (tag : UInt8) : Bytes → Option (Nat × Bytes) := readField tag 0 readVarint

def readBytes (tag : UInt8) : Bytes → Option (Bytes × Bytes) :=
  readField tag [] (fun bz => (readVarint bz).map (fun r => (r.2.take r.1, r.2.drop r.1)))

theorem readNumber_numberField (v : Nat) (rest : Bytes) (h : rest.head? ≠ some tag) :
    readNumber tag (numberField tag v ++ rest) = some (v, rest) := by
  unfold readNumber readField numberField
  split
  · next hzero => rw [List.nil_append, if_neg h, hzero]
  · exact (if_pos rfl).trans (readVarint_varint v rest)

theorem readBytes_bytesField (bs rest : Bytes) (h : rest.head? ≠ some tag) :
    readBytes tag (bytesField tag bs ++ rest) = some (bs, rest) := by
  unfold readBytes readField bytesField
  split
  · next hempty => rw [List.nil_append, if_neg h, hempty]
  · refine (if_pos rfl).trans ?_
    rw [List.cons_append, List.tail_cons, List.append_assoc]
    simp only [readVarint_varint, Option.map_some, List.take_left, List.drop_left]

theorem head?_bytesField_ne {other : UInt8} (bs rest : Bytes) (hne : other ≠ tag) (h : rest.head? ≠ some tag) :
    (bytesField other bs ++ rest).head? ≠ some tag := by
  unfold bytesField
  split
  · exact h
  · simpa using hne

end Terpz.Lib.Protobuf
