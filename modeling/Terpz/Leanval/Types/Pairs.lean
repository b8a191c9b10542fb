import Terpz.Lib.Checks
import Terpz.Leanval.Types.Keys

/-! The kv.Pairs protobuf wire of a subspace query. Slice ends are signed 64-bit integers,
so a declared length of 2^63 or more wraps below the start of its slice. -/
namespace Terpz.Leanval
open Lib Lib.BigEndian

/-- An error that is returned, or a slice out of range, which panics. -/
inductive DecodeFail where
  | error (msg : String)
  | outOfRange
  deriving DecidableEq, Repr

structure KV where
  key : Bytes
  value : Bytes
  deriving DecidableEq, Repr

/-- The varint loop at byte `i`, with the value read so far. -/
def consumeVarintLoop : UInt64 → Nat → Bytes → UInt64 × Nat
  | _, _, [] => (0, 0)
  | x, i, c :: b =>
    if c < 0x80 then (x ||| UInt64.ofNat (c.toNat <<< (7 * i)), i + 1)
    else if i > 9 then (0, 0)
    else consumeVarintLoop (x ||| UInt64.ofNat ((c &&& 0x7f).toNat <<< (7 * i))) (i + 1) b

/-- The value and how many bytes it took; zero bytes is a failure. -/
def consumeVarintBytes (b : Bytes) : UInt64 × Nat := consumeVarintLoop 0 0 b

/-- `bz[i:i+int(ln)]` behind the check that it does not run past the end. -/
def sliceField (bz : Bytes) (i : Nat) (ln : UInt64) (msg : String) : Except DecodeFail Bytes :=
  let stop := Int64.ofNat i + ln.toInt64
  if stop > Int64.ofNat bz.length then .error (.error msg)
  else if stop < Int64.ofNat i then .error .outOfRange
  else .ok ((bz.drop i).take ln.toNat)

/-- A turn of either loop takes at least two bytes, so the length is fuel enough. -/
def decodePairLoop (bz : Bytes) : Nat → Nat → KV → Except DecodeFail KV
  | 0, _, p => .ok p
  | fuel + 1, i, p =>
    if bz.length ≤ i then .ok p
    else do
      let (tag, n) := consumeVarintBytes (bz.drop i)
      failIf (n = 0) (.error "bad pair tag")
      let i := i + n
      failIf (tag &&& 7 ≠ 2) (.error ("pair field " ++ toString (tag >>> 3) ++ " not bytes"))
      let (ln, n) := consumeVarintBytes (bz.drop i)
      failIf (n = 0) (.error "pair field overflow")
      let val ← sliceField bz (i + n) ln "pair field overflow"
      let p := if tag >>> 3 = 1 then { p with key := val } else if tag >>> 3 = 2 then { p with value := val } else p
      decodePairLoop bz fuel (i + n + ln.toNat) p

def decodePair (bz : Bytes) : Except DecodeFail KV := decodePairLoop bz bz.length 0 ⟨[], []⟩

def decodeKVPairsLoop (bz : Bytes) : Nat → Nat → Except DecodeFail (List KV)
  | 0, _ => .ok []
  | fuel + 1, i =>
    if bz.length ≤ i then .ok []
    else do
      let (tag, n) := consumeVarintBytes (bz.drop i)
      failIf (n = 0) (.error ("bad tag at " ++ toString i))
      let i := i + n
      failIf (tag >>> 3 ≠ 1 ∨ tag &&& 7 ≠ 2) (.error ("expected pairs field 1 length-delimited, got fn=" ++
        toString (tag >>> 3) ++ " wt=" ++ toString (tag &&& 7)))
      let (ln, n) := consumeVarintBytes (bz.drop i)
      failIf (n = 0) (.error "bad pair len")
      let inner ← sliceField bz (i + n) ln "pair overflow"
      let p ← decodePair inner
      let rest ← decodeKVPairsLoop bz fuel (i + n + ln.toNat)
      pure (p :: rest)

def decodeKVPairs (bz : Bytes) : Except DecodeFail (List KV) := decodeKVPairsLoop bz bz.length 0

def decodeSubspacePairs (bz : Bytes) : Except DecodeFail (List KV) := decodeKVPairs bz

structure BondedSetRow where
  subject : Bytes
  weight : Int64
  hasProof : Bool
  deriving DecidableEq, Repr

/-- A row with a short value, or without an accepted proof, carries no weight. -/
def bondedSetRow (pref : Bytes) (p : KV) : Option BondedSetRow :=
  if p.key.length < pref.length then none
  else
    let hasProof := decide (p.value.length ≥ 9) && p.value.headD 0 == 1
    some ⟨p.key.drop pref.length, if hasProof then getI64 ((p.value.drop 1).take 8) else 0, hasProof⟩

def decodeBondedSubspace (period : UInt64) (bz : Bytes) : Except DecodeFail (List BondedSetRow) :=
  if bz.length = 0 then .ok []
  else
    match decodeKVPairs bz with
    | .error (.error e) => .error (.error ("leanval subspace: " ++ e))
    | .error .outOfRange => .error .outOfRange
    | .ok pairs => .ok (pairs.filterMap (bondedSetRow (bondedPrefixForPeriod period)))

def uvarint : Nat → Nat → Bytes
  | 0, x => [UInt8.ofNat x]
  | n + 1, x => if x < 0x80 then [UInt8.ofNat x] else (UInt8.ofNat x ||| 0x80) :: uvarint n (x >>> 7)

/-- Ten bytes hold any 64-bit word. -/
def appendUvarint (b : Bytes) (x : UInt64) : Bytes := b ++ uvarint 9 x.toNat

def protoBytes (fn : UInt64) (v : Bytes) : Bytes :=
  appendUvarint (appendUvarint [] (fn <<< 3 ||| 2)) (UInt64.ofNat v.length) ++ v

def encodeKVPairs (pairs : List KV) : Bytes :=
  pairs.flatMap (fun p => protoBytes 1 (protoBytes 1 p.key ++ protoBytes 2 p.value))

section Varint

private theorem low_seven (v : Nat) : ((UInt8.ofNat v ||| 0x80) &&& 0x7f).toNat = v % 128 := by
  have hmask : ∀ b : Nat, b &&& 127 = b % 2 ^ 7 := fun b => Nat.and_two_pow_sub_one_eq_mod b 7
  rw [UInt8.toNat_and, UInt8.toNat_or, UInt8.toNat_ofNat']
  change ((v % 2 ^ 8) ||| 128) &&& 127 = v % 128
  rw [hmask, Nat.or_mod_two_pow]
  simp only [Nat.reducePow, Nat.reduceMod, Nat.or_zero]
  omega

private theorem high_bit (v : Nat) : ¬ (UInt8.ofNat v ||| 0x80) < 0x80 := by
  rw [UInt8.lt_iff_toNat_lt, UInt8.toNat_or, Nat.not_lt]
  exact Nat.right_le_or

private theorem byte_of_lt {v : Nat} (h : v < 0x80) : UInt8.ofNat v < 0x80 ∧ (UInt8.ofNat v).toNat = v := by
  have hn : (UInt8.ofNat v).toNat = v := by
    rw [UInt8.toNat_ofNat']
    omega
  exact ⟨by rw [UInt8.lt_iff_toNat_lt, hn]; exact h, hn⟩

/-- The low seven bits at their place beside the rest of the word. -/
private theorem join_seven (v i : Nat) : (v % 128) <<< (7 * i) ||| v >>> 7 <<< (7 * (i + 1)) = v <<< (7 * i) := by
  have hsplit : v >>> 7 <<< 7 ||| v % 128 = v := by
    rw [Nat.shiftRight_eq_div_pow, Nat.shiftLeft_eq, Nat.mul_comm,
      ← Nat.two_pow_add_eq_or_of_lt (Nat.mod_lt v (by decide))]
    exact Nat.div_add_mod v (2 ^ 7)
  rw [show 7 * (i + 1) = 7 + 7 * i by ring, Nat.shiftLeft_add, Nat.or_comm, ← Nat.shiftLeft_or_distrib, hsplit]

theorem consumeVarintLoop_uvarint (n v i : Nat) (x : UInt64) (rest : Bytes) (hv : v < 2 ^ (7 * (n + 1)))
    (hi : i + n ≤ 10) : consumeVarintLoop x i (uvarint n v ++ rest) =
      (x ||| UInt64.ofNat (v <<< (7 * i)), i + (uvarint n v).length) := by
  induction n generalizing v i x with
  | zero =>
    obtain ⟨hlt, hn⟩ := byte_of_lt (v := v) (by simpa using hv)
    simp [uvarint, consumeVarintLoop, hlt, hn]
  | succ n ih =>
    unfold uvarint
    by_cases hs : v < 0x80
    · obtain ⟨hlt, hn⟩ := byte_of_lt hs
      simp [if_pos hs, consumeVarintLoop, hlt, hn]
    · have hq : v >>> 7 < 2 ^ (7 * (n + 1)) := by
        rw [Nat.shiftRight_eq_div_pow]
        rw [show 7 * (n + 1 + 1) = 7 * (n + 1) + 7 by ring, Nat.pow_add] at hv
        exact Nat.div_lt_of_lt_mul (by rwa [Nat.mul_comm])
      rw [if_neg hs, List.cons_append, consumeVarintLoop, if_neg (high_bit v), if_neg (by omega),
        ih (v >>> 7) (i + 1) _ hq (by omega), low_seven, UInt64.or_assoc, ← UInt64.ofNat_or, join_seven]
      simp only [List.length_cons, Prod.mk.injEq, true_and]
      omega

theorem consumeVarintBytes_word (x : UInt64) (rest : Bytes) :
    consumeVarintBytes (uvarint 9 x.toNat ++ rest) = (x, (uvarint 9 x.toNat).length) := by
  have hx : x.toNat < 2 ^ (7 * (9 + 1)) := x.toNat_lt.trans (by decide)
  rw [consumeVarintBytes, consumeVarintLoop_uvarint 9 _ 0 0 rest hx (by decide)]
  simp

private theorem uvarint_length_pos (n x : Nat) : 0 < (uvarint n x).length := by
  cases n with
  | zero => exact Nat.one_pos
  | succ n =>
    unfold uvarint
    split <;> simp

end Varint

section RoundTrip
variable {bz v rest : Bytes} {i : Nat}

private theorem slice_end {i n : Nat} (h : i + n < 2 ^ 63) :
    (Int64.ofNat i + (UInt64.ofNat n).toInt64).toInt = i + n := by
  rw [UInt64.toInt64_ofNat', ← Int64.ofNat_add, Int64.toInt_ofNat_of_lt h, Int.natCast_add]

/-- Inside a buffer shorter than 2^63 bytes an honest length is sliced exactly. -/
theorem sliceField_eq (msg : String) (hlen : bz.length < 2 ^ 63) (hi : i ≤ bz.length) (h : bz.drop i = v ++ rest) :
    sliceField bz i (UInt64.ofNat v.length) msg = .ok v := by
  have hl : bz.length = i + v.length + rest.length := by
    have := congrArg List.length h
    rw [List.length_drop, List.length_append] at this
    omega
  have hstop := slice_end (i := i) (n := v.length) (by omega)
  have hn : (UInt64.ofNat v.length).toNat = v.length := by
    rw [UInt64.toNat_ofNat']
    omega
  have hint : ∀ m : Nat, m < 2 ^ 63 → (Int64.ofNat m).toInt = m := fun m hm => Int64.toInt_ofNat_of_lt hm
  unfold sliceField
  simp only [gt_iff_lt, Int64.lt_iff_toInt_lt, hstop, hint i (by omega), hint bz.length hlen]
  rw [if_neg (by omega), if_neg (by omega), hn, h, List.take_left]

/-- Reading a length-delimited field: its tag, its length, its bytes, and what follows. -/
private theorem field_read (fn : UInt64) (msg : String) (hfn : (fn <<< 3 ||| 2).toNat < 0x80)
    (hlen : bz.length < 2 ^ 63)
    (h : bz.drop i = protoBytes fn v ++ rest) :
    ∃ k, k ≠ 0 ∧ ¬ bz.length ≤ i ∧ consumeVarintBytes (bz.drop i) = (fn <<< 3 ||| 2, 1) ∧
      consumeVarintBytes (bz.drop (i + 1)) = (UInt64.ofNat v.length, k) ∧
      sliceField bz (i + 1 + k) (UInt64.ofNat v.length) msg = .ok v ∧
      bz.drop (i + 1 + k + (UInt64.ofNat v.length).toNat) = rest := by
  have htag : uvarint 9 (fn <<< 3 ||| 2).toNat = [UInt8.ofNat (fn <<< 3 ||| 2).toNat] := by
    rw [uvarint, if_pos hfn]
  have h0 : bz.drop i =
      uvarint 9 (fn <<< 3 ||| 2).toNat ++ (uvarint 9 (UInt64.ofNat v.length).toNat ++ (v ++ rest)) := by
    simpa [protoBytes, appendUvarint] using h
  have h1 : bz.drop (i + 1) = uvarint 9 (UInt64.ofNat v.length).toNat ++ (v ++ rest) := by
    rw [← List.drop_drop, h0, htag]
    rfl
  have h2 : bz.drop (i + 1 + (uvarint 9 (UInt64.ofNat v.length).toNat).length) = v ++ rest := by
    rw [← List.drop_drop, h1, List.drop_left]
  have hl : bz.length = i + 1 + (uvarint 9 (UInt64.ofNat v.length).toNat).length + v.length + rest.length := by
    have := congrArg List.length h0
    rw [htag] at this
    simp only [List.length_drop, List.length_append, List.length_singleton] at this
    omega
  have hn : (UInt64.ofNat v.length).toNat = v.length := by
    rw [UInt64.toNat_ofNat']
    omega
  refine ⟨_, (uvarint_length_pos 9 _).ne', by omega, ?_, by rw [h1, consumeVarintBytes_word],
    sliceField_eq msg hlen (by omega) h2, ?_⟩
  · rw [h0, consumeVarintBytes_word, htag]
    rfl
  · rw [← List.drop_drop, h2, hn, List.drop_left]

private theorem protoBytes_length (fn : UInt64) (v : Bytes) : v.length < (protoBytes fn v).length := by
  have := uvarint_length_pos 9 (UInt64.ofNat v.length).toNat
  simp only [protoBytes, appendUvarint, List.length_append]
  omega

theorem decodePairLoop_done (fuel : Nat) (p : KV) (h : bz.drop i = []) :
    decodePairLoop bz fuel i p = .ok p := by
  cases fuel with
  | zero => rfl
  | succ fuel => rw [decodePairLoop, if_pos (List.drop_eq_nil_iff.mp h)]

/-- The buffer of one pair decodes to it. -/
theorem decodePair_encode (p : KV) (hlen : (protoBytes 1 p.key ++ protoBytes 2 p.value).length < 2 ^ 63) :
    decodePair (protoBytes 1 p.key ++ protoBytes 2 p.value) = .ok p := by
  generalize hbz : protoBytes 1 p.key ++ protoBytes 2 p.value = bz at hlen ⊢
  obtain ⟨k, hk, hi, htag, hln, hval, hrest⟩ :=
    field_read (i := 0) 1 "pair field overflow" (by decide) hlen (by rw [← hbz]; rfl)
  obtain ⟨k', hk', hi', htag', hln', hval', hrest'⟩ :=
    field_read 2 "pair field overflow" (by decide) hlen (hrest.trans (List.append_nil _).symm)
  obtain ⟨fuel, hfuel⟩ : ∃ fuel, bz.length = fuel + 2 := by
    have h1 := protoBytes_length 1 p.key
    have h2 := protoBytes_length 2 p.value
    rw [← hbz, List.length_append]
    exact ⟨_, (Nat.sub_add_cancel (by omega)).symm⟩
  rw [decodePair, hfuel, decodePairLoop, if_neg hi]
  simp only [htag, hln, failIf_bind_eq_ok]
  refine ⟨by decide, by decide, hk, bind_eq_ok.mpr ⟨_, hval, ?_⟩⟩
  rw [decodePairLoop, if_neg hi']
  simp only [htag', hln', failIf_bind_eq_ok]
  refine ⟨by decide, by decide, hk', bind_eq_ok.mpr ⟨_, hval', ?_⟩⟩
  exact decodePairLoop_done fuel _ hrest'

private theorem decodeKVPairsLoop_encode (pairs : List KV) (fuel : Nat) (hlen : bz.length < 2 ^ 63)
    (h : bz.drop i = encodeKVPairs pairs) (hf : pairs.length ≤ fuel) : decodeKVPairsLoop bz fuel i = .ok pairs := by
  induction pairs generalizing i fuel with
  | nil =>
    cases fuel with
    | zero => rfl
    | succ fuel => rw [decodeKVPairsLoop, if_pos (List.drop_eq_nil_iff.mp h)]
  | cons p pairs ih =>
    obtain ⟨fuel, rfl⟩ : ∃ n, fuel = n + 1 := ⟨fuel - 1, by rw [List.length_cons] at hf; omega⟩
    rw [encodeKVPairs, List.flatMap_cons] at h
    obtain ⟨k, hk, hi, htag, hln, hval, hrest⟩ := field_read 1 "pair overflow" (by decide) hlen h
    have hinner : (protoBytes 1 p.key ++ protoBytes 2 p.value).length < 2 ^ 63 := by
      have h1 := protoBytes_length 1 (protoBytes 1 p.key ++ protoBytes 2 p.value)
      have h2 := congrArg List.length h
      rw [List.length_drop, List.length_append] at h2
      omega
    rw [decodeKVPairsLoop, if_neg hi]
    simp only [htag, hln, failIf_bind_eq_ok]
    refine ⟨by decide, by decide, hk, bind_eq_ok.mpr ⟨_, hval, bind_eq_ok.mpr ⟨p, decodePair_encode p hinner, ?_⟩⟩⟩
    exact bind_eq_ok.mpr ⟨pairs, ih fuel hrest (Nat.le_of_succ_le_succ hf), rfl⟩

private theorem length_le_encodeKVPairs (pairs : List KV) : pairs.length ≤ (encodeKVPairs pairs).length := by
  induction pairs with
  | nil => exact Nat.zero_le _
  | cons p pairs ih =>
    have h1 := protoBytes_length 1 (protoBytes 1 p.key ++ protoBytes 2 p.value)
    rw [encodeKVPairs, List.flatMap_cons, List.length_append, List.length_cons]
    change pairs.length + 1 ≤ _ + (encodeKVPairs pairs).length
    omega

/-- The pairs of a query answer are read back unchanged. -/
theorem decodeSubspacePairs_encode (pairs : List KV) (hlen : (encodeKVPairs pairs).length < 2 ^ 63) :
    decodeSubspacePairs (encodeKVPairs pairs) = .ok pairs :=
  decodeKVPairsLoop_encode pairs _ hlen rfl (length_le_encodeKVPairs pairs)

theorem decodeBondedSubspace_encode (period : UInt64) (pairs : List KV) (hlen : (encodeKVPairs pairs).length < 2 ^ 63) :
    decodeBondedSubspace period (encodeKVPairs pairs) =
      .ok (pairs.filterMap (bondedSetRow (bondedPrefixForPeriod period))) := by
  have hdec : decodeKVPairs (encodeKVPairs pairs) = .ok pairs := decodeSubspacePairs_encode pairs hlen
  unfold decodeBondedSubspace
  split
  · rename_i h0
    have hle := length_le_encodeKVPairs pairs
    rw [h0, Nat.le_zero, List.length_eq_zero_iff] at hle
    rw [hle, List.filterMap_nil]
  · rw [hdec]

end RoundTrip
end Terpz.Leanval
