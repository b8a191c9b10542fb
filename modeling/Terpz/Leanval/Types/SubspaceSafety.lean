import Mathlib.Logic.Relation
import Terpz.Leanval.Types.Pairs

/-! What the subspace decoders do on any byte string. They come to a value or an error unless a length field they
reach ends at 2^63 or beyond: its end wraps in the signed arithmetic of the check, and the slice panics. -/
namespace Terpz.Leanval
open Lib

/-- The varint reader of the query response, which refuses words of more than 64 bits. -/
def consumeVarintFrom : UInt64 → Nat → Bytes → UInt64 × Nat
  | _, _, [] => (0, 0)
  | x, i, c :: b =>
    if c < 0x80 then
      if i > 9 ∨ i = 9 ∧ c > 1 then (0, 0) else (x ||| UInt64.ofNat (c.toNat <<< (7 * i)), i + 1)
    else consumeVarintFrom (x ||| UInt64.ofNat ((c &&& 0x7f).toNat <<< (7 * i))) (i + 1) b

def consumeVarint (b : Bytes) : UInt64 × Nat := consumeVarintFrom 0 0 b

structure QueryBondedSetResponse where
  rows : List BondedSetRow
  raw : Bytes
  deriving DecidableEq, Repr

/-- The response is one field of JSON bytes. A failed varint is read as an empty field. -/
def QueryBondedSetResponse.unmarshal (unmarshalRows : Bytes → Except String (List BondedSetRow))
    (m : QueryBondedSetResponse) (dAtA : Bytes) : Except DecodeFail QueryBondedSetResponse :=
  match dAtA with
  | [] => .ok m
  | c :: rest =>
    if c ≠ 0x0a then .error (.error "leanval query: expected bytes field")
    else do
      let (l, n) := consumeVarint rest
      let b ← sliceField dAtA (1 + n) l "unexpected EOF"
      match unmarshalRows b with
      | .error e => .error (.error e)
      | .ok rows => pure ⟨rows, b⟩

/-- A length-delimited field: its tag, where its bytes start, and their declared number. -/
structure Field where
  tag : UInt64
  start : Nat
  ln : UInt64
  deriving DecidableEq, Repr

namespace Field

def stop (f : Field) : Nat := f.start + f.ln.toNat

def body (f : Field) (bz : Bytes) : Bytes := (bz.drop f.start).take f.ln.toNat

def IsBytes (f : Field) : Prop := f.tag &&& 7 = 2

def IsPair (f : Field) : Prop := f.tag >>> 3 = 1 ∧ f.tag &&& 7 = 2

end Field

def fieldAt (bz : Bytes) (i : Nat) : Option Field :=
  let (tag, n) := consumeVarintBytes (bz.drop i)
  let (ln, m) := consumeVarintBytes (bz.drop (i + n))
  if n = 0 ∨ m = 0 then none else some ⟨tag, i + n + m, ln⟩

/-- From a field to the next, over fields that end inside the string. -/
def NextField (passes : Field → Prop) (bz : Bytes) (i j : Nat) : Prop :=
  ∃ f, fieldAt bz i = some f ∧ passes f ∧ f.stop ≤ bz.length ∧ j = f.stop

/-- Every field that is read, at `i` or reached from there, is good. -/
def EveryField (reads passes good : Field → Prop) (bz : Bytes) (i : Nat) : Prop :=
  ∀ j f, Relation.ReflTransGen (NextField passes bz) i j → fieldAt bz j = some f → reads f → good f

/-- The fields of a pair fill its bytes. -/
def PairFilled (bz : Bytes) : Prop := Relation.ReflTransGen (NextField Field.IsBytes bz) 0 bz.length

/-- No field of a pair ends at 2^63 or beyond. -/
def PairFits (bz : Bytes) : Prop := EveryField Field.IsBytes Field.IsBytes (fun f => f.stop < 2 ^ 63) bz 0

/-- No pair ends at 2^63 or beyond, nor does a field of a pair; what follows a malformed pair is not read. -/
def LengthsFit (bz : Bytes) : Prop :=
  EveryField Field.IsPair (fun f => f.IsPair ∧ PairFilled (f.body bz))
    (fun f => f.stop < 2 ^ 63 ∧ (f.stop ≤ bz.length → PairFits (f.body bz))) bz 0

/-- The length of the response does not end at 2^63 or beyond. -/
def ResponseLengthFits (bz : Bytes) : Prop :=
  bz.head? = some 0x0a → 1 + (consumeVarint bz.tail).2 + (consumeVarint bz.tail).1.toNat < 2 ^ 63

section Fields
variable {bz : Bytes} {i : Nat} {reads passes good : Field → Prop}

theorem everyField_iff : EveryField reads passes good bz i ↔
    (∀ f, fieldAt bz i = some f → reads f → good f) ∧
    ∀ f, fieldAt bz i = some f → passes f → f.stop ≤ bz.length → EveryField reads passes good bz f.stop := by
  constructor
  · intro h
    refine ⟨fun f hf hr => h i f .refl hf hr, fun f hf hp hstop j g hj hg hr => ?_⟩
    exact h j g (.head ⟨f, hf, hp, hstop, rfl⟩ hj) hg hr
  · rintro ⟨hhere, hnext⟩ j f hj hf hr
    rcases Relation.ReflTransGen.cases_head hj with rfl | ⟨k, ⟨g, hg, hp, hstop, rfl⟩, hk⟩
    · exact hhere f hf hr
    · exact hnext g hg hp hstop j f hk hf hr

private theorem consumeVarintLoop_bound (x : UInt64) (i : Nat) (b : Bytes) :
    (consumeVarintLoop x i b).2 = 0 ∨
      i < (consumeVarintLoop x i b).2 ∧ (consumeVarintLoop x i b).2 ≤ i + b.length := by
  induction b generalizing x i with
  | nil => exact .inl rfl
  | cons c b ih =>
    unfold consumeVarintLoop
    rw [List.length_cons]
    split
    · exact .inr ⟨Nat.lt_succ_self i, by omega⟩
    · split
      · exact .inl rfl
      · rcases ih (x ||| UInt64.ofNat ((c &&& 0x7f).toNat <<< (7 * i))) (i + 1) with h | h
        · exact .inl h
        · exact .inr (by omega)

theorem consumeVarintBytes_le (b : Bytes) : (consumeVarintBytes b).2 ≤ b.length := by
  rcases consumeVarintLoop_bound 0 0 b with h | h <;> unfold consumeVarintBytes <;> omega

theorem fieldAt_bounds {f : Field} (h : fieldAt bz i = some f) : i < f.start ∧ f.start ≤ bz.length := by
  have htag := consumeVarintBytes_le (bz.drop i)
  have hln := consumeVarintBytes_le (bz.drop (i + (consumeVarintBytes (bz.drop i)).2))
  rw [List.length_drop] at htag hln
  simp only [fieldAt] at h
  split at h
  · cases h
  · cases h
    simp only
    omega

/-- The slice behind the check, over the whole range of declared lengths. -/
theorem sliceField_spec (hlen : bz.length < 2 ^ 63) (hi : i ≤ bz.length) (ln : UInt64) (msg : String) :
    sliceField bz i ln msg =
      if 2 ^ 63 ≤ i + ln.toNat then .error .outOfRange
      else if bz.length < i + ln.toNat then .error (.error msg)
      else .ok ((bz.drop i).take ln.toNat) := by
  have hln := ln.toNat_lt
  have hstop : (Int64.ofNat i + ln.toInt64).toInt = ((i : Int) + (ln.toNat : Int).bmod (2 ^ 64)).bmod (2 ^ 64) := by
    have hword : ln.toInt64.toInt = (ln.toNat : Int).bmod (2 ^ 64) := BitVec.toInt_eq_toNat_bmod ln.toBitVec
    rw [Int64.toInt_add, hword, Int64.toInt_ofNat_of_lt (by omega)]
  have hint : ∀ m : Nat, m < 2 ^ 63 → (Int64.ofNat m).toInt = m := fun m hm => Int64.toInt_ofNat_of_lt hm
  unfold sliceField
  simp only [gt_iff_lt, Int64.lt_iff_toInt_lt, hstop, Int.add_bmod_bmod, hint i (by omega), hint bz.length hlen]
  by_cases hwrap : 2 ^ 63 ≤ i + ln.toNat
  · have hend : ((i : Int) + ln.toNat).bmod (2 ^ 64) = (i : Int) + ln.toNat - 2 ^ 64 := by
      rw [Int.bmod]
      split <;> omega
    rw [hend, if_pos hwrap, if_neg (by omega), if_pos (by omega)]
  · have hend : ((i : Int) + ln.toNat).bmod (2 ^ 64) = (i : Int) + ln.toNat := by
      rw [Int.bmod]
      split <;> omega
    rw [hend, if_neg hwrap]
    by_cases hlong : bz.length < i + ln.toNat
    · rw [if_pos hlong, if_pos (by omega)]
    · rw [if_neg hlong, if_neg (by omega), if_neg (by omega)]

/-- Either the field at a position is read, or its tag or its length cannot be. -/
private theorem fieldAt_cases (bz : Bytes) (i : Nat) :
    fieldAt bz i = none ∧ ((consumeVarintBytes (bz.drop i)).2 = 0 ∨
      (consumeVarintBytes (bz.drop (i + (consumeVarintBytes (bz.drop i)).2))).2 = 0) ∨
    ∃ f, fieldAt bz i = some f ∧ (consumeVarintBytes (bz.drop i)).1 = f.tag ∧ (consumeVarintBytes (bz.drop i)).2 ≠ 0 ∧
      (consumeVarintBytes (bz.drop (i + (consumeVarintBytes (bz.drop i)).2))).1 = f.ln ∧
      (consumeVarintBytes (bz.drop (i + (consumeVarintBytes (bz.drop i)).2))).2 ≠ 0 ∧
      i + (consumeVarintBytes (bz.drop i)).2 +
        (consumeVarintBytes (bz.drop (i + (consumeVarintBytes (bz.drop i)).2))).2 = f.start := by
  simp only [fieldAt]
  split
  · next h => exact .inl ⟨rfl, h⟩
  · next h =>
    rw [not_or] at h
    exact .inr ⟨_, rfl, rfl, h.1, rfl, h.2, rfl⟩

/-- A turn of the loop over the fields of a pair: an error, a panic, or the next turn behind the field. -/
private theorem decodePairLoop_step (hlen : bz.length < 2 ^ 63) (hi : i < bz.length) (p : KV) :
    (∃ msg, (∀ fuel, decodePairLoop bz (fuel + 1) i p = .error (.error msg)) ∧
      ∀ f, fieldAt bz i = some f → f.IsBytes → f.stop < 2 ^ 63 ∧ bz.length < f.stop) ∨
    ∃ f, fieldAt bz i = some f ∧ f.IsBytes ∧
      (2 ^ 63 ≤ f.stop ∧ (∀ fuel, decodePairLoop bz (fuel + 1) i p = .error .outOfRange) ∨
        f.stop ≤ bz.length ∧ ∃ q, ∀ fuel, decodePairLoop bz (fuel + 1) i p = decodePairLoop bz fuel f.stop q) := by
  simp only [decodePairLoop, if_neg (Nat.not_le.mpr hi), failIf_bind]
  rcases fieldAt_cases bz i with ⟨hnone, hzero⟩ | ⟨f, hf, htag, hn, hln, hm, hstart⟩
  · refine .inl ?_
    have hfail : ∀ f, fieldAt bz i = some f → f.IsBytes → f.stop < 2 ^ 63 ∧ bz.length < f.stop := by
      intro f hf
      rw [hnone] at hf
      cases hf
    by_cases hn : (consumeVarintBytes (bz.drop i)).2 = 0
    · simp only [if_pos hn]
      exact ⟨_, fun _ => rfl, hfail⟩
    · simp only [if_neg hn, if_pos (hzero.resolve_left hn)]
      by_cases hbytes : (consumeVarintBytes (bz.drop i)).1 &&& 7 ≠ 2
      · simp only [if_pos hbytes]
        exact ⟨_, fun _ => rfl, hfail⟩
      · simp only [if_neg hbytes]
        exact ⟨_, fun _ => rfl, hfail⟩
  · simp only [if_neg hn, htag, hln, if_neg hm, hstart]
    by_cases hbytes : f.tag &&& 7 ≠ 2
    · simp only [if_pos hbytes]
      refine .inl ⟨_, fun _ => rfl, fun g hg hb => ?_⟩
      rw [hf] at hg
      cases hg
      exact absurd hb hbytes
    · simp only [if_neg hbytes, sliceField_spec hlen (fieldAt_bounds hf).2]
      by_cases hwrap : 2 ^ 63 ≤ f.start + f.ln.toNat
      · simp only [if_pos hwrap]
        exact .inr ⟨f, hf, not_not.mp hbytes, .inl ⟨hwrap, fun _ => rfl⟩⟩
      · simp only [if_neg hwrap]
        by_cases hlong : bz.length < f.start + f.ln.toNat
        · simp only [if_pos hlong]
          refine .inl ⟨_, fun _ => rfl, fun g hg _ => ?_⟩
          rw [hf] at hg
          cases hg
          exact ⟨Nat.not_le.mp hwrap, hlong⟩
        · simp only [if_neg hlong]
          exact .inr ⟨f, hf, not_not.mp hbytes, .inr ⟨Nat.not_lt.mp hlong, _, fun _ => rfl⟩⟩

private theorem fieldAt_end (h : bz.length ≤ i) : fieldAt bz i = none := by
  cases hf : fieldAt bz i with
  | none => rfl
  | some f =>
    have := fieldAt_bounds hf
    omega

private theorem everyField_end (h : bz.length ≤ i) : EveryField reads passes good bz i := by
  refine everyField_iff.mpr ⟨fun f hf => ?_, fun f hf => ?_⟩ <;>
  · rw [fieldAt_end h] at hf
    cases hf

/-- Where the field is passed, what holds of all fields holds of those behind it. -/
private theorem everyField_next {f : Field} (hf : fieldAt bz i = some f) (hp : passes f) (hstop : f.stop ≤ bz.length)
    (hgood : good f) : EveryField reads passes good bz i ↔ EveryField reads passes good bz f.stop := by
  rw [everyField_iff]
  constructor
  · exact fun h => h.2 f hf hp hstop
  · intro h
    refine ⟨fun g hg _ => ?_, fun g hg _ _ => ?_⟩ <;>
    · rw [hf] at hg
      cases hg
      assumption

private theorem reach_next {f : Field} (hf : fieldAt bz i = some f) (hp : passes f) (hstop : f.stop ≤ bz.length)
    (hi : i ≠ bz.length) : Relation.ReflTransGen (NextField passes bz) i bz.length ↔
      Relation.ReflTransGen (NextField passes bz) f.stop bz.length := by
  constructor
  · intro h
    rcases Relation.ReflTransGen.cases_head h with h | ⟨k, ⟨g, hg, -, -, rfl⟩, hk⟩
    · exact absurd h hi
    · rw [hf] at hg
      cases hg
      exact hk
  · exact fun h => .head ⟨f, hf, hp, hstop, rfl⟩ h

private theorem not_reach (hi : i ≠ bz.length) (h : ∀ f, fieldAt bz i = some f → passes f → bz.length < f.stop) :
    ¬ Relation.ReflTransGen (NextField passes bz) i bz.length := by
  intro hreach
  rcases Relation.ReflTransGen.cases_head hreach with h' | ⟨k, ⟨g, hg, hp, hstop, rfl⟩, -⟩
  · exact hi h'
  · exact absurd hstop (Nat.not_le.mpr (h g hg hp))

/-- What a loop over fields comes to from a position, with fuel for the bytes that are left. -/
private structure Outcome {α : Type} (reads passes good : Field → Prop) (bz : Bytes) (i : Nat)
    (loop : Nat → Except DecodeFail α) (fuel : Nat) : Prop where
  safe : loop fuel ≠ .error .outOfRange ↔ EveryField reads passes good bz i
  ok : (∃ a, loop fuel = .ok a) ↔ Relation.ReflTransGen (NextField passes bz) i bz.length
  fuelled : ∀ fuel', bz.length - i ≤ fuel' → loop fuel' = loop fuel

namespace Outcome
variable {α β : Type} {loop : Nat → Except DecodeFail α} {fuel : Nat}

private theorem done (hi : i = bz.length) {a : α} (h : ∀ n, loop n = .ok a) :
    Outcome reads passes good bz i loop fuel := by
  refine ⟨?_, ?_, fun n _ => (h n).trans (h fuel).symm⟩
  · rw [h]
    exact iff_of_true nofun (everyField_end hi.ge)
  · rw [h, hi]
    exact iff_of_true ⟨a, rfl⟩ .refl

private theorem fuelled_of_succ (hi : i < bz.length) {x : Except DecodeFail α} (h : ∀ n, loop (n + 1) = x) (n : Nat)
    (hn : bz.length - i ≤ n) : loop n = loop (fuel + 1) := by
  obtain ⟨m, rfl⟩ : ∃ m, n = m + 1 := ⟨n - 1, by omega⟩
  rw [h, h]

private theorem fails (hi : i < bz.length) {msg : String} (h : ∀ n, loop (n + 1) = .error (.error msg))
    (hread : ∀ f, fieldAt bz i = some f → reads f → good f)
    (hpass : ∀ f, fieldAt bz i = some f → passes f → bz.length < f.stop) :
    Outcome reads passes good bz i loop (fuel + 1) := by
  refine ⟨?_, ?_, fuelled_of_succ hi h⟩
  · rw [h, everyField_iff]
    refine iff_of_true nofun ⟨hread, fun f hf hp hstop => ?_⟩
    exact absurd hstop (Nat.not_le.mpr (hpass f hf hp))
  · rw [h]
    exact iff_of_false nofun (not_reach hi.ne hpass)

private theorem panics (hi : i < bz.length) (h : ∀ n, loop (n + 1) = .error .outOfRange) {f : Field}
    (hf : fieldAt bz i = some f) (hread : reads f) (hbad : ¬ good f) (hpass : passes f → bz.length < f.stop) :
    Outcome reads passes good bz i loop (fuel + 1) := by
  refine ⟨?_, ?_, fuelled_of_succ hi h⟩
  · rw [h, everyField_iff]
    exact iff_of_false (fun hne => hne rfl) (fun hall => hbad (hall.1 f hf hread))
  · rw [h]
    refine iff_of_false nofun (not_reach hi.ne (fun g hg hp => ?_))
    rw [hf] at hg
    cases hg
    exact hpass hp

private theorem next (hi : i < bz.length) {loop' : Nat → Except DecodeFail β} (g : β → α)
    (h : ∀ n, loop (n + 1) = (loop' n).map g) {f : Field} (hf : fieldAt bz i = some f) (hp : passes f)
    (hstop : f.stop ≤ bz.length) (hgood : good f) (hrest : Outcome reads passes good bz f.stop loop' fuel) :
    Outcome reads passes good bz i loop (fuel + 1) := by
  have hstart := fieldAt_bounds hf
  have hle : f.start ≤ f.stop := Nat.le_add_right _ _
  refine ⟨?_, ?_, fun n hn => ?_⟩
  · rw [everyField_next hf hp hstop hgood, ← hrest.safe, h]
    cases loop' fuel <;> simp [Except.map]
  · rw [reach_next hf hp hstop hi.ne, ← hrest.ok, h]
    cases loop' fuel <;> simp [Except.map]
  · obtain ⟨m, rfl⟩ : ∃ m, n = m + 1 := ⟨n - 1, by omega⟩
    rw [h, h, hrest.fuelled m (by omega)]

end Outcome

private theorem decodePairLoop_outcome (hlen : bz.length < 2 ^ 63) (fuel : Nat) (hi : i ≤ bz.length)
    (hfuel : bz.length - i ≤ fuel) (p : KV) : Outcome Field.IsBytes Field.IsBytes (fun f => f.stop < 2 ^ 63) bz i
      (fun n => decodePairLoop bz n i p) fuel := by
  induction fuel generalizing i p with
  | zero => exact .done (by omega) (fun n => decodePairLoop_done n p (List.drop_eq_nil_iff.mpr (by omega)))
  | succ fuel ih =>
    rcases Nat.lt_or_ge i bz.length with hlt | hge
    · rcases decodePairLoop_step hlen hlt p with ⟨msg, h, hfield⟩ | ⟨f, hf, hbytes, ⟨hwrap, h⟩ | ⟨hstop, q, h⟩⟩
      · exact .fails hlt h (fun f hf hb => (hfield f hf hb).1) (fun f hf hb => (hfield f hf hb).2)
      · exact .panics hlt h hf hbytes (Nat.not_lt.mpr hwrap) (fun _ => by omega)
      · have hbounds := fieldAt_bounds hf
        have hle : f.start ≤ f.stop := Nat.le_add_right _ _
        refine .next hlt id (fun n => ?_) hf hbytes hstop (by omega) (ih hstop (by omega) q)
        rw [h n]
        cases decodePairLoop bz n f.stop q <;> rfl
    · exact .done (by omega) (fun n => decodePairLoop_done n p (List.drop_eq_nil_iff.mpr hge))

theorem decodePair_safe_iff (hlen : bz.length < 2 ^ 63) : decodePair bz ≠ .error .outOfRange ↔ PairFits bz :=
  (decodePairLoop_outcome hlen bz.length (Nat.zero_le _) (Nat.sub_le _ _) ⟨[], []⟩).safe

theorem decodePair_ok_iff (hlen : bz.length < 2 ^ 63) : (∃ p, decodePair bz = .ok p) ↔ PairFilled bz :=
  (decodePairLoop_outcome hlen bz.length (Nat.zero_le _) (Nat.sub_le _ _) ⟨[], []⟩).ok

theorem decodePairLoop_fuel (hlen : bz.length < 2 ^ 63) {fuel : Nat} (hfuel : bz.length ≤ fuel) :
    decodePairLoop bz fuel 0 ⟨[], []⟩ = decodePair bz :=
  (decodePairLoop_outcome hlen bz.length (Nat.zero_le _) (Nat.sub_le _ _) ⟨[], []⟩).fuelled fuel hfuel

private theorem decodeKVPairsLoop_fails (hi : i < bz.length) (h : ∀ f, fieldAt bz i = some f → ¬ f.IsPair) :
    ∃ msg, ∀ fuel, decodeKVPairsLoop bz (fuel + 1) i = .error (.error msg) := by
  simp only [decodeKVPairsLoop, if_neg (Nat.not_le.mpr hi), failIf_bind]
  rcases fieldAt_cases bz i with ⟨-, hzero⟩ | ⟨f, hf, htag, hn, hln, hm, -⟩
  · by_cases hn : (consumeVarintBytes (bz.drop i)).2 = 0
    · simp only [if_pos hn]
      exact ⟨_, fun _ => rfl⟩
    · simp only [if_neg hn, if_pos (hzero.resolve_left hn)]
      by_cases hpair : (consumeVarintBytes (bz.drop i)).1 >>> 3 ≠ 1 ∨ (consumeVarintBytes (bz.drop i)).1 &&& 7 ≠ 2
      · simp only [if_pos hpair]
        exact ⟨_, fun _ => rfl⟩
      · simp only [if_neg hpair]
        exact ⟨_, fun _ => rfl⟩
  · have hpair : f.tag >>> 3 ≠ 1 ∨ f.tag &&& 7 ≠ 2 := not_and_or.mp (h f hf)
    simp only [if_neg hn, htag, if_pos hpair]
    exact ⟨_, fun _ => rfl⟩

private theorem decodeKVPairsLoop_succ (hi : i < bz.length) {f : Field} (hf : fieldAt bz i = some f) (hpair : f.IsPair)
    (fuel : Nat) : decodeKVPairsLoop bz (fuel + 1) i =
      (sliceField bz f.start f.ln "pair overflow" >>= fun inner => decodePair inner >>= fun p =>
        (decodeKVPairsLoop bz fuel f.stop).map (p :: ·)) := by
  rcases fieldAt_cases bz i with ⟨hnone, -⟩ | ⟨g, hg, htag, hn, hln, hm, hstart⟩
  · rw [hnone] at hf
    cases hf
  · rw [hf] at hg
    cases hg
    have hpair' : ¬ (f.tag >>> 3 ≠ 1 ∨ f.tag &&& 7 ≠ 2) := fun hc => not_and_or.mpr hc hpair
    simp only [decodeKVPairsLoop, if_neg (Nat.not_le.mpr hi), failIf_bind, if_neg hn, htag, hln, if_neg hm, hstart,
      if_neg hpair']
    rfl

private theorem decodeKVPairsLoop_end (h : bz.length ≤ i) (fuel : Nat) : decodeKVPairsLoop bz fuel i = .ok [] := by
  cases fuel with
  | zero => rfl
  | succ fuel => rw [decodeKVPairsLoop, if_pos h]

/-- What the loop over the pairs comes to. -/
private abbrev PairsOutcome (bz : Bytes) (i fuel : Nat) : Prop :=
  Outcome Field.IsPair (fun f => f.IsPair ∧ PairFilled (f.body bz))
    (fun f => f.stop < 2 ^ 63 ∧ (f.stop ≤ bz.length → PairFits (f.body bz))) bz i
    (fun n => decodeKVPairsLoop bz n i) fuel

/-- A pair inside the string decides between an error, a panic and the pairs behind it. -/
private theorem pairsOutcome_of_pair (hlen : bz.length < 2 ^ 63) (hi : i < bz.length) {f : Field}
    (hf : fieldAt bz i = some f) (hpair : f.IsPair) (hstop : f.stop ≤ bz.length) {fuel : Nat}
    (hrest : PairsOutcome bz f.stop fuel) : PairsOutcome bz i (fuel + 1) := by
  have hend : f.stop = f.start + f.ln.toNat := rfl
  have hbody : (f.body bz).length < 2 ^ 63 := by
    rw [Field.body, List.length_take, List.length_drop]
    omega
  have honly : ∀ g, fieldAt bz i = some g → g = f := fun g hg => Option.some.inj (hg.symm.trans hf)
  have hloop : ∀ n, decodeKVPairsLoop bz (n + 1) i =
      (decodePair (f.body bz) >>= fun p => (decodeKVPairsLoop bz n f.stop).map (p :: ·)) := by
    intro n
    rw [decodeKVPairsLoop_succ hi hf hpair, sliceField_spec hlen (fieldAt_bounds hf).2, if_neg (by omega),
      if_neg (by omega)]
    rfl
  cases hinner : decodePair (f.body bz) with
  | ok p =>
    rw [hinner] at hloop
    have hfilled := (decodePair_ok_iff hbody).mp ⟨p, hinner⟩
    have hfits := (decodePair_safe_iff hbody).mp (by rw [hinner]; nofun)
    exact .next hi (p :: ·) hloop hf ⟨hpair, hfilled⟩ hstop ⟨by omega, fun _ => hfits⟩ hrest
  | error e =>
    rw [hinner] at hloop
    have hunfilled : ¬ PairFilled (f.body bz) := by
      rw [← decodePair_ok_iff hbody, hinner]
      nofun
    cases e with
    | error msg =>
      have hfits := (decodePair_safe_iff hbody).mp (by rw [hinner]; nofun)
      refine .fails hi hloop (fun g hg _ => ?_) (fun g hg hp => ?_) <;> cases honly g hg
      · exact ⟨by omega, fun _ => hfits⟩
      · exact absurd hp.2 hunfilled
    | outOfRange =>
      refine .panics hi hloop hf hpair (fun hgood => ?_) (fun hp => absurd hp.2 hunfilled)
      exact (decodePair_safe_iff hbody).mpr (hgood.2 hstop) hinner

private theorem decodeKVPairsLoop_outcome (hlen : bz.length < 2 ^ 63) (fuel : Nat) (hi : i ≤ bz.length)
    (hfuel : bz.length - i ≤ fuel) : PairsOutcome bz i fuel := by
  induction fuel generalizing i with
  | zero => exact .done (by omega) (decodeKVPairsLoop_end (by omega))
  | succ fuel ih =>
    rcases Nat.lt_or_ge i bz.length with hlt | hge
    · by_cases hread : ∃ f, fieldAt bz i = some f ∧ f.IsPair
      · obtain ⟨f, hf, hpair⟩ := hread
        have hbounds := fieldAt_bounds hf
        have hend : f.stop = f.start + f.ln.toNat := rfl
        have hsucc := decodeKVPairsLoop_succ hlt hf hpair
        simp only [sliceField_spec hlen hbounds.2] at hsucc
        by_cases hwrap : 2 ^ 63 ≤ f.start + f.ln.toNat
        · simp only [if_pos hwrap] at hsucc
          exact .panics hlt hsucc hf hpair (fun hgood => absurd hgood.1 (Nat.not_lt.mpr hwrap)) (fun _ => by omega)
        · by_cases hlong : bz.length < f.start + f.ln.toNat
          · simp only [if_neg hwrap, if_pos hlong] at hsucc
            refine .fails hlt hsucc (fun g hg _ => ?_) (fun g hg _ => ?_) <;> cases hf.symm.trans hg
            · exact ⟨Nat.not_le.mp hwrap, fun hstop => absurd hlong (Nat.not_lt.mpr hstop)⟩
            · exact hlong
          · exact pairsOutcome_of_pair hlen hlt hf hpair (by omega) (ih (by omega) (by omega))
      · obtain ⟨msg, h⟩ := decodeKVPairsLoop_fails hlt (fun f hf hp => hread ⟨f, hf, hp⟩)
        exact .fails hlt h (fun f hf hp => absurd ⟨f, hf, hp⟩ hread) (fun f hf hp => absurd ⟨f, hf, hp.1⟩ hread)
    · exact .done (by omega) (decodeKVPairsLoop_end hge)

theorem decodeKVPairs_safe_iff (hlen : bz.length < 2 ^ 63) : decodeKVPairs bz ≠ .error .outOfRange ↔ LengthsFit bz :=
  (decodeKVPairsLoop_outcome hlen bz.length (Nat.zero_le _) (Nat.sub_le _ _)).safe

theorem decodeKVPairsLoop_fuel (hlen : bz.length < 2 ^ 63) {fuel : Nat} (hfuel : bz.length ≤ fuel) :
    decodeKVPairsLoop bz fuel 0 = decodeKVPairs bz :=
  (decodeKVPairsLoop_outcome hlen bz.length (Nat.zero_le _) (Nat.sub_le _ _)).fuelled fuel hfuel

theorem decodeBondedSubspace_safe_iff (period : UInt64) (hlen : bz.length < 2 ^ 63) :
    decodeBondedSubspace period bz ≠ .error .outOfRange ↔ LengthsFit bz := by
  rw [← decodeKVPairs_safe_iff hlen]
  unfold decodeBondedSubspace
  split
  · next h0 =>
    have hok : decodeKVPairs bz = .ok [] := decodeKVPairsLoop_end (by omega) _
    rw [hok]
    exact iff_of_true nofun nofun
  · cases decodeKVPairs bz with
    | ok pairs => exact iff_of_true nofun nofun
    | error e =>
      cases e with
      | error msg => exact iff_of_true nofun nofun
      | outOfRange => exact iff_of_false (fun h => h rfl) (fun h => h rfl)

private theorem consumeVarintFrom_le (x : UInt64) (i : Nat) (b : Bytes) :
    (consumeVarintFrom x i b).2 ≤ i + b.length := by
  induction b generalizing x i with
  | nil => exact Nat.zero_le _
  | cons c b ih =>
    unfold consumeVarintFrom
    rw [List.length_cons]
    split
    · split
      · exact Nat.zero_le _
      · change i + 1 ≤ _
        omega
    · have := ih (x ||| UInt64.ofNat ((c &&& 0x7f).toNat <<< (7 * i))) (i + 1)
      omega

theorem unmarshal_safe_iff (unmarshalRows : Bytes → Except String (List BondedSetRow)) (m : QueryBondedSetResponse)
    (hlen : bz.length < 2 ^ 63) : m.unmarshal unmarshalRows bz ≠ .error .outOfRange ↔ ResponseLengthFits bz := by
  unfold QueryBondedSetResponse.unmarshal ResponseLengthFits
  cases bz with
  | nil => exact iff_of_true nofun nofun
  | cons c rest =>
    by_cases hc : c = 0x0a
    · subst hc
      have hn : 1 + (consumeVarint rest).2 ≤ (0x0a :: rest : Bytes).length := by
        have := consumeVarintFrom_le 0 0 rest
        rw [List.length_cons, consumeVarint]
        omega
      simp only [ne_eq, not_true_eq_false, if_false, List.head?_cons, List.tail_cons, forall_const,
        sliceField_spec hlen hn]
      by_cases hwrap : 2 ^ 63 ≤ 1 + (consumeVarint rest).2 + (consumeVarint rest).1.toNat
      · rw [if_pos hwrap]
        exact iff_of_false (fun h => h rfl) (Nat.not_lt.mpr hwrap)
      · rw [if_neg hwrap]
        refine iff_of_true ?_ (Nat.not_le.mp hwrap)
        split
        · nofun
        · simp only [bind, Except.bind]
          split <;> nofun
    · simp [hc]

end Fields

/-- On any byte string of the language, whose slices are shorter than 2^63 bytes, the decoders return a value or an
error exactly when no length they reach ends at 2^63 or beyond; their loops end with the string; and pairs are read
back. -/
theorem subspace_decoding_safe_iff (unmarshalRows : Bytes → Except String (List BondedSetRow))
    (m : QueryBondedSetResponse) (period : UInt64) (bz : Bytes) (hlen : bz.length < 2 ^ 63) :
    (decodeSubspacePairs bz ≠ .error .outOfRange ↔ LengthsFit bz) ∧
    (decodeBondedSubspace period bz ≠ .error .outOfRange ↔ LengthsFit bz) ∧
    (m.unmarshal unmarshalRows bz ≠ .error .outOfRange ↔ ResponseLengthFits bz) ∧
    (∀ fuel, bz.length ≤ fuel →
      decodeKVPairsLoop bz fuel 0 = decodeKVPairs bz ∧ decodePairLoop bz fuel 0 ⟨[], []⟩ = decodePair bz) ∧
    ∀ pairs, encodeKVPairs pairs = bz → decodeSubspacePairs bz = .ok pairs := by
  refine ⟨decodeKVPairs_safe_iff hlen, decodeBondedSubspace_safe_iff period hlen,
    unmarshal_safe_iff unmarshalRows m hlen,
    fun fuel hfuel => ⟨decodeKVPairsLoop_fuel hlen hfuel, decodePairLoop_fuel hlen hfuel⟩, ?_⟩
  rintro pairs rfl
  exact decodeSubspacePairs_encode pairs hlen

/-- A key, its value, and an empty pair. -/
theorem two_pairs_decoding_safe :
    decodeSubspacePairs (encodeKVPairs [⟨[1, 2], [3]⟩, ⟨[], []⟩]) = .ok [⟨[1, 2], [3]⟩, ⟨[], []⟩] ∧
    (decodeBondedSubspace 7 (encodeKVPairs [⟨[1, 2], [3]⟩, ⟨[], []⟩]) ≠ .error .outOfRange ↔
      LengthsFit (encodeKVPairs [⟨[1, 2], [3]⟩, ⟨[], []⟩])) := by
  obtain ⟨-, hbonded, -, -, hpairs⟩ := subspace_decoding_safe_iff (fun _ => .ok []) ⟨[], []⟩ 7
    (encodeKVPairs [⟨[1, 2], [3]⟩, ⟨[], []⟩]) (by decide)
  exact ⟨hpairs _ rfl, hbonded⟩

/-- A field whose length is the largest 64-bit word: its end is one less than its start, the check passes, and all
three decoders slice out of range. -/
theorem largest_length_panics :
    let bz : Bytes := [0x0a, 0xff, 0xff, 0xff, 0xff, 0xff, 0xff, 0xff, 0xff, 0xff, 0x01]
    decodeSubspacePairs bz = .error .outOfRange ∧ decodeBondedSubspace 7 bz = .error .outOfRange ∧
    QueryBondedSetResponse.unmarshal (fun _ => .ok []) ⟨[], []⟩ bz = .error .outOfRange := by
  decide

end Terpz.Leanval
