import Mathlib.Data.Nat.ModEq
import Terpz.Leanval.StwoDummy.Dummy

/-! The valset program: a period, a deposit index and a balance byte are folded into two field elements, and the
proof carries those. Which statements a proof is accepted for is decided by the fold alone. -/
namespace Terpz.Leanval.StwoDummy
open Lib Keeper

def maxProofBytes : Nat := 2 * 1024 * 1024

abbrev DepositIndex := { b : Bytes // b.length = 5 }

def packedM31 (depositIndex : DepositIndex) (eb : UInt8) : M31 := ⟨laneMix eb.toUInt32 depositIndex.1 % M31.p⟩

def seeds (period : UInt64) (depositIndex : DepositIndex) (eb : UInt8) : M31 × M31 :=
  (⟨period.toUInt32 % M31.p⟩, packedM31 depositIndex eb)

def header (period idx claimed : M31) : Bytes :=
  stwoMagic ++ [circuitTypeStwo, curveTypeM31] ++ period.toLEBytes ++ idx.toLEBytes ++ claimed.toLEBytes

/-- The STARK layer over the header values: a proof body, or none when proving fails. -/
structure Stark where
  prove : M31 → M31 → M31 → Option Bytes
  verify : M31 → M31 → M31 → Bytes → Bool

/-- Accepted header values satisfy the constraint; values that do have a body, small enough, that is accepted. -/
structure Stark.Faithful (stark : Stark) : Prop where
  sound : ∀ a idx claimed body, stark.verify a idx claimed body = true → claimed = dummyM31Hash a idx
  complete : ∀ a idx, ∃ body, stark.prove a idx (dummyM31Hash a idx) = some body ∧
    18 + body.length ≤ maxProofBytes ∧ stark.verify a idx (dummyM31Hash a idx) body = true

def proveValset (stark : Stark) (period : UInt64) (depositIndex : DepositIndex) (eb : UInt8) :
    Except VerifyError Bytes :=
  let (a, idx) := seeds period depositIndex eb
  let claimed := dummyM31Hash a idx
  match stark.prove a idx claimed with
  | none => .error .stwoVerify
  | some body =>
    let out := header a idx claimed ++ body
    if out.length > maxProofBytes then .error (.proofTooLarge out.length) else .ok out

def verifyValset (stark : Stark) (proof : Bytes) (period : UInt64) (depositIndex : DepositIndex) (eb : UInt8) :
    Except VerifyError Unit := do
  failIf (proof.length > maxProofBytes) (.proofTooLarge proof.length)
  failIf (proof.length < 18) .truncated
  failIf (proof.take 4 ≠ stwoMagic) .badMagic
  let circuit ← CircuitType.fromU8 (proof.getD 4 0)
  failIf (circuit ≠ .stwo) (.wrongProverId (proof.getD 4 0))
  let curve ← CurveType.fromU8 (proof.getD 5 0)
  failIf (curve ≠ .m31) (.wrongCurveId (proof.getD 5 0))
  let (a, idx) := seeds period depositIndex eb
  let claimed := dummyM31Hash a idx
  let pa ← M31.fromLEBytes (slice proof 6 10)
  let pi ← M31.fromLEBytes (slice proof 10 14)
  let pc ← M31.fromLEBytes (slice proof 14 18)
  failIf (pa ≠ a ∨ pi ≠ idx ∨ pc ≠ claimed) .publicInputMismatch
  failIf (!stark.verify a idx claimed (proof.drop 18)) .stwoVerify

section Acceptance
variable {a idx claimed : M31} {body : Bytes}

private theorem fromLEBytes_toLEBytes (h : a.raw < M31.p) : M31.fromLEBytes a.toLEBytes = .ok a := by
  rw [M31.fromLEBytes, M31.toLEBytes, getLE32_putLE32, M31.new, if_neg (UInt32.not_le.mpr h)]

private theorem toLEBytes_four (a : M31) : ∃ w x y z, a.toLEBytes = [w, x, y, z] := by
  have h : a.toLEBytes.length = 4 := putLE32_length a.raw
  match a.toLEBytes, h with
  | [w, x, y, z], _ => exact ⟨w, x, y, z, rfl⟩

private theorem header_slices (a idx claimed : M31) (body : Bytes) :
    (header a idx claimed ++ body).take 4 = stwoMagic ∧ (header a idx claimed ++ body).getD 4 0 = 2 ∧
    (header a idx claimed ++ body).getD 5 0 = 5 ∧ slice (header a idx claimed ++ body) 6 10 = a.toLEBytes ∧
    slice (header a idx claimed ++ body) 10 14 = idx.toLEBytes ∧
    slice (header a idx claimed ++ body) 14 18 = claimed.toLEBytes ∧ (header a idx claimed ++ body).drop 18 = body ∧
    (header a idx claimed ++ body).length = 18 + body.length := by
  obtain ⟨a0, a1, a2, a3, ha⟩ := toLEBytes_four a
  obtain ⟨i0, i1, i2, i3, hi⟩ := toLEBytes_four idx
  obtain ⟨c0, c1, c2, c3, hc⟩ := toLEBytes_four claimed
  rw [header, ha, hi, hc]
  refine ⟨rfl, rfl, rfl, rfl, rfl, rfl, rfl, ?_⟩
  rw [List.length_append]
  rfl

private theorem reduced_lt (x : UInt32) : x % M31.p < M31.p := UInt32.mod_lt x (by decide)

private theorem dummyM31Hash_reduced (a b : M31) : (dummyM31Hash a b).raw < M31.p := by
  rw [UInt32.lt_iff_toNat_lt, dummyM31Hash_toNat]
  exact Nat.mod_lt _ (by decide)

/-- A proof with true header values and an accepted body is accepted for the statements with the same seeds. -/
private theorem verifyValset_iff (stark : Stark) {period : UInt64} (period' : UInt64) {index : DepositIndex}
    (index' : DepositIndex) {eb : UInt8} (eb' : UInt8) (ha : (a, idx) = seeds period index eb)
    (hsize : 18 + body.length ≤ maxProofBytes) (hbody : stark.verify a idx (dummyM31Hash a idx) body = true) :
    verifyValset stark (header a idx (dummyM31Hash a idx) ++ body) period' index' eb' = .ok () ↔
      seeds period index eb = seeds period' index' eb' := by
  obtain ⟨hmagic, h4, h5, h6, h10, h14, hdrop, hlen⟩ := header_slices a idx (dummyM31Hash a idx) body
  have hwords : a.raw < M31.p ∧ idx.raw < M31.p := by
    obtain ⟨rfl, rfl⟩ := Prod.mk.inj ha
    exact ⟨reduced_lt _, reduced_lt _⟩
  have hcircuit : CircuitType.fromU8 2 = .ok .stwo := rfl
  have hcurve : CurveType.fromU8 5 = .ok .m31 := rfl
  unfold verifyValset
  rw [hlen, failIf_bind, if_neg (by omega), failIf_bind, if_neg (by omega), hmagic, failIf_bind,
    if_neg (not_not.mpr rfl), h4, h5, hcircuit, hcurve, h6, h10, h14, fromLEBytes_toLEBytes hwords.1,
    fromLEBytes_toLEBytes hwords.2, fromLEBytes_toLEBytes (dummyM31Hash_reduced a idx), hdrop, ← ha]
  generalize seeds period' index' eb' = t
  obtain ⟨a', idx'⟩ := t
  change (failIf (a ≠ a' ∨ idx ≠ idx' ∨ dummyM31Hash a idx ≠ dummyM31Hash a' idx') VerifyError.publicInputMismatch >>=
    fun _ => failIf (!stark.verify a' idx' (dummyM31Hash a' idx') body) VerifyError.stwoVerify) = .ok () ↔
      (a, idx) = (a', idx')
  rw [failIf_bind_eq_ok, failIf_eq_ok, Prod.mk.injEq]
  constructor
  · rintro ⟨hsame, -⟩
    exact ⟨not_not.mp (not_or.mp hsame).1, not_not.mp (not_or.mp (not_or.mp hsame).2).1⟩
  · rintro ⟨rfl, rfl⟩
    simp [hbody]

/-- The low 32 bits of a period. -/
def periodWord (period : UInt64) : Nat := period.toNat % 2 ^ 32

/-- The first and the fifth byte of an index and the balance byte share a byte of the word. -/
def packedWord (index : DepositIndex) (eb : UInt8) : Nat :=
  (index.1.getD 0 0 ^^^ index.1.getD 4 0 ^^^ eb).toNat + (index.1.getD 1 0).toNat * 2 ^ 8 +
    (index.1.getD 2 0).toNat * 2 ^ 16 + (index.1.getD 3 0).toNat * 2 ^ 24

private theorem packedM31_toNat (index : DepositIndex) (eb : UInt8) :
    (packedM31 index eb).raw.toNat = packedWord index eb % (2 ^ 31 - 1) := by
  obtain ⟨b, hb⟩ := index
  match b, hb with
  | [i0, i1, i2, i3, i4], _ =>
    have hlane : ∀ x : UInt8, x.toUInt32 = laneWord x 0 0 0 := fun x => by simp [laneWord]
    have hword : laneMix eb.toUInt32 [i0, i1, i2, i3, i4] = laneWord (i0 ^^^ i4 ^^^ eb) i1 i2 i3 := by
      rw [laneMix_five, hlane eb, hlane i4, laneWord_xor, laneWord_xor]
      simp only [UInt8.zero_xor, UInt8.xor_zero]
      congr 1
      ac_rfl
    rw [packedM31, hword, UInt32.toNat_mod, laneWord_toNat]
    rfl

theorem seeds_eq_iff {period period' : UInt64} {index index' : DepositIndex} {eb eb' : UInt8} :
    seeds period index eb = seeds period' index' eb' ↔
      periodWord period ≡ periodWord period' [MOD 2 ^ 31 - 1] ∧
      packedWord index eb ≡ packedWord index' eb' [MOD 2 ^ 31 - 1] := by
  have hinj : ∀ x y : M31, x = y ↔ x.raw.toNat = y.raw.toNat := fun x y => by
    rw [UInt32.toNat_inj]
    exact ⟨fun h => h ▸ rfl, fun h => by cases x; cases y; cases h; rfl⟩
  have hperiod : ∀ p : UInt64, (p.toUInt32 % M31.p).toNat = periodWord p % (2 ^ 31 - 1) := fun p => by
    rw [UInt32.toNat_mod, UInt64.toNat_toUInt32]
    rfl
  rw [seeds, seeds, Prod.mk.injEq, hinj, hinj, hperiod, hperiod, packedM31_toNat, packedM31_toNat]
  rfl

end Acceptance

/-- A proof binds its statement against another one exactly when they are the same or their folded words differ
modulo the field. -/
theorem valset_proofs_bind_iff (stark : Stark) (hstark : stark.Faithful) (period period' : UInt64)
    (index index' : DepositIndex) (eb eb' : UInt8) :
    (∀ proof, proveValset stark period index eb = .ok proof →
      verifyValset stark proof period' index' eb' = .ok () → period = period' ∧ index = index' ∧ eb = eb') ↔
    (period = period' ∧ index = index' ∧ eb = eb') ∨
      ¬ (periodWord period ≡ periodWord period' [MOD 2 ^ 31 - 1] ∧
        packedWord index eb ≡ packedWord index' eb' [MOD 2 ^ 31 - 1]) := by
  rw [← seeds_eq_iff]
  obtain ⟨body, hprove, hsize, hbody⟩ := hstark.complete (seeds period index eb).1 (seeds period index eb).2
  have hproof : proveValset stark period index eb = .ok (header (seeds period index eb).1 (seeds period index eb).2
      (dummyM31Hash (seeds period index eb).1 (seeds period index eb).2) ++ body) := by
    obtain ⟨-, -, -, -, -, -, -, hlen⟩ := header_slices (seeds period index eb).1 (seeds period index eb).2
      (dummyM31Hash (seeds period index eb).1 (seeds period index eb).2) body
    unfold proveValset
    simp only [hprove]
    rw [if_neg (by omega)]
  have haccept := verifyValset_iff stark period' index' eb' rfl hsize hbody
  constructor
  · intro h
    by_cases hseeds : seeds period index eb = seeds period' index' eb'
    · exact .inl (h _ hproof (haccept.mpr hseeds))
    · exact .inr hseeds
  · rintro (h | h) proof hp hv
    · exact h
    · rw [hproof] at hp
      cases hp
      exact absurd (haccept.mp hv) h

/-- A STARK layer that checks the constraint itself. -/
def directStark : Stark where
  prove _ _ _ := some []
  verify a idx claimed _ := claimed = dummyM31Hash a idx

theorem directStark_faithful : directStark.Faithful where
  sound a idx claimed body h := of_decide_eq_true h
  complete a idx := ⟨[], rfl, by decide, decide_eq_true rfl⟩

/-- The deposit index of five bytes in big-endian order, for indices below 256. -/
def smallIndex (i : UInt8) : DepositIndex := ⟨[0, 0, 0, 0, i], rfl⟩

/-- Another index alone is refused. -/
theorem other_index_refused : ∃ proof, proveValset directStark 3 (smallIndex 42) 32 = .ok proof ∧
    verifyValset directStark proof 3 (smallIndex 43) 32 ≠ .ok () := by
  have hbind := (valset_proofs_bind_iff directStark directStark_faithful 3 3 (smallIndex 42) (smallIndex 43) 32 32).mpr
    (.inr (by decide))
  refine ⟨_, rfl, fun haccept => ?_⟩
  exact absurd (hbind _ rfl haccept).2.1 (by decide)

/-- A proof for index 42 with balance byte 32 is accepted for index 43 with balance byte 33, and a proof for period 0
is accepted 2^32 periods later. -/
theorem other_statements_accepted :
    (∃ proof, proveValset directStark 3 (smallIndex 42) 32 = .ok proof ∧
      verifyValset directStark proof 3 (smallIndex 43) 33 = .ok ()) ∧
    ∃ proof, proveValset directStark 0 (smallIndex 42) 32 = .ok proof ∧
      verifyValset directStark proof 4294967296 (smallIndex 42) 32 = .ok () := by
  exact ⟨⟨_, rfl, by decide⟩, ⟨_, rfl, by decide⟩⟩

end Terpz.Leanval.StwoDummy
