import Mathlib.Data.Nat.ModEq
import Terpz.Leanval.StwoDummy.Dummy

/-! What a Dummy proof binds. The weight enters through the exclusive or of its halves and the period is reduced in
different widths on the two sides, so neither is bound beyond that. -/
namespace Terpz.Leanval
open Lib Lib.BigEndian Keeper

def Keeper.dummyStwoProveBound (period : UInt64) (subject : Bytes) (weight : Int64) : Bytes :=
  dummyStwoProveBoundRoots period subject weight []

section Verify
variable {a b : UInt32}

private theorem putLE32_four (v : UInt32) : ∃ w x y z, putLE32 v = [w, x, y, z] := by
  match putLE32 v, putLE32_length v with
  | [w, x, y, z], _ => exact ⟨w, x, y, z, rfl⟩

private theorem dummyStwoProve_slices (a b : UInt32) :
    (dummyStwoProve a b).take 4 = dummyMagic ∧ (dummyStwoProve a b).getD 4 0 = 2 ∧
    (dummyStwoProve a b).getD 5 0 = 5 ∧ slice (dummyStwoProve a b) 6 10 = putLE32 a ∧
    slice (dummyStwoProve a b) 10 14 = putLE32 b ∧ slice (dummyStwoProve a b) 14 18 = putLE32 (dummyM31Hash a b) ∧
    (dummyStwoProve a b).length = 18 := by
  obtain ⟨a0, a1, a2, a3, ha⟩ := putLE32_four a
  obtain ⟨b0, b1, b2, b3, hb⟩ := putLE32_four b
  obtain ⟨c0, c1, c2, c3, hc⟩ := putLE32_four (dummyM31Hash a b)
  rw [dummyStwoProve, ha, hb, hc]
  exact ⟨rfl, rfl, rfl, rfl, rfl, rfl, rfl⟩

private theorem dummyM31Hash_lt (a b : UInt32) : ¬ dummyM31Hash a b ≥ m31P := by
  have hp : m31P.toUInt64.toNat = 2 ^ 31 - 1 := by decide
  have hp' : m31P.toNat = 2 ^ 31 - 1 := by decide
  rw [ge_iff_le, UInt32.le_iff_toNat_le, dummyM31Hash, UInt64.toNat_toUInt32, UInt64.toNat_mod, hp, hp']
  omega

/-- The instances are taken apart as they were put together. -/
private theorem instances_slices (period : UInt64) (subject : Bytes) (weight : Int64) (roots : Bytes) :
    16 ≤ (instancesForRoots period subject weight roots).length ∧
    (instancesForRoots period subject weight roots).take 8 = putU64 period ∧
    slice (instancesForRoots period subject weight roots) 8 16 = putI64 weight ∧
    (instancesForRoots period subject weight roots).drop 16 = subject ++ padRoots roots := by
  have h8 : (instancesForRoots period subject weight roots).drop 8 = putI64 weight ++ (subject ++ padRoots roots) := by
    rw [instancesForRoots, List.append_assoc, List.append_assoc, List.drop_left' (putU64_length period)]
  refine ⟨?_, ?_, ?_, ?_⟩
  · simp only [instancesForRoots, List.length_append, putU64_length, putI64_length]
    omega
  · rw [instancesForRoots, List.append_assoc, List.append_assoc, List.take_left' (putU64_length period)]
  · rw [slice, h8, List.take_left' (putI64_length weight)]
  · rw [← List.drop_drop (i := 8) (j := 8), h8, List.drop_left' (putI64_length weight)]

/-- A Dummy proof is accepted for the statements with its seeds. -/
theorem verifyDummy_iff (ha : a < m31P) (hb : b < m31P) (period : UInt64) (subject : Bytes) (weight : Int64)
    (roots : Bytes) : verifyDummy (dummyStwoProve a b) (instancesForRoots period subject weight roots) = .ok () ↔
      (a, b) = dummySeedsBound period subject weight roots := by
  obtain ⟨hmagic, h4, h5, h6, h10, h14, hlen⟩ := dummyStwoProve_slices a b
  obtain ⟨h16, hperiod, hweight, hrest⟩ := instances_slices period subject weight roots
  have hroots : (padRoots roots).length = objectRootsSize := padTo_length _ _
  have hcut : (if objectRootsSize ≤ (subject ++ padRoots roots).length
      then (subject ++ padRoots roots).length - objectRootsSize else (subject ++ padRoots roots).length) =
      subject.length := by
    rw [List.length_append, hroots, if_pos (by omega)]
    omega
  have hfield : ¬ (a ≥ m31P ∨ b ≥ m31P ∨ dummyM31Hash a b ≥ m31P) := by
    rw [not_or, not_or]
    exact ⟨UInt32.not_le.mpr ha, UInt32.not_le.mpr hb, dummyM31Hash_lt a b⟩
  have hsame :
      dummySeedsBound period subject weight (padRoots roots) = dummySeedsBound period subject weight roots := by
    rw [dummySeedsBound, dummySeedsBound, show padRoots (padRoots roots) = padRoots roots from padTo_of_length hroots]
  unfold verifyDummy
  rw [hlen, failIf_bind, if_neg (by decide), failIf_bind, if_neg (by decide), hmagic, failIf_bind,
    if_neg (not_not.mpr rfl), h4, failIf_bind, if_neg (not_not.mpr rfl), h5, failIf_bind, if_neg (not_not.mpr rfl),
    h6, h10, h14, getLE32_putLE32, getLE32_putLE32, getLE32_putLE32]
  simp only [failIf_bind, if_neg hfield, ne_eq, not_true_eq_false, if_false, ge_iff_le, if_pos h16, hperiod, hweight,
    hrest, getU64_putU64, getI64_putI64]
  rw [hcut, List.take_left, List.drop_left, hsame, failIf_eq_ok, not_not]

end Verify

section Weight

/-- The two halves of a weight, their bytes reversed, in one word. -/
def foldedWeight (w : Int64) : UInt32 :=
  getLE32 (putU32 (w.toUInt64 >>> 32).toUInt32) ^^^ getLE32 (putU32 w.toUInt64.toUInt32)

/-- What the subject and the roots add to the word. -/
def bindingMask (subject roots : Bytes) : UInt32 := laneMix 0 subject ^^^ laneMix 0 (padRoots roots)

private theorem laneWord_eq_getLE32 (a b c d : UInt8) : laneWord a b c d = getLE32 [a, b, c, d] := by
  have hword := laneMix_four_toNat a b c d
  rw [laneMix_four, UInt32.zero_xor] at hword
  rw [getLE32, show [a, b, c, d].reverse = [d, c, b, a] from rfl, ← hword, UInt32.ofNat_toNat]

private theorem putI64_halves (w : Int64) :
    putI64 w = putU32 (w.toUInt64 >>> 32).toUInt32 ++ putU32 w.toUInt64.toUInt32 := by
  have hlt := w.toUInt64.toNat_lt
  have hhi : (w.toUInt64 >>> 32).toUInt32.toNat = w.toUInt64.toNat / 256 ^ 4 := by
    rw [UInt64.toNat_toUInt32, UInt64.toNat_shiftRight, Nat.shiftRight_eq_div_pow]
    simp only [UInt64.reduceToNat, Nat.reduceMod]
    omega
  have hlo : w.toUInt64.toUInt32.toNat = w.toUInt64.toNat % 256 ^ 4 := UInt64.toNat_toUInt32 _
  rw [putI64, putU64, putU32, putU32, hhi, hlo, beBytes_mod]
  exact beBytes_add 4 4 _

theorem laneMix_putI64 (w : Int64) : laneMix 0 (putI64 w) = foldedWeight w := by
  have hfour : ∀ v : UInt32, ∃ a b c d, putU32 v = [a, b, c, d] := by
    intro v
    match putU32 v, putU32_length v with
    | [a, b, c, d], _ => exact ⟨a, b, c, d, rfl⟩
  obtain ⟨a, b, c, d, hhi⟩ := hfour (w.toUInt64 >>> 32).toUInt32
  obtain ⟨e, f, g, h, hlo⟩ := hfour w.toUInt64.toUInt32
  rw [putI64_halves, foldedWeight, hhi, hlo]
  change laneMix 0 [a, b, c, d, e, f, g, h] = _
  rw [laneMix_eight, UInt32.zero_xor, laneWord_eq_getLE32, laneWord_eq_getLE32]

private theorem dummySeedsBound_eq (period : UInt64) (subject : Bytes) (weight : Int64) (roots : Bytes) :
    dummySeedsBound period subject weight roots =
      ((period % m31P.toUInt64).toUInt32, (foldedWeight weight ^^^ bindingMask subject roots) % m31P) := by
  have hmix : ∀ mix b, mixBytes mix b = laneMix mix b := fun _ _ => rfl
  rw [dummySeedsBound, hmix, hmix, hmix, laneMix_putI64, laneMix_eq_xor _ (padRoots roots), laneMix_eq_xor _ subject,
    UInt32.xor_assoc]
  rfl

private theorem period_lt (period : UInt64) : (period % m31P.toUInt64).toUInt32 < m31P := by
  have hp : m31P.toUInt64.toNat = 2 ^ 31 - 1 := by decide
  have hp' : m31P.toNat = 2 ^ 31 - 1 := by decide
  rw [UInt32.lt_iff_toNat_lt, UInt64.toNat_toUInt32, UInt64.toNat_mod, hp, hp']
  omega

end Weight

/-- A proof for a weight is accepted for that weight and no other exactly when the folded words of the two differ
modulo the field. -/
theorem forged_weight_rejected_iff (period : UInt64) (subject roots : Bytes) (w w' : Int64) :
    (verifyDummy (dummyStwoProveBoundRoots period subject w roots)
        (instancesForRoots period subject w' roots) = .ok () ↔ w = w') ↔
    w = w' ∨ ¬ (foldedWeight w ^^^ bindingMask subject roots).toNat ≡
      (foldedWeight w' ^^^ bindingMask subject roots).toNat [MOD 2 ^ 31 - 1] := by
  have hp : m31P.toNat = 2 ^ 31 - 1 := by decide
  have haccept : verifyDummy (dummyStwoProveBoundRoots period subject w roots)
      (instancesForRoots period subject w' roots) = .ok () ↔
      (foldedWeight w ^^^ bindingMask subject roots).toNat ≡
        (foldedWeight w' ^^^ bindingMask subject roots).toNat [MOD 2 ^ 31 - 1] := by
    rw [dummyStwoProveBoundRoots, dummySeedsBound_eq, verifyDummy_iff (period_lt period) (UInt32.mod_lt _ (by decide)),
      dummySeedsBound_eq, Prod.mk.injEq, ← UInt32.toNat_inj (a := _ % m31P), UInt32.toNat_mod, UInt32.toNat_mod, hp]
    exact and_iff_right rfl
  rw [haccept]
  constructor
  · intro h
    by_cases hw : w = w'
    · exact .inl hw
    · exact .inr (fun hc => hw (h.mp hc))
  · rintro (rfl | h)
    · exact iff_of_true rfl rfl
    · exact ⟨fun hc => absurd hc h, fun hw => hw ▸ rfl⟩

/-- A proof for weight 21 is accepted for the weight with 21 in its upper half. -/
theorem weight_in_upper_half_accepted :
    verifyDummy (dummyStwoProveBoundRoots 3 [0x65, 0x64, 0x32, 0x35] 21 [])
      (instancesForRoots 3 [0x65, 0x64, 0x32, 0x35] 90194313216 []) = .ok () ∧ (21 : Int64) ≠ 90194313216 := by
  decide +kernel

section Provers

private theorem dummyStwoProve_eq (a b : UInt32) : dummyStwoProve a b = StwoDummy.DummyStwo.prove ⟨a⟩ ⟨b⟩ := by
  rw [StwoDummy.DummyStwo.prove, StwoDummy.M31.toLEBytes, StwoDummy.M31.toLEBytes, StwoDummy.M31.toLEBytes,
    StwoDummy.dummyM31Hash_raw]
  rfl

private theorem dummyStwoProve_inj {a a' b : UInt32} (h : dummyStwoProve a b = dummyStwoProve a' b) : a = a' := by
  obtain ⟨-, -, -, ha, -⟩ := dummyStwoProve_slices a b
  obtain ⟨-, -, -, ha', -⟩ := dummyStwoProve_slices a' b
  rw [h, ha'] at ha
  rw [← getLE32_putLE32 a, ← ha, getLE32_putLE32]

/-- Reducing the whole period and reducing its low half agree when the modulus divides the high half. -/
private theorem periods_agree_iff (period : UInt64) :
    (period % m31P.toUInt64).toUInt32 = period.toUInt32 % StwoDummy.M31.p ↔ 2 ^ 31 - 1 ∣ period.toNat / 2 ^ 32 := by
  have hp : m31P.toUInt64.toNat = 2 ^ 31 - 1 := by decide
  have hp' : StwoDummy.M31.p.toNat = 2 ^ 31 - 1 := by decide
  have hsplit : period.toNat - period.toNat % 2 ^ 32 = 2 ^ 32 * (period.toNat / 2 ^ 32) := by omega
  have hcoprime : Nat.Coprime (2 ^ 31 - 1) (2 ^ 32) := by decide
  rw [← UInt32.toNat_inj, UInt64.toNat_toUInt32, UInt64.toNat_mod, UInt32.toNat_mod, UInt64.toNat_toUInt32, hp, hp',
    Nat.mod_eq_of_lt ((Nat.mod_lt period.toNat (by decide)).trans (by decide)), ← hcoprime.dvd_mul_left, ← hsplit]
  rw [← Nat.modEq_iff_dvd' (Nat.mod_le _ _)]
  exact ⟨Eq.symm, Eq.symm⟩

end Provers

/-- The two Dummy provers make the same bytes exactly when 2^31 - 1 divides the upper half of the period. -/
theorem dummy_provers_agree_iff (period : UInt64) (subject : Bytes) (weight : Int64) :
    dummyStwoProveBound period subject weight = StwoDummy.DummyStwo.proveBound period subject weight ↔
      2 ^ 31 - 1 ∣ period.toNat / 2 ^ 32 := by
  have hgo : dummyStwoProveBound period subject weight = dummyStwoProve (period % m31P.toUInt64).toUInt32
      (laneMix (laneMix 0 (putI64 weight)) subject % m31P) := by
    have hroots : padRoots [] = List.replicate 96 0 := rfl
    have hmix : ∀ mix b, mixBytes mix b = laneMix mix b := fun _ _ => rfl
    rw [dummyStwoProveBound, dummyStwoProveBoundRoots, dummySeedsBound, hroots, hmix, hmix, hmix,
      laneMix_replicate_zero]
  have hrust : StwoDummy.DummyStwo.proveBound period subject weight = dummyStwoProve
      (period.toUInt32 % StwoDummy.M31.p) (laneMix (laneMix 0 (putI64 weight)) subject % m31P) :=
    (dummyStwoProve_eq _ _).symm
  rw [hgo, hrust, ← periods_agree_iff]
  constructor
  · exact dummyStwoProve_inj
  · intro h
    rw [h]

/-- At period 2^32 the keeper reduces to 2 and the crate to 0. -/
theorem dummy_provers_differ :
    dummyStwoProveBound 4294967296 [0x73] 21 ≠ StwoDummy.DummyStwo.proveBound 4294967296 [0x73] 21 := by
  decide +kernel

end Terpz.Leanval
