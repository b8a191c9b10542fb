import Terpz.Lib.LaneMix
import Terpz.Leanval.Keeper.Proofs

/-! The lean-stwo-dummy crate: the field, the footer ids, and the Dummy prover. -/
namespace Terpz.Leanval.StwoDummy
open Lib Keeper

def circuitTypeStwo : UInt8 := 2
def curveTypeM31 : UInt8 := 5

inductive VerifyError where
  | proofTooLarge (len : Nat)
  | badMagic
  | truncated
  | unsupportedCircuitType (v : UInt8)
  | unsupportedCurve (v : UInt8)
  | wrongProverId (got : UInt8)
  | wrongCurveId (got : UInt8)
  | notInM31 (v : UInt32)
  | publicInputMismatch
  | statementFalse
  | stwoVerify
  deriving DecidableEq, Repr

inductive CircuitType where
  | plonkish
  | groth16
  | stwo
  deriving DecidableEq, Repr

def CircuitType.fromU8 : UInt8 → Except VerifyError CircuitType
  | 0 => .ok .plonkish
  | 1 => .ok .groth16
  | 2 => .ok .stwo
  | v => .error (.unsupportedCircuitType v)

inductive CurveType where
  | pasta
  | bn254
  | m31
  deriving DecidableEq, Repr

def CurveType.fromU8 : UInt8 → Except VerifyError CurveType
  | 0 => .ok .pasta
  | 4 => .ok .bn254
  | 5 => .ok .m31
  | v => .error (.unsupportedCurve v)

/-- A word taken for a field element; only `new` checks that it is one. -/
structure M31 where
  raw : UInt32
  deriving DecidableEq, Repr

namespace M31

def p : UInt32 := ((1 : UInt32) <<< 31) - 1

def new (raw : UInt32) : Except VerifyError M31 := if raw ≥ p then .error (.notInM31 raw) else .ok ⟨raw⟩

def fromLEBytes (b : Bytes) : Except VerifyError M31 := new (getLE32 b)

def toLEBytes (a : M31) : Bytes := putLE32 a.raw

def add (a b : M31) : M31 := ⟨((a.raw.toUInt64 + b.raw.toUInt64) % p.toUInt64).toUInt32⟩

def mul (a b : M31) : M31 := ⟨((a.raw.toUInt64 * b.raw.toUInt64) % p.toUInt64).toUInt32⟩

end M31

def dummyM31Hash (a b : M31) : M31 := (((⟨3⟩ : M31).mul a).add ((⟨5⟩ : M31).mul b)).add ⟨7⟩

namespace DummyStwo

def prove (a b : M31) : Bytes :=
  dummyMagic ++ [circuitTypeStwo, curveTypeM31] ++ a.toLEBytes ++ b.toLEBytes ++ (dummyM31Hash a b).toLEBytes

/-- The period is cut to 32 bits before it is reduced. -/
def proveBound (period : UInt64) (subject : Bytes) (weight : Int64) : Bytes :=
  let mix := laneMix (laneMix 0 (putI64 weight)) subject
  prove ⟨period.toUInt32 % M31.p⟩ ⟨mix % M31.p⟩

end DummyStwo

section Hash

private theorem reduce_toNat (x : UInt64) : (x % M31.p.toUInt64).toUInt32.toNat = x.toNat % (2 ^ 31 - 1) := by
  have hp : M31.p.toUInt64.toNat = 2 ^ 31 - 1 := by decide
  rw [UInt64.toNat_toUInt32, UInt64.toNat_mod, hp]
  omega

theorem M31.add_toNat (a b : M31) : (a.add b).raw.toNat = (a.raw.toNat + b.raw.toNat) % (2 ^ 31 - 1) := by
  have ha := a.raw.toNat_lt
  have hb := b.raw.toNat_lt
  rw [add, reduce_toNat, UInt64.toNat_add, UInt32.toNat_toUInt64, UInt32.toNat_toUInt64,
    Nat.mod_eq_of_lt (a := a.raw.toNat + b.raw.toNat) (by omega)]

theorem M31.mul_toNat (a b : M31) : (a.mul b).raw.toNat = a.raw.toNat * b.raw.toNat % (2 ^ 31 - 1) := by
  have hlt : a.raw.toNat * b.raw.toNat < 2 ^ 64 :=
    Nat.mul_lt_mul_of_lt_of_le (c := 2 ^ 32) a.raw.toNat_lt b.raw.toNat_lt.le (by decide)
  rw [mul, reduce_toNat, UInt64.toNat_mul, UInt32.toNat_toUInt64, UInt32.toNat_toUInt64, Nat.mod_eq_of_lt hlt]

/-- Reducing at every step is reducing once. -/
theorem dummyM31Hash_toNat (a b : M31) :
    (dummyM31Hash a b).raw.toNat = (3 * a.raw.toNat + 5 * b.raw.toNat + 7) % (2 ^ 31 - 1) := by
  simp only [dummyM31Hash, M31.add_toNat, M31.mul_toNat]
  rw [show (3 : UInt32).toNat = 3 from rfl, show (5 : UInt32).toNat = 5 from rfl, show (7 : UInt32).toNat = 7 from rfl]
  omega

/-- The hash is the one the keeper computes. -/
theorem dummyM31Hash_raw (a b : M31) : (dummyM31Hash a b).raw = Keeper.dummyM31Hash a.raw b.raw := by
  have ha := a.raw.toNat_lt
  have hb := b.raw.toNat_lt
  have hsum : (3 * a.raw.toUInt64 + 5 * b.raw.toUInt64 + 7).toNat = 3 * a.raw.toNat + 5 * b.raw.toNat + 7 := by
    simp only [UInt64.toNat_add, UInt64.toNat_mul, UInt32.toNat_toUInt64]
    rw [show (3 : UInt64).toNat = 3 from rfl, show (5 : UInt64).toNat = 5 from rfl,
      show (7 : UInt64).toNat = 7 from rfl]
    omega
  apply UInt32.toNat_inj.mp
  rw [dummyM31Hash_toNat, Keeper.dummyM31Hash, show m31P = M31.p by decide, reduce_toNat, hsum]

end Hash
end Terpz.Leanval.StwoDummy
