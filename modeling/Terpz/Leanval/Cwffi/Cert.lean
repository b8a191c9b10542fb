import Terpz.Leanval.Keeper.Bitfield
import Terpz.Leanval.Keeper.Proofs

/-! The LCERT wire of a simplex finalization, and the weight of its signers. -/
namespace Terpz.Leanval.Cwffi
open Lib Lib.BigEndian

/-- ASCII "LCERT". -/
def lcertMagic : Bytes := [0x4C, 0x43, 0x45, 0x52, 0x54]
def lcertVersion : UInt8 := 1

structure CertSigner where
  index : UInt32
  signature : Bytes
  deriving DecidableEq, Repr

structure LeanCert where
  epoch : UInt64
  view : UInt64
  digest : Bytes
  signers : List CertSigner
  raw : Bytes
  deriving DecidableEq, Repr

def LeanCert.zero : LeanCert := ⟨0, 0, [], [], []⟩

def certSigners : Nat → Bytes → List CertSigner
  | 0, _ => []
  | n + 1, b => ⟨getU32 (b.take 4), (b.drop 4).take 64⟩ :: certSigners n (b.drop 68)

/-- The engine's encoder: a signature fills a slot of 64 bytes. -/
def encodeLcert (c : LeanCert) : Bytes :=
  lcertMagic ++ lcertVersion :: (putU64 c.epoch ++ putU64 c.view ++ c.digest ++ beBytes 4 c.signers.length ++
    c.signers.flatMap (fun s => putU32 s.index ++ Keeper.padTo 64 s.signature) ++ beBytes 4 c.raw.length ++ c.raw)

/-- The certificate as far as it was read, beside the error that stopped the reading: a caller
that ignores the error still sees the fields before it. -/
def parseLeanCert (b : Bytes) : LeanCert × Option String :=
  if b.length < 5 + 1 + 8 + 8 + 32 + 4 then (.zero, some "lean-cw: truncated certificate")
  else if b.take 5 ≠ lcertMagic then ({ LeanCert.zero with raw := b }, none)
  else if b.getD 5 0 ≠ lcertVersion then (.zero, some ("lean-cw: bad cert version " ++ toString (b.getD 5 0)))
  else
    let z : LeanCert := ⟨getU64 (b.drop 6), getU64 (b.drop 14), (b.drop 22).take 32, [], []⟩
    let n := beNat ((b.drop 54).take 4)
    if n > 4096 then (z, some ("lean-cw: absurd signer count " ++ toString n))
    else if b.length < 58 + n * (4 + 64) + 4 then (z, some "lean-cw: truncated signers")
    else
      let z := { z with signers := certSigners n (b.drop 58) }
      let i := 58 + n * (4 + 64)
      let rawLen := beNat ((b.drop i).take 4)
      if i + 4 + rawLen > b.length then (z, some "lean-cw: truncated raw finalization")
      else ({ z with raw := (b.drop (i + 4)).take rawLen }, none)

/-- The key at an index of the concatenated list, when it is there in full. -/
def keyAt (pks : Bytes) (idx : UInt32) : Option Bytes :=
  if idx.toNat * 32 + 32 > pks.length then none else some ((pks.drop (idx.toNat * 32)).take 32)

/-- Sums wrap at 64 bits; an index beyond the weights adds nothing. -/
def signedWeight (c : LeanCert) (weights : List UInt64) : UInt64 :=
  c.signers.foldl (fun w s => w + (weights[s.index.toNat]?).getD 0) 0

def totalWeight (weights : List UInt64) : UInt64 := weights.foldl (· + ·) 0

/-- Strictly more than two thirds. -/
def meetsWeight (signed total : UInt64) : Bool := decide (total > 0) && decide (signed * 3 > total * 2)

def containsDSTW (b : Bytes) : Bool := Keeper.containsBytes b Keeper.dummyMagic

end Terpz.Leanval.Cwffi
