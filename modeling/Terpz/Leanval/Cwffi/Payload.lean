import Terpz.Leanval.Types.Keys

/-! The LNCW payload: the opaque blob simplex agrees on, a height and its transactions. -/
namespace Terpz.Leanval.Cwffi
open Lib Lib.BigEndian

/-- ASCII "LNCW". -/
def payloadMagic : Bytes := [0x4C, 0x4E, 0x43, 0x57]
def payloadVersion : UInt8 := 1

structure Payload where
  height : Int64
  txs : List Bytes
  deriving DecidableEq, Repr

def Payload.encode (p : Payload) : Bytes :=
  payloadMagic ++ payloadVersion :: (putI64 p.height ++ beBytes 4 p.txs.length ++
    p.txs.flatMap (fun tx => beBytes 4 tx.length ++ tx))

def decodeTxs : Nat → Bytes → Except String (List Bytes)
  | 0, _ => .ok []
  | n + 1, b =>
    if b.length < 4 then .error "lean-cw: payload truncated"
    else
      let ln := beNat (b.take 4)
      let b := b.drop 4
      if b.length < ln then .error "lean-cw: payload truncated"
      else (decodeTxs n (b.drop ln)).map (b.take ln :: ·)

/-- Bytes after the last transaction are ignored. -/
def decodePayload (b : Bytes) : Except String Payload :=
  if b.length < 4 + 1 + 8 + 4 then .error "lean-cw: payload truncated"
  else if b.take 4 ≠ payloadMagic then .error "lean-cw: bad magic"
  else if b.getD 4 0 ≠ payloadVersion then .error ("lean-cw: bad version " ++ toString (b.getD 4 0))
  else (decodeTxs (beNat ((b.drop 13).take 4)) (b.drop 17)).map (⟨getI64 (b.drop 5), ·⟩)

end Terpz.Leanval.Cwffi
