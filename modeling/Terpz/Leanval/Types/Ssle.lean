import Terpz.Leanval.Types.Inject

/-! The hide-until-block record a proposer injects: a ticket, the proposer it stands for, and a proof. -/
namespace Terpz.Leanval
open Lib

/-- ASCII "SSLE". -/
def prefixSSLE : Bytes := [0x53, 0x53, 0x4C, 0x45]

structure SSLEBlob where
  period : UInt64
  height : Int64
  ticket : Bytes
  proposer : Bytes
  proof : Bytes
  deriving DecidableEq, Repr

/-- A ticket is cut or zero-filled to 32 bytes, a proposer is cut to 255. -/
def encodeSSLE (b : SSLEBlob) : Bytes :=
  let proposer := b.proposer.take 255
  let ticket := b.ticket.take 32 ++ List.replicate (32 - b.ticket.length) 0
  prefixSSLE ++ putU64 b.period ++ putU64 b.height.toUInt64 ++ ticket ++
    UInt8.ofNat proposer.length :: (proposer ++ b.proof)

def decodeSSLE (tx : Bytes) : Option SSLEBlob :=
  if !hasPrefix tx prefixSSLE || tx.length < 4 + 8 + 8 + 32 + 1 then none
  else
    let plen := (tx.getD 52 0).toNat
    if 53 + plen > tx.length then none
    else some {
      period := getU64 ((tx.drop 4).take 8)
      height := (getU64 ((tx.drop 12).take 8)).toInt64
      ticket := (tx.drop 20).take 32
      proposer := (tx.drop 53).take plen
      proof := tx.drop (53 + plen) }

/-- The first element that decodes, and its position. -/
def findSSLE (txs : List Bytes) : Option (SSLEBlob × Nat) :=
  txs.zipIdx.findSome? (fun e => (decodeSSLE e.1).map (·, e.2))

theorem findSSLE_eq_some {txs : List Bytes} {blob : SSLEBlob} {i : Nat} (h : findSSLE txs = some (blob, i)) :
    ∃ tx, txs[i]? = some tx ∧ decodeSSLE tx = some blob := by
  obtain ⟨⟨tx, j⟩, hmem, he⟩ := List.exists_of_findSome?_eq_some h
  obtain ⟨b, hb, hpair⟩ := Option.map_eq_some_iff.mp he
  obtain ⟨rfl, rfl⟩ := Prod.mk.inj hpair
  exact ⟨tx, List.mk_mem_zipIdx_iff_getElem?.mp hmem, hb⟩

end Terpz.Leanval
