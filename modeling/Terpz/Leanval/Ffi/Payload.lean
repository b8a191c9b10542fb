import Terpz.Lib.Reads
import Terpz.Leanval.Cwffi.Payload

/-! The engine's own codec of the LNCW payload. Its cursor is 64-bit and never passes the end of the string by
2^32, so it does not wrap. -/
namespace Terpz.Leanval
open Lib Lib.BigEndian Lib.Reads

/-- The loop over the transactions as both codecs run it: how many are left, the cursor, and what was read. Both
stop with one error when the string ends early. -/
def readTxs {ε : Type} (truncated : ε) (b : Bytes) : Nat → Nat → List Bytes → Reads (Except ε (List Bytes))
  | 0, _, txs => .ok (.ok txs)
  | n + 1, i, txs =>
    if i + 4 > b.length then .ok (.error truncated)
    else do
      let len := (getU32 (← slice b i (i + 4))).toNat
      let i := i + 4
      if i + len > b.length then pure (.error truncated)
      else
        let tx ← slice b i (i + len)
        readTxs truncated b n (i + len) (txs ++ [tx])

namespace Ffi

/-- ASCII "LNCW". -/
def payloadMagic : Bytes := [0x4C, 0x4E, 0x43, 0x57]
def payloadVersion : UInt8 := 1

structure Payload where
  height : UInt64
  txs : List Bytes
  deriving DecidableEq, Repr

inductive PayloadError where
  | truncated
  | badMagic
  | badVersion
  deriving DecidableEq, Repr

namespace Payload

def encode (p : Payload) : Bytes :=
  let out := payloadMagic ++ [payloadVersion] ++ putU64 p.height ++ putU32 (UInt32.ofNat p.txs.length)
  p.txs.foldl (fun out tx => out ++ putU32 (UInt32.ofNat tx.length) ++ tx) out

def decode (bytes : Bytes) : Reads (Except PayloadError Payload) :=
  if bytes.length < 4 + 1 + 8 + 4 then .ok (.error .truncated)
  else do
    let magic ← slice bytes 0 4
    if magic ≠ payloadMagic then pure (.error .badMagic)
    else
      let version ← index bytes 4
      if version ≠ payloadVersion then pure (.error .badVersion)
      else
        let height := getU64 (← slice bytes 5 13)
        let n := (getU32 (← slice bytes 13 17)).toNat
        let txs ← readTxs PayloadError.truncated bytes n 17 []
        pure (txs.map (⟨height, ·⟩))

end Payload
end Ffi

theorem getU32_take {b : Bytes} (h : 4 ≤ b.length) : (getU32 (b.take 4)).toNat = beNat (b.take 4) := by
  have hlen : (b.take 4).length = 4 := by
    rw [List.length_take]
    omega
  have hlt := beNat_lt (b.take 4)
  rw [hlen] at hlt
  rw [getU32, if_neg (by omega), List.take_take, Nat.min_self, UInt32.toNat_ofNat', Nat.mod_eq_of_lt (by omega)]

/-- The cursor reads what is read off the rest of the string. -/
theorem readTxs_eq {ε : Type} (truncated : ε) {b : Bytes} (n : Nat) {i : Nat} (hi : i ≤ b.length) (txs : List Bytes) :
    readTxs truncated b n i txs = .ok (match Cwffi.decodeTxs n (b.drop i) with
      | .error _ => .error truncated
      | .ok rest => .ok (txs ++ rest)) := by
  induction n generalizing i txs with
  | zero => simp [readTxs, Cwffi.decodeTxs]
  | succ n ih =>
    rw [readTxs, Cwffi.decodeTxs]
    simp only [List.drop_drop, List.length_drop]
    by_cases hshort : i + 4 > b.length
    · rw [if_pos hshort, if_pos (by omega : b.length - i < 4)]
    · have hfour : 4 ≤ (b.drop i).length := by
        rw [List.length_drop]
        omega
      rw [if_neg hshort, if_neg (by omega : ¬ b.length - i < 4), slice_eq (by omega) (by omega), ok_bind,
        Nat.add_sub_cancel_left, getU32_take hfour]
      generalize beNat ((b.drop i).take 4) = len
      by_cases hlong : i + 4 + len > b.length
      · rw [if_pos hlong, if_pos (by omega : b.length - (i + 4) < len)]
        rfl
      · rw [if_neg hlong, if_neg (by omega : ¬ b.length - (i + 4) < len), slice_eq (by omega) (by omega), ok_bind,
          Nat.add_sub_cancel_left, ih (by omega)]
        cases Cwffi.decodeTxs n (b.drop (i + 4 + len)) with
        | error e => rfl
        | ok rest => simp [Except.map]

end Terpz.Leanval
