import Terpz.Lib.BigEndian
import Terpz.Lib.PrefixStore

/-! Store keys and integer encodings of x/leanval. One KV tree, one prefix byte per table. -/
namespace Terpz.Leanval
open Lib Lib.BigEndian

abbrev Store := PrefixStore UInt8 UInt8

def ownsValsetPrefix : UInt8 := 0x00
def bondedPrefix : UInt8 := 0x01
def lastUpdatesPrefix : UInt8 := 0x03
def objectRootsPrefix : UInt8 := 0x04
def pendingJoinPrefix : UInt8 := 0x05
def pendingLeavePrefix : UInt8 := 0x06
def bitfieldPrefix : UInt8 := 0x10
def depositIndexPrefix : UInt8 := 0x11
def nextDepositIndexPrefix : UInt8 := 0x12
def ebPrefix : UInt8 := 0x13
def periodParamPrefix : UInt8 := 0x17

def objectRootsSize : Nat := 96
def blocksPerPeriod : Int64 := 600

def putU32 (v : UInt32) : Bytes := beBytes 4 v.toNat

def getU32 (src : Bytes) : UInt32 :=
  if src.length < 4 then 0 else UInt32.ofNat (beNat (src.take 4))

def putU64 (v : UInt64) : Bytes := beBytes 8 v.toNat

def getU64 (src : Bytes) : UInt64 :=
  if src.length < 8 then 0 else UInt64.ofNat (beNat (src.take 8))

def putI64 (v : Int64) : Bytes := putU64 v.toUInt64

def getI64 (src : Bytes) : Int64 := (getU64 src).toInt64

/-- One reserved byte before the index. -/
def depositIndexBytes (index : UInt32) : Bytes := 0 :: putU32 index

def ownsValsetKey : Bytes := [ownsValsetPrefix]
def objectRootsKey : Bytes := [objectRootsPrefix]
def periodParamKey : Bytes := [periodParamPrefix]
def bitfieldKey : Bytes := [bitfieldPrefix]
def nextDepositIndexKey : Bytes := [nextDepositIndexPrefix]
def depositIndexKey (subject : Bytes) : Bytes := depositIndexPrefix :: subject
def ebKey (index : UInt32) : Bytes := ebPrefix :: putU32 index
def lastPowerKey (subject : Bytes) : Bytes := lastUpdatesPrefix :: subject
def bondedPrefixForPeriod (period : UInt64) : Bytes := bondedPrefix :: putU64 period
def bondedKey (period : UInt64) (subject : Bytes) : Bytes := bondedPrefixForPeriod period ++ subject
def pendingJoinPrefixForPeriod (period : UInt64) : Bytes := pendingJoinPrefix :: putU64 period
def pendingJoinKey (period : UInt64) (subject : Bytes) : Bytes :=
  pendingJoinPrefixForPeriod period ++ subject
def pendingLeavePrefixForPeriod (period : UInt64) : Bytes := pendingLeavePrefix :: putU64 period
def pendingLeaveKey (period : UInt64) (subject : Bytes) : Bytes :=
  pendingLeavePrefixForPeriod period ++ subject

/-- `live` is the period length committed at genesis; non-positive values mean the default. -/
def periodFromHeight (live height : Int64) : UInt64 :=
  if height < 0 then 0
  else (height / (if live ≤ 0 then blocksPerPeriod else live)).toUInt64

@[simp] theorem putU32_length (v : UInt32) : (putU32 v).length = 4 := by simp [putU32]
@[simp] theorem putU64_length (v : UInt64) : (putU64 v).length = 8 := by simp [putU64]
@[simp] theorem putI64_length (v : Int64) : (putI64 v).length = 8 := by simp [putI64]

theorem getU32_putU32_append (v : UInt32) (rest : Bytes) : getU32 (putU32 v ++ rest) = v := by
  have hlt := v.toNat_lt
  simp only [getU32, List.length_append, putU32_length, List.take_left' (putU32_length v)]
  rw [if_neg (by omega), putU32, beNat_beBytes, Nat.mod_eq_of_lt (by omega), UInt32.ofNat_toNat]

@[simp] theorem getU32_putU32 (v : UInt32) : getU32 (putU32 v) = v := by
  simpa using getU32_putU32_append v []

theorem getU64_putU64_append (v : UInt64) (rest : Bytes) : getU64 (putU64 v ++ rest) = v := by
  have hlt := v.toNat_lt
  simp only [getU64, List.length_append, putU64_length, List.take_left' (putU64_length v)]
  rw [if_neg (by omega), putU64, beNat_beBytes, Nat.mod_eq_of_lt (by omega), UInt64.ofNat_toNat]

@[simp] theorem getU64_putU64 (v : UInt64) : getU64 (putU64 v) = v := by
  simpa using getU64_putU64_append v []

theorem putU32_getU32 {b : Bytes} (h : 4 ≤ b.length) : putU32 (getU32 b) = b.take 4 := by
  have hlen : (b.take 4).length = 4 := by simp [h]
  have hlt := beNat_lt (b.take 4)
  rw [hlen] at hlt
  rw [getU32, if_neg (by omega), putU32, UInt32.toNat_ofNat', Nat.mod_eq_of_lt (by omega)]
  exact beBytes_beNat_of_length hlen

theorem putU64_getU64 {b : Bytes} (h : 8 ≤ b.length) : putU64 (getU64 b) = b.take 8 := by
  have hlen : (b.take 8).length = 8 := by simp [h]
  have hlt := beNat_lt (b.take 8)
  rw [hlen] at hlt
  rw [getU64, if_neg (by omega), putU64, UInt64.toNat_ofNat', Nat.mod_eq_of_lt (by omega)]
  exact beBytes_beNat_of_length hlen

@[simp] theorem getI64_putI64 (v : Int64) : getI64 (putI64 v) = v := by
  simp [getI64, putI64]

theorem putI64_getI64 {b : Bytes} (h : 8 ≤ b.length) : putI64 (getI64 b) = b.take 8 := by
  rw [putI64, getI64, UInt64.toUInt64_toInt64, putU64_getU64 h]

@[simp] theorem getI64_nil : getI64 [] = 0 := rfl

theorem putU32_inj {v w : UInt32} (h : putU32 v = putU32 w) : v = w := by
  simpa using congrArg getU32 h

theorem putU64_inj {v w : UInt64} (h : putU64 v = putU64 w) : v = w := by
  simpa using congrArg getU64 h

@[simp] theorem ebKey_inj {i j : UInt32} : ebKey i = ebKey j ↔ i = j := by
  constructor
  · intro h
    exact putU32_inj (List.cons.inj h).2
  · rintro rfl
    rfl

@[simp] theorem depositIndexKey_inj {s t : Bytes} : depositIndexKey s = depositIndexKey t ↔ s = t := by
  simp [depositIndexKey]

@[simp] theorem lastPowerKey_inj {s t : Bytes} : lastPowerKey s = lastPowerKey t ↔ s = t := by
  simp [lastPowerKey]

/-- A period word has fixed width, so period and subject are both recovered from a key. -/
theorem periodKey_inj {p : UInt8} {a b : UInt64} {s t : Bytes} :
    p :: putU64 a ++ s = p :: putU64 b ++ t ↔ a = b ∧ s = t := by
  constructor
  · intro h
    obtain ⟨hab, hst⟩ := List.append_inj h (by simp)
    exact ⟨putU64_inj (List.cons.inj hab).2, hst⟩
  · rintro ⟨rfl, rfl⟩
    rfl

@[simp] theorem bondedKey_inj {p q : UInt64} {s t : Bytes} :
    bondedKey p s = bondedKey q t ↔ p = q ∧ s = t := periodKey_inj

end Terpz.Leanval
