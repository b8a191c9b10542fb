import Terpz.Leanval.Keeper.Merkle

/-! Bitfield, deposit index and EB tree: the membership source of truth. -/
namespace Terpz.Leanval.Keeper
open Lib Lib.PrefixStore

/-- A fixed-size buffer after `copy`: longer input is cut, shorter input is zero-filled. -/
def padTo (n : Nat) (b : Bytes) : Bytes := b.take n ++ List.replicate (n - b.length) 0

theorem padTo_length (n : Nat) (b : Bytes) : (padTo n b).length = n := by
  rw [padTo, List.length_append, List.length_take, List.length_replicate]
  omega

theorem padTo_of_length {n : Nat} {b : Bytes} (h : b.length = n) : padTo n b = b := by
  simp [padTo, ← h]

structure SubjectPower where
  subject : Bytes
  weight : Int64
  hasProof : Bool
  deriving DecidableEq, Repr

def nextDepositIndex (st : Store) : UInt32 := getU32 (get st nextDepositIndexKey)

def setNextDepositIndex (st : Store) (n : UInt32) : Store := set st nextDepositIndexKey (putU32 n)

def bitfield (st : Store) : Bytes :=
  if (get st bitfieldKey).length = 0 then [0] else get st bitfieldKey

def bitMask (idx : UInt32) : UInt8 := 1 <<< UInt8.ofNat (idx.toNat % 8)

def bitGet (bf : Bytes) (idx : UInt32) : Bool :=
  match bf[idx.toNat / 8]? with
  | none => false
  | some b => b &&& bitMask idx != 0

def bitSet (bf : Bytes) (idx : UInt32) (on : Bool) : Bytes :=
  (bf ++ List.replicate (idx.toNat / 8 + 1 - bf.length) 0).modify (idx.toNat / 8)
    (fun b => if on then b ||| bitMask idx else b &&& ~~~(bitMask idx))

def setBitfield (st : Store) (b : Bytes) : Store :=
  set st bitfieldKey (if b.length = 0 then [0] else b)

def bitIsSet (st : Store) (idx : UInt32) : Bool := bitGet (bitfield st) idx

/-- A deposit-index value counts only with its reserved byte. -/
def indexOfValue (v : Bytes) : Option UInt32 :=
  if v.length < 5 then none else some (getU32 (v.drop (v.length - 4)))

def depositIndexOf (st : Store) (subject : Bytes) : Option UInt32 :=
  indexOfValue (get st (depositIndexKey subject))

def subjectByIndex (st : Store) (want : UInt32) : Bytes :=
  match (iteratePrefix st [depositIndexPrefix]).find? (fun e => indexOfValue e.2 == some want) with
  | some (key, _) => key.drop 1
  | none => []

def ebOf (st : Store) (idx : UInt32) : UInt8 := (get st (ebKey idx)).headD 0

def indices (n : UInt32) : List UInt32 := (List.range n.toNat).map UInt32.ofNat

def depositLeaves (st : Store) : List Bytes :=
  (indices (nextDepositIndex st)).map (fun i => depositLeaf (subjectByIndex st i) i)

def ebLeaves (st : Store) : List Bytes :=
  (indices (nextDepositIndex st)).map (fun i => ebLeaf (ebOf st i))

def bitfieldRoot (st : Store) : Bytes := sha256 (bitfield st)
def depositTreeRoot (st : Store) : Bytes := merkleRoot (depositLeaves st)
def ebTreeRoot (st : Store) : Bytes := merkleRoot (ebLeaves st)

def lastObjectRoots (st : Store) : Bytes := padTo objectRootsSize (get st objectRootsKey)

def setLastObjectRoots (st : Store) (roots : Bytes) : Store :=
  set st objectRootsKey (padTo objectRootsSize roots)

def syncObjectRoots (st : Store) : Store :=
  setLastObjectRoots st (bitfieldRoot st ++ depositTreeRoot st ++ ebTreeRoot st)

def setBit (st : Store) (idx : UInt32) : Store :=
  syncObjectRoots (setBitfield st (bitSet (bitfield st) idx true))

def clearBit (st : Store) (idx : UInt32) : Store :=
  syncObjectRoots (setBitfield st (bitSet (bitfield st) idx false))

/-- The longer field's length; a missing byte counts as zero. -/
def orMergeBitfield (st : Store) (other : Bytes) : Store :=
  let cur := bitfield st
  syncObjectRoots (setBitfield st ((List.range (max cur.length other.length)).map
    (fun i => cur.getD i 0 ||| other.getD i 0)))

def allocateIndex (st : Store) (subject : Bytes) : Store × UInt32 :=
  match depositIndexOf st subject with
  | some idx => (st, idx)
  | none =>
    let n := nextDepositIndex st
    let st := set st (depositIndexKey subject) (depositIndexBytes n)
    (syncObjectRoots (setNextDepositIndex st (n + 1)), n)

def ebFromWeight (w : Int64) : UInt8 :=
  if w ≤ 0 then 0 else if w > 255 then 255 else w.toUInt64.toUInt8

def setEB (st : Store) (idx : UInt32) (eb : UInt8) : Store :=
  syncObjectRoots (set st (ebKey idx) [eb])

/-- An effective-balance byte that is already stored is never overwritten here. -/
def admitMember (st : Store) (subject : Bytes) (weight : Int64) : Store :=
  let (st, idx) := allocateIndex st subject
  if weight > 0 then
    let st := if (get st (ebKey idx)).length = 0 then setEB st idx (ebFromWeight weight) else st
    setBit st idx
  else st

/-- The row of one set bit; a subject that cannot be read back is named by its index. -/
def bitRow (st : Store) (i : UInt32) : Option SubjectPower :=
  if !bitIsSet st i then none
  else
    let subj := subjectByIndex st i
    let subj := if subj.length = 0 then depositIndexBytes i else subj
    let eb := ebOf st i
    some ⟨subj, eb.toUInt64.toInt64, eb > 0⟩

def debugSubjectsFromBits (st : Store) : List SubjectPower :=
  (indices (nextDepositIndex st)).filterMap (bitRow st)

/-- A positive weight is stored as itself, capped at 255. -/
theorem ebFromWeight_toNat {w : Int64} (hw : w > 0) : ((ebFromWeight w).toNat : Int) = min w.toInt 255 := by
  have hpos : 0 < w.toInt := by simpa [Int64.lt_iff_toInt_lt] using hw
  have hcap : w > 255 ↔ 255 < w.toInt := by simp [Int64.lt_iff_toInt_lt]
  have hnat : (w.toUInt64.toNat : Int) = w.toInt := by
    have hbv : w.toInt = w.toBitVec.toInt := rfl
    have hu : w.toUInt64.toNat = w.toBitVec.toNat := rfl
    rw [hbv, BitVec.toInt_eq_toNat_cond] at hpos ⊢
    rw [hu]
    have := w.toBitVec.isLt
    split at hpos <;> split <;> omega
  unfold ebFromWeight
  rw [if_neg (Int64.not_le.mpr hw)]
  by_cases h : w > 255
  · have := hcap.mp h
    rw [if_pos h, min_eq_right (by omega)]
    rfl
  · have : ¬ 255 < w.toInt := fun hc => h (hcap.mpr hc)
    rw [if_neg h, min_eq_left (by omega), UInt64.toNat_toUInt8]
    omega

theorem ebFromWeight_ne_zero {w : Int64} (hw : w > 0) : ebFromWeight w ≠ 0 := by
  intro h
  have hv := ebFromWeight_toNat hw
  have hpos : 0 < w.toInt := by simpa [Int64.lt_iff_toInt_lt] using hw
  rw [h] at hv
  simp only [UInt8.toNat_zero] at hv
  omega

private theorem byte_bit (b : UInt8) (k : Nat) (hk : k < 8) :
    (b &&& (1 <<< UInt8.ofNat k) != 0) = b.toBitVec.getLsbD k := by
  have h : ∀ (v : BitVec 8) (k : Fin 8),
      (UInt8.ofBitVec v &&& (1 <<< UInt8.ofNat k.val) != 0) = v.getLsbD k.val := by decide +kernel
  exact h b.toBitVec ⟨k, hk⟩

private theorem mask_bit (k j : Nat) (hk : k < 8) (hj : j < 8) :
    ((1 : UInt8) <<< UInt8.ofNat k).toBitVec.getLsbD j = decide (k = j) := by
  have h : ∀ k j : Fin 8, ((1 : UInt8) <<< UInt8.ofNat k.val).toBitVec.getLsbD j.val =
      decide (k.val = j.val) := by decide +kernel
  exact h ⟨k, hk⟩ ⟨j, hj⟩

theorem bitGet_eq_getLsbD (bf : Bytes) (j : UInt32) :
    bitGet bf j = (bf[j.toNat / 8]?.getD 0).toBitVec.getLsbD (j.toNat % 8) := by
  have hm : j.toNat % 8 < 8 := Nat.mod_lt _ (by decide)
  unfold bitGet
  cases hb : bf[j.toNat / 8]? with
  | none => simp
  | some b => exact byte_bit b _ hm

private theorem bitSet_byte (bf : Bytes) (i : UInt32) (on : Bool) (q : Nat) :
    (bitSet bf i on)[q]?.getD 0 =
      if q = i.toNat / 8 then
        (if on then bf[q]?.getD 0 ||| bitMask i else bf[q]?.getD 0 &&& ~~~(bitMask i))
      else bf[q]?.getD 0 := by
  have hext : (bf ++ List.replicate (i.toNat / 8 + 1 - bf.length) 0)[q]?.getD 0 = bf[q]?.getD 0 := by
    rw [List.getElem?_append]
    split
    · rfl
    · rename_i hlt
      rw [List.getElem?_replicate, List.getElem?_eq_none (by omega)]
      split <;> rfl
  unfold bitSet
  rw [List.getElem?_modify]
  by_cases hq : i.toNat / 8 = q
  · have hlen : q < (bf ++ List.replicate (i.toNat / 8 + 1 - bf.length) (0 : UInt8)).length := by
      rw [List.length_append, List.length_replicate]
      omega
    rw [if_pos hq.symm, ← hext, List.getElem?_eq_getElem hlen]
    simp [hq]
  · rw [if_neg (Ne.symm hq), ← hext]
    simp [hq]

/-- Writing one participation bit changes no other bit, also when the field grows. -/
theorem bitGet_bitSet (bf : Bytes) (i j : UInt32) (on : Bool) :
    bitGet (bitSet bf i on) j = if j = i then on else bitGet bf j := by
  have hi : i.toNat % 8 < 8 := Nat.mod_lt _ (by decide)
  have hj : j.toNat % 8 < 8 := Nat.mod_lt _ (by decide)
  rw [bitGet_eq_getLsbD, bitGet_eq_getLsbD, bitSet_byte]
  by_cases hq : j.toNat / 8 = i.toNat / 8
  · have heq : j = i ↔ i.toNat % 8 = j.toNat % 8 := by
      rw [← UInt32.toNat_inj]
      omega
    have hmask := mask_bit (i.toNat % 8) (j.toNat % 8) hi hj
    rw [if_pos hq]
    cases on
    · simp only [Bool.false_eq_true, if_false, UInt8.toBitVec_and, UInt8.toBitVec_not,
        BitVec.getLsbD_and, BitVec.getLsbD_not, bitMask, hmask, hj, heq]
      by_cases hc : i.toNat % 8 = j.toNat % 8 <;> simp [hc]
    · simp only [if_true, UInt8.toBitVec_or, BitVec.getLsbD_or, bitMask, hmask, heq]
      by_cases hc : i.toNat % 8 = j.toNat % 8 <;> simp [hc]
  · have hne : j ≠ i := by
      rintro rfl
      exact hq rfl
    rw [if_neg hq, if_neg hne]

end Terpz.Leanval.Keeper
