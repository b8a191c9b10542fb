import Mathlib.Data.List.Sort
import Terpz.Leanval.Keeper.RosterView

/-! bonded_set(P): the per-period debug rows, and their carry into an empty period.
Carrying a row whose proof was accepted admits its subject again. -/
namespace Terpz.Leanval.Keeper
open Lib Lib.PrefixStore

structure Rec where
  accepted : Bool
  weight : Int64

def encodeRec (accepted : Bool) (weight : Int64) : Bytes :=
  (if accepted then 1 else 0) :: putI64 weight

def decodeRec (v : Bytes) : Rec :=
  if v.length < 9 then ⟨false, 0⟩ else ⟨v.headD 0 == 1, getI64 ((v.drop 1).take 8)⟩

/-- A row without an accepted proof has weight 0, whatever it claims. -/
def bondedRow (pref : Bytes) (e : Bytes × Bytes) : SubjectPower :=
  let r := decodeRec e.2
  ⟨e.1.drop pref.length, if r.accepted then r.weight else 0, r.accepted⟩

def sortBySubject (rows : List SubjectPower) : List SubjectPower :=
  rows.insertionSort (fun a b => a.subject ≤ b.subject)

def bondedSet (st : Store) (period : UInt64) : List SubjectPower :=
  let pref := bondedPrefixForPeriod period
  sortBySubject ((iteratePrefix st pref).map (bondedRow pref))

def putSubject (st : Store) (period : UInt64) (subject : Bytes) (claimedWeight : Int64) : Store :=
  set st (bondedKey period subject) (encodeRec false claimedWeight)

def acceptProof (st : Store) (period : UInt64) (subject : Bytes) (weight : Int64) : Store :=
  admitMember (set st (bondedKey period subject) (encodeRec true weight)) subject weight

/-- Rows of the last non-empty period before `p`. -/
def lastBonded (st : Store) : Nat → List SubjectPower
  | 0 => []
  | p + 1 =>
    let prev := bondedSet st (UInt64.ofNat p)
    if prev.length = 0 then lastBonded st p else prev

def carryRow (period : UInt64) (st : Store) (s : SubjectPower) : Store :=
  if s.hasProof then acceptProof st period s.subject s.weight else putSubject st period s.subject 0

def bondedSetOrCarry (st : Store) (period : UInt64) : Store × List SubjectPower :=
  let rows := bondedSet st period
  if rows.length > 0 || period == 0 then (st, rows)
  else
    let prev := lastBonded st period.toNat
    if prev.length = 0 then (st, rows)
    else
      let st := prev.foldl (carryRow period) st
      (st, bondedSet st period)

def hasBondedOrPrior (st : Store) (period : UInt64) : Bool :=
  (bondedSet st period).length > 0 || (lastBonded st period.toNat).length > 0

/-- The roster from set bits, or from the period rows when no bit is set. -/
def bitsOrCarry (st : Store) (period : UInt64) : Store × List SubjectPower :=
  let bits := debugSubjectsFromBits st
  if bits.length = 0 then bondedSetOrCarry st period else (st, bits)

/-- The rows `bondedSetOrCarry` clones. -/
def carrySource (st : Store) (period : UInt64) : List SubjectPower :=
  if (bondedSet st period).length > 0 || period == 0 then [] else lastBonded st period.toNat

theorem bondedSetOrCarry_store (st : Store) (period : UInt64) :
    (bondedSetOrCarry st period).1 = (carrySource st period).foldl (carryRow period) st := by
  unfold bondedSetOrCarry carrySource
  by_cases hp : ((bondedSet st period).length > 0 || period == 0) = true
  · simp only [hp, if_true, List.foldl_nil]
  · simp only [hp]
    by_cases hl : (lastBonded st period.toNat).length = 0
    · simp [List.length_eq_zero_iff.mp hl]
    · simp [hl]

theorem mem_bondedSet {st : Store} {period : UInt64} {r : SubjectPower} :
    r ∈ bondedSet st period ↔ ∃ v, st[bondedKey period r.subject]? = some v ∧
      r = ⟨r.subject, if (decodeRec v).accepted then (decodeRec v).weight else 0, (decodeRec v).accepted⟩ := by
  have hdrop (s : Bytes) : (bondedPrefixForPeriod period ++ s).drop (bondedPrefixForPeriod period).length = s :=
    List.drop_left
  simp only [bondedSet, sortBySubject, List.mem_insertionSort, List.mem_map]
  constructor
  · rintro ⟨⟨k, v⟩, he, rfl⟩
    obtain ⟨⟨s, rfl⟩, hv⟩ := mem_iteratePrefix.mp he
    refine ⟨v, ?_, ?_⟩
    · simpa only [bondedRow, hdrop, bondedKey] using hv
    · rfl
  · rintro ⟨v, hv, hr⟩
    refine ⟨(bondedKey period r.subject, v), mem_iteratePrefix.mpr ⟨⟨_, rfl⟩, hv⟩, ?_⟩
    rw [hr]
    simp only [bondedRow, bondedKey, hdrop]

/-- A row without an accepted proof has no weight. -/
theorem bondedSet_weight {st : Store} {period : UInt64} {r : SubjectPower} (hr : r ∈ bondedSet st period)
    (hp : r.hasProof = false) : r.weight = 0 := by
  obtain ⟨v, _, hv⟩ := mem_bondedSet.mp hr
  rw [hv] at hp ⊢
  have hp : (decodeRec v).accepted = false := hp
  simp only [hp, Bool.false_eq_true, if_false]

theorem bondedSet_nodup (st : Store) (period : UInt64) : ((bondedSet st period).map (·.subject)).Nodup := by
  have hperm := (List.perm_insertionSort (fun a b : SubjectPower => a.subject ≤ b.subject)
    ((iteratePrefix st (bondedPrefixForPeriod period)).map (bondedRow (bondedPrefixForPeriod period)))).map (·.subject)
  refine hperm.nodup_iff.mpr ?_
  have hkeys := iteratePrefix_keys_nodup st (bondedPrefixForPeriod period)
  rw [List.map_map]
  rw [List.Nodup, List.pairwise_map] at hkeys ⊢
  refine hkeys.imp_of_mem ?_
  intro a b ha hb hne he
  obtain ⟨⟨s, hs⟩, _⟩ := mem_iteratePrefix.mp ha
  obtain ⟨⟨t, ht⟩, _⟩ := mem_iteratePrefix.mp hb
  have he : a.1.drop (bondedPrefixForPeriod period).length = b.1.drop (bondedPrefixForPeriod period).length := he
  rw [← hs, ← ht, List.drop_left, List.drop_left] at he
  exact hne (by rw [← hs, ← ht, he])

theorem bondedSetOrCarry_rows (st : Store) (period : UInt64) :
    (bondedSetOrCarry st period).2 = bondedSet (bondedSetOrCarry st period).1 period := by
  simp only [bondedSetOrCarry]
  split
  · rfl
  · split <;> rfl

theorem mem_lastBonded {st : Store} {n : Nat} {r : SubjectPower} (h : r ∈ lastBonded st n) :
    ∃ p, r ∈ bondedSet st p := by
  induction n with
  | zero => cases h
  | succ n ih =>
    simp only [lastBonded] at h
    split at h
    · exact ih h
    · exact ⟨_, h⟩

theorem mem_carrySource {st : Store} {period : UInt64} {r : SubjectPower} (h : r ∈ carrySource st period) :
    ∃ p, r ∈ bondedSet st p := by
  unfold carrySource at h
  split at h
  · cases h
  · exact mem_lastBonded h

theorem bonded_eq_of_agree {st st' : Store} (h : Agree [bondedPrefix] st st') (period : UInt64) (s : Bytes) :
    st[bondedKey period s]? = st'[bondedKey period s]? := h _ ⟨putU64 period ++ s, rfl⟩

theorem agree_putSubject {b : UInt8} (hb : b ≠ bondedPrefix) (st : Store) (period : UInt64) (s : Bytes) (w : Int64) :
    Agree [b] st (putSubject st period s w) := agree_set_table hb

theorem agree_acceptProof {b : UInt8} (hb : b ∉ bondedPrefix :: rosterTables) (st : Store) (period : UInt64)
    (s : Bytes) (w : Int64) : Agree [b] st (acceptProof st period s w) :=
  (agree_set_table (List.ne_of_not_mem_cons hb)).trans
    (agree_admitMember (List.not_mem_of_not_mem_cons hb) _ _ _)

theorem agree_bondedSetOrCarry {b : UInt8} (hb : b ∉ bondedPrefix :: rosterTables) (st : Store) (period : UInt64) :
    Agree [b] st (bondedSetOrCarry st period).1 := by
  rw [bondedSetOrCarry_store]
  generalize carrySource st period = rows
  induction rows generalizing st with
  | nil => exact Agree.refl _ _
  | cons s rows ih =>
    refine Agree.trans ?_ (ih _)
    unfold carryRow
    cases s.hasProof with
    | true => exact agree_acceptProof hb _ _ _ _
    | false => exact agree_putSubject (List.ne_of_not_mem_cons hb) _ _ _ _

theorem agree_bitsOrCarry {b : UInt8} (hb : b ∉ bondedPrefix :: rosterTables) (st : Store) (period : UInt64) :
    Agree [b] st (bitsOrCarry st period).1 := by
  by_cases hz : (debugSubjectsFromBits st).length = 0
  · simpa only [bitsOrCarry, hz, if_true] using agree_bondedSetOrCarry hb st period
  · simpa only [bitsOrCarry, hz, if_false] using Agree.refl _ _

theorem bondedSet_eq_of_agree {st st' : Store} (h : Agree [bondedPrefix] st st') (period : UInt64) :
    bondedSet st period = bondedSet st' period := by
  have hp : [bondedPrefix] <+: bondedPrefixForPeriod period := ⟨putU64 period, rfl⟩
  rw [bondedSet, bondedSet, (h.mono hp).iteratePrefix_eq]

theorem carrySource_eq_of_agree {st st' : Store} (h : Agree [bondedPrefix] st st') (period : UInt64) :
    carrySource st period = carrySource st' period := by
  have hlast (n : Nat) : lastBonded st n = lastBonded st' n := by
    induction n with
    | zero => rfl
    | succ n ih => rw [lastBonded, lastBonded, bondedSet_eq_of_agree h, ih]
  rw [carrySource, carrySource, bondedSet_eq_of_agree h, hlast]

/-- Every carried row has its own row in the new period. -/
theorem carryRows_mem (st : Store) (period : UInt64) {rows : List SubjectPower} {r : SubjectPower} (hr : r ∈ rows) :
    ∃ t ∈ bondedSet (rows.foldl (carryRow period) st) period, t.subject = r.subject := by
  have hput (st : Store) (s : SubjectPower) (k : Bytes) :
      (carryRow period st s)[bondedKey period k]? =
        if s.subject = k then some (encodeRec s.hasProof (if s.hasProof then s.weight else 0))
        else st[bondedKey period k]? := by
    unfold carryRow
    cases s.hasProof with
    | true =>
      rw [if_pos rfl, acceptProof, ← bonded_eq_of_agree (agree_admitMember (by decide) _ _ _), getElem?_set]
      simp
    | false =>
      rw [if_neg (by simp), putSubject, getElem?_set]
      simp
  have hkey : ∃ v, (rows.foldl (carryRow period) st)[bondedKey period r.subject]? = some v := by
    have hstay (rows : List SubjectPower) (st : Store) (h : ∃ v, st[bondedKey period r.subject]? = some v) :
        ∃ v, (rows.foldl (carryRow period) st)[bondedKey period r.subject]? = some v := by
      induction rows generalizing st with
      | nil => exact h
      | cons s rows ih =>
        refine ih _ ?_
        rw [hput]
        split
        · exact ⟨_, rfl⟩
        · exact h
    obtain ⟨pre, post, rfl⟩ := List.append_of_mem hr
    rw [List.foldl_append, List.foldl_cons]
    refine hstay post _ ?_
    rw [hput, if_pos rfl]
    exact ⟨_, rfl⟩
  obtain ⟨v, hv⟩ := hkey
  exact ⟨⟨r.subject, if (decodeRec v).accepted then (decodeRec v).weight else 0, (decodeRec v).accepted⟩,
    mem_bondedSet.mpr ⟨v, hv, rfl⟩, rfl⟩

/-- After a carry there is nothing left to carry into the period. -/
theorem carrySource_bondedSetOrCarry (st : Store) (period : UInt64) :
    carrySource (bondedSetOrCarry st period).1 period = [] := by
  rw [bondedSetOrCarry_store]
  cases hsrc : carrySource st period with
  | nil => exact hsrc
  | cons r rows =>
    obtain ⟨t, ht, _⟩ := carryRows_mem st period (List.mem_cons_self : r ∈ r :: rows)
    have hlen : (bondedSet ((r :: rows).foldl (carryRow period) st) period).length > 0 := List.length_pos_of_mem ht
    rw [carrySource, if_pos (by rw [decide_eq_true hlen, Bool.true_or])]

def carryActs (rows : List SubjectPower) : List (Act Bytes) :=
  rows.filterMap (fun s => if s.hasProof then some (.enroll s.subject s.weight) else none)

@[simp] theorem roster_putSubject (st : Store) (period : UInt64) (s : Bytes) (w : Int64) :
    roster (putSubject st period s w) = roster st := roster_set rfl

@[simp] theorem roster_acceptProof (st : Store) (period : UInt64) (s : Bytes) (w : Int64) :
    roster (acceptProof st period s w) = (roster st).enroll s w := by
  rw [acceptProof, roster_admitMember, roster_set rfl]

theorem roster_carryRows (st : Store) (period : UInt64) (rows : List SubjectPower) :
    roster (rows.foldl (carryRow period) st) = (roster st).acts (carryActs rows) := by
  induction rows generalizing st with
  | nil => rfl
  | cons s rows ih =>
    rw [List.foldl_cons, ih]
    cases hs : s.hasProof with
    | true => simp [carryRow, hs, carryActs, Roster.act]
    | false => simp [carryRow, hs, carryActs]

theorem roster_bondedSetOrCarry (st : Store) (period : UInt64) :
    roster (bondedSetOrCarry st period).1 = (roster st).acts (carryActs (carrySource st period)) := by
  rw [bondedSetOrCarry_store, roster_carryRows]

/-- What a fall-back to the period rows does to the roster: nothing while a bit is set. -/
def fallbackActs (st : Store) (period : UInt64) : List (Act Bytes) :=
  if (debugSubjectsFromBits st).length = 0 then carryActs (carrySource st period) else []

theorem roster_bitsOrCarry (st : Store) (period : UInt64) :
    roster (bitsOrCarry st period).1 = (roster st).acts (fallbackActs st period) := by
  by_cases hb : (debugSubjectsFromBits st).length = 0
  · simp only [bitsOrCarry, fallbackActs, hb, if_true, roster_bondedSetOrCarry]
  · simp only [bitsOrCarry, fallbackActs, hb, if_false, Roster.acts_nil]

end Terpz.Leanval.Keeper
