import Terpz.Lib.Run
import Terpz.Leanval.Keeper.Acts

/-! The keeper as a transition system: the operations that run between genesis and any
later store, each with the roster acts it performs. -/
namespace Terpz.Leanval.Keeper
open Lib Lib.PrefixStore

inductive Op where
  | applyJoin (b : JoinBlob)
  | applyLeave (b : LeaveBlob)
  | verifyLNPR (blob : LNPRBlob) (skipCrypto : Bool)
  | applyLNPR (blob : LNPRBlob)
  | bondedSetOrCarry (period : UInt64)
  | buildLNPR (period : UInt64)
  | validatorUpdates (period : UInt64)

/-- The store after an operation; a rejected one may still have written. -/
def opStep (h : Host) (st : Store) : Op → Store
  | .applyJoin b => (applyJoin st b).toOption.getD st
  | .applyLeave b => (applyLeave st b).toOption.getD st
  | .verifyLNPR blob skipCrypto => (verifyLNPR h st blob skipCrypto).1
  | .applyLNPR blob => (applyLNPR h st blob).1
  | .bondedSetOrCarry period => (bondedSetOrCarry st period).1
  | .buildLNPR period => (bitsOrCarry (syncObjectRoots st) period).1
  | .validatorUpdates period => (validatorUpdates st period).1

/-- Stores reached from a genesis state by keeper operations. -/
def Reachable (h : Host) (st : Store) : Prop :=
  ∃ gs st0 ops, initGenesis ∅ gs = .ok st0 ∧ st = run (opStep h) st0 ops

theorem Sound.op {st : Store} (hs : Sound st) (h : Host) (op : Op) : Sound (opStep h st op) := by
  cases op with
  | applyJoin b =>
    simp only [opStep]
    cases hr : Keeper.applyJoin st b with
    | error e => exact hs
    | ok st' => exact hs.applyJoin hr
  | applyLeave b =>
    simp only [opStep]
    cases hr : Keeper.applyLeave st b with
    | error e => exact hs
    | ok st' => exact hs.applyLeave hr
  | verifyLNPR blob skipCrypto => exact hs.verifyLNPR h blob skipCrypto
  | applyLNPR blob => exact hs.applyLNPR h blob
  | bondedSetOrCarry period => exact hs.bondedSetOrCarry period
  | buildLNPR period => exact hs.syncObjectRoots.bitsOrCarry period
  | validatorUpdates period => exact hs.validatorUpdates period

theorem Sound.runOps {st : Store} (hs : Sound st) (h : Host) (ops : List Op) : Sound (run (opStep h) st ops) :=
  Along.invariant (C := fun _ _ => True) (fun _ op hs _ => hs.op h op) hs (Along.of_forall (fun _ _ => trivial) _ _)

theorem Reachable.sound {h : Host} {st : Store} (hr : Reachable h st) : Sound st := by
  obtain ⟨gs, st0, ops, hg, rfl⟩ := hr
  rw [initGenesis_eq_ok hg]
  exact (sound_empty.genesisStore gs).runOps h ops

/-- Only validator updates write outside the membership tables. -/
theorem agree_opStep {b : UInt8} (hb : b ∉ lnprTables) (h : Host) (st : Store) {op : Op}
    (hop : ∀ period, op ≠ .validatorUpdates period) : Agree [b] st (opStep h st op) := by
  have hbond : b ∉ bondedPrefix :: rosterTables := List.not_mem_of_not_mem_cons (List.not_mem_of_not_mem_cons hb)
  cases op with
  | applyJoin jb =>
    simp only [opStep]
    unfold applyJoin
    cases validateJoin jb with
    | error e => exact Agree.refl _ _
    | ok _ =>
      have hset : Agree [b] st (set st (pendingJoinKey jb.period jb.subject) (putI64 jb.weight)) :=
        agree_set_table (c := pendingJoinPrefix) (List.ne_of_not_mem_cons hb)
      exact hset.trans (agree_acceptProof hbond _ _ _ _)
  | applyLeave lb =>
    simp only [opStep, applyLeave_eq]
    by_cases hl : lb.subject.length = 0
    · rw [if_pos hl]
      exact Agree.refl _ _
    · rw [if_neg hl]
      exact agree_leaveMember hb st lb.period lb.subject
  | verifyLNPR blob skipCrypto => exact agree_verifyLNPR hb h st blob skipCrypto
  | applyLNPR blob => exact agree_applyLNPR hb h st blob
  | bondedSetOrCarry period => exact agree_bondedSetOrCarry hbond st period
  | buildLNPR period =>
    exact (agree_syncObjectRoots (List.not_mem_of_not_mem_cons hbond) st).trans (agree_bitsOrCarry hbond _ period)
  | validatorUpdates period => exact absurd rfl (hop period)

/-- A node as the keeper's tests build one: Dummy proofs allowed, nothing linked or on PATH. -/
def dummyHost : Host where
  allowDummy := true
  verifier := some verifyDummy
  sudoProofInstanceVerify := none
  verifyStwoInProcess _ _ := .error "leanval: wasmvm Stwo host not linked"
  foldBin := none
  valsetAir := .error "lean-stwo-dummy crate not found"

/-- A node whose wasm host accepts a proof for exactly the instance bytes it carries. -/
def stwoHost : Host :=
  { dummyHost with verifyStwoInProcess := fun proof inst => failIf (proof ≠ stwoMagic ++ inst) "stwo verify" }

/-- A 32-byte key of one repeated byte. -/
def keyOf (b : UInt8) : Bytes := List.replicate 32 b

/-- A chain of one validator with weight 10. -/
def soloGenesis : GenesisState := ⟨true, [⟨keyOf 0xa1, 10⟩], 0⟩

/-- A chain of two validators with weight 10 each. -/
def duoGenesis : GenesisState := ⟨true, [⟨keyOf 0xa1, 10⟩, ⟨keyOf 0xb2, 10⟩], 0⟩

/-- The acts of an operation, read off its input and the store it starts from. -/
def opActs (h : Host) (st : Store) : Op → List (Act Bytes)
  | .applyJoin b => if b.subject.length = 0 ∨ b.weight ≤ 0 then [] else [.enroll b.subject b.weight]
  | .applyLeave b => if b.subject.length = 0 then [] else [.drop b.subject]
  | .verifyLNPR blob skipCrypto => verifyActs h st blob skipCrypto
  | .applyLNPR blob =>
    verifyActs h st blob false ++
      (match (verifyLNPR h st blob false).2 with
        | .ok _ => lnprActs blob.subjects
        | .error _ => [])
  | .bondedSetOrCarry period => carryActs (carrySource st period)
  | .buildLNPR period => fallbackActs (syncObjectRoots st) period
  | .validatorUpdates period => if usingBits st then [] else carryActs (carrySource st period)

theorem mem_carryActs {rows : List SubjectPower} {s : Bytes} {w : Int64} :
    .enroll s w ∈ carryActs rows ↔ ∃ r ∈ rows, r.hasProof = true ∧ r.subject = s ∧ r.weight = w := by
  rw [carryActs, List.mem_filterMap]
  constructor
  · rintro ⟨r, hr, hp⟩
    split at hp
    · rename_i hproof
      obtain ⟨rfl, rfl⟩ := Act.enroll.inj (Option.some.inj hp)
      exact ⟨r, hr, hproof, rfl, rfl⟩
    · cases hp
  · rintro ⟨r, hr, hproof, rfl, rfl⟩
    exact ⟨r, hr, if_pos hproof⟩

/-- Carried rows enrol named subjects that hold a number, with positive weight. -/
theorem Sound.carryActs {st : Store} (hs : Sound st) {period : UInt64} {s : Bytes} {w : Int64}
    (h : .enroll s w ∈ carryActs (carrySource st period)) :
    s ≠ [] ∧ w > 0 ∧ ((roster st).index s).isSome = true := by
  obtain ⟨r, hr, hp, rfl, rfl⟩ := mem_carryActs.mp h
  obtain ⟨p, hr⟩ := mem_carrySource hr
  obtain ⟨hw, hne, hi⟩ := hs.bonded hr hp
  exact ⟨hne, hw, hi⟩

theorem Sound.fallbackActs {st : Store} (hs : Sound st) {period : UInt64} {s : Bytes} {w : Int64}
    (h : .enroll s w ∈ fallbackActs st period) : s ≠ [] ∧ w > 0 ∧ ((roster st).index s).isSome = true := by
  unfold Keeper.fallbackActs at h
  split at h
  · exact hs.carryActs h
  · cases h

theorem Sound.verifyActs {st : Store} (hs : Sound st) {h : Host} {blob : LNPRBlob} {skipCrypto : Bool} {s : Bytes}
    {w : Int64} (he : .enroll s w ∈ verifyActs h st blob skipCrypto) :
    s ≠ [] ∧ w > 0 ∧ ((roster st).index s).isSome = true := by
  unfold Keeper.verifyActs at he
  split at he
  · cases he
  · split at he
    · cases he
    · split at he
      · cases he
      · exact hs.fallbackActs he

theorem Sound.opActs {st : Store} (hs : Sound st) {h : Host} {op : Op} {s : Bytes} {w : Int64}
    (he : .enroll s w ∈ opActs h st op) : s ≠ [] ∧ w > 0 := by
  cases op with
  | applyJoin b =>
    simp only [Keeper.opActs] at he
    split at he
    · cases he
    · rename_i hb
      rw [not_or, Int64.not_le] at hb
      obtain ⟨rfl, rfl⟩ := Act.enroll.inj (List.mem_singleton.mp he)
      exact ⟨fun hnil => hb.1 (by rw [hnil]; rfl), hb.2⟩
  | applyLeave b =>
    simp only [Keeper.opActs] at he
    split at he
    · cases he
    · cases List.mem_singleton.mp he
  | verifyLNPR blob skipCrypto =>
    obtain ⟨hne, hw, _⟩ := hs.verifyActs he
    exact ⟨hne, hw⟩
  | applyLNPR blob =>
    rcases List.mem_append.mp he with he | he
    · obtain ⟨hne, hw, _⟩ := hs.verifyActs he
      exact ⟨hne, hw⟩
    · split at he
      · obtain ⟨_, _, _, _, hne, hw⟩ := mem_lnprActs_enroll.mp he
        exact ⟨hne, hw⟩
      · cases he
  | bondedSetOrCarry period =>
    obtain ⟨hne, hw, _⟩ := hs.carryActs he
    exact ⟨hne, hw⟩
  | buildLNPR period =>
    obtain ⟨hne, hw, _⟩ := hs.syncObjectRoots.fallbackActs he
    exact ⟨hne, hw⟩
  | validatorUpdates period =>
    simp only [Keeper.opActs] at he
    split at he
    · cases he
    · obtain ⟨hne, hw, _⟩ := hs.carryActs he
      exact ⟨hne, hw⟩

theorem roster_applyLNPR {st : Store} (hs : Sound st) (h : Host) (blob : LNPRBlob) :
    roster (applyLNPR h st blob).1 = (roster st).acts (opActs h st (.applyLNPR blob)) := by
  have hv := roster_verifyLNPR h st blob false
  have hne := (hs.verifyLNPR h blob false).subject_ne
  simp only [opActs, Roster.acts_append, ← hv]
  unfold applyLNPR
  generalize verifyLNPR h st blob false = r at hv hne
  obtain ⟨st1, e | _⟩ := r
  · rfl
  · exact (roster_syncObjectRoots _).trans (roster_applyRows hne _ _)

/-- A set bit below the counter shows up in the bit roster. -/
theorem debugSubjectsFromBits_ne_nil {st : Store} {i : UInt32} (hi : i < nextDepositIndex st)
    (hb : bitIsSet st i = true) : (debugSubjectsFromBits st).length ≠ 0 := by
  have hmem : i ∈ indices (nextDepositIndex st) :=
    List.mem_map.mpr ⟨i.toNat, List.mem_range.mpr (UInt32.lt_iff_toNat_lt.mp hi), UInt32.ofNat_toNat⟩
  intro hl
  have hnone := List.filterMap_eq_nil_iff.mp (List.length_eq_zero_iff.mp hl) i hmem
  simp [bitRow, hb] at hnone

/-- Verification acts by the fall-back or not at all. -/
theorem verifyActs_cases (h : Host) (st : Store) (blob : LNPRBlob) (skipCrypto : Bool) :
    verifyActs h st blob skipCrypto = [] ∨ verifyActs h st blob skipCrypto = fallbackActs st blob.period := by
  unfold verifyActs
  split
  · exact .inl rfl
  · split
    · exact .inl rfl
    · split
      · exact .inl rfl
      · exact .inr rfl

theorem verifyActs_live {h : Host} {st : Store} {blob : LNPRBlob} {skipCrypto : Bool}
    (hl : (debugSubjectsFromBits st).length ≠ 0) : verifyActs h st blob skipCrypto = [] := by
  rcases verifyActs_cases h st blob skipCrypto with hv | hv
  · exact hv
  · rw [hv, fallbackActs, if_neg hl]

/-- While a bit is set, an accepted record acts by its rows alone. -/
theorem roster_applyLNPR_live {st : Store} (hs : Sound st) {h : Host} {blob : LNPRBlob}
    (hl : (debugSubjectsFromBits st).length ≠ 0) (hv : (verifyLNPR h st blob false).2 = .ok ()) :
    roster (applyLNPR h st blob).1 = (roster st).acts (lnprActs blob.subjects) := by
  rw [roster_applyLNPR hs, opActs, verifyActs_live hl, hv]
  rfl

theorem roster_validatorUpdates (st : Store) (period : UInt64) :
    roster (validatorUpdates st period).1 =
      (roster st).acts (if usingBits st then [] else carryActs (carrySource st period)) := by
  unfold validatorUpdates
  split
  · exact roster_sendUpdates st _ _
  · exact (roster_sendUpdates _ _ _).trans (roster_bondedSetOrCarry st period)

/-- The keeper simulates the roster: one operation is its list of acts. -/
theorem roster_opStep {st : Store} (hs : Sound st) (h : Host) (op : Op) :
    roster (opStep h st op) = (roster st).acts (opActs h st op) := by
  cases op with
  | applyJoin b =>
    simp only [opStep, opActs]
    unfold applyJoin validateJoin
    by_cases hl : b.subject.length = 0
    · simp only [hl, if_true, true_or]
      rfl
    · by_cases hw : b.weight ≤ 0
      · simp only [hl, hw, if_true, if_false, or_true]
        rfl
      · simp only [hl, hw, if_false, or_self]
        change roster (acceptProof _ _ _ _) = _
        rw [roster_acceptProof, roster_set rfl]
        rfl
  | applyLeave b =>
    simp only [opStep, opActs, applyLeave_eq]
    by_cases hl : b.subject.length = 0
    · simp only [hl, if_true]
      rfl
    · simp only [hl, if_false]
      exact roster_leaveMember st b.period b.subject
  | verifyLNPR blob skipCrypto => exact roster_verifyLNPR h st blob skipCrypto
  | applyLNPR blob => exact roster_applyLNPR hs h blob
  | bondedSetOrCarry period => exact roster_bondedSetOrCarry st period
  | buildLNPR period => exact (roster_bitsOrCarry _ period).trans (by rw [roster_syncObjectRoots]; rfl)
  | validatorUpdates period => exact roster_validatorUpdates st period

end Terpz.Leanval.Keeper
