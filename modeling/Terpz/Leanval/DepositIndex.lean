import Terpz.Leanval.Keeper.Members

/-! The numbering of subjects over every sequence of keeper writes, whatever their arguments.
A write is a list of roster acts, so the numbering is append-only and stays a bijection until
the 32-bit counter wraps. -/
namespace Terpz.Leanval
namespace Roster
variable {σ : Type} [DecidableEq σ]

/-- The second roster is reached from the first by acts. -/
def Leads (r r' : Roster σ) : Prop := ∃ as, r' = r.acts as

theorem Leads.refl (r : Roster σ) : r.Leads r := ⟨[], rfl⟩

theorem Leads.trans {a b c : Roster σ} (hab : a.Leads b) (hbc : b.Leads c) : a.Leads c := by
  obtain ⟨as, rfl⟩ := hab
  obtain ⟨bs, rfl⟩ := hbc
  exact ⟨as ++ bs, (acts_append a as bs).symm⟩

theorem leads_enroll (r : Roster σ) (s : σ) (w : Int64) : r.Leads (r.enroll s w) := ⟨[.enroll s w], rfl⟩

theorem leads_drop (r : Roster σ) (s : σ) : r.Leads (r.drop s) := ⟨[.drop s], rfl⟩

/-- A loop whose turns act on the roster acts on it as a whole. -/
theorem leads_foldl {τ α : Type} (view : τ → Roster σ) {step : τ → α → τ}
    (h : ∀ t a, (view t).Leads (view (step t a))) (t : τ) (as : List α) : (view t).Leads (view (as.foldl step t)) := by
  induction as generalizing t with
  | nil => exact Leads.refl _
  | cons a as ih => exact (h t a).trans (ih (step t a))

end Roster

namespace Keeper
open Lib Lib.PrefixStore Roster

/-- The calls that may write membership, with arbitrary arguments. -/
inductive Write where
  | initGenesis (gs : GenesisState)
  | acceptProof (period : UInt64) (subject : Bytes) (weight : Int64)
  | putSubject (period : UInt64) (subject : Bytes) (claimedWeight : Int64)
  | op (op : Op)

/-- An invalid genesis state panics before the first write. -/
def writeStep (h : Host) (st : Store) : Write → Store
  | .initGenesis gs => (initGenesis st gs).toOption.getD st
  | .acceptProof period subject weight => acceptProof st period subject weight
  | .putSubject period subject claimedWeight => putSubject st period subject claimedWeight
  | .op op => opStep h st op

/-- The numbering of a store: subjects and numbers below the counter correspond one to one, the
scan by number inverts the table, and no flag is set beyond the counter. -/
structure Numbered (st : Store) : Prop where
  lt : ∀ s i, depositIndexOf st s = some i → i < nextDepositIndex st
  inj : ∀ s t i, depositIndexOf st s = some i → depositIndexOf st t = some i → s = t
  surj : ∀ i, i < nextDepositIndex st → ∃ s, depositIndexOf st s = some i
  inverse : ∀ s i, depositIndexOf st s = some i ↔ i < nextDepositIndex st ∧ subjectByIndex st i = s
  bit_lt : ∀ i, bitIsSet st i = true → i < nextDepositIndex st

theorem numbered_of_wf {st : Store} (hwf : (roster st).WF) : Numbered st := by
  refine ⟨hwf.index_lt, hwf.index_inj, hwf.index_surj, ?_, hwf.bit_lt⟩
  intro s i
  constructor
  · intro hi
    exact ⟨hwf.index_lt s i hi, subjectByIndex_eq hwf hi⟩
  · rintro ⟨hlt, rfl⟩
    obtain ⟨s, hs⟩ := hwf.index_surj i hlt
    rw [subjectByIndex_eq hwf hs]
    exact hs

section Writes
variable (h : Host) (st : Store)

/-- The unnamed subject may hold a number here: its rows are then admitted, and never leave. -/
private theorem leads_applyRow (period : UInt64) (s : SubjectProof) :
    (roster st).Leads (roster (applyRow period st s)) := by
  by_cases hne : (roster st).index [] = none
  · exact ⟨_, roster_applyRow hne period s⟩
  · unfold applyRow
    by_cases hw : s.weight ≤ 0
    · rw [if_pos hw]
      cases depositIndexOf st s.subject with
      | none => exact Leads.refl _
      | some i =>
        rw [applyLeave_eq]
        by_cases hl : s.subject.length = 0
        · simp only [hl, if_true]
          exact Leads.refl _
        · simp only [hl, if_false, roster_leaveMember]
          exact leads_drop _ _
    · rw [if_neg hw]
      rw [roster_delete rfl, roster_delete rfl]
      cases depositIndexOf st s.subject with
      | some i =>
        simp only [roster_admitMember]
        exact leads_enroll _ _ _
      | none =>
        by_cases hl : s.subject.length > 0
        · simp only [hl, if_true, roster_acceptProof]
          exact leads_enroll _ _ _
        · simp only [hl, if_false]
          exact Leads.refl _

private theorem leads_applyLNPR (blob : LNPRBlob) : (roster st).Leads (roster (applyLNPR h st blob).1) := by
  have hv : (roster st).Leads (roster (verifyLNPR h st blob false).1) := ⟨_, roster_verifyLNPR h st blob false⟩
  unfold applyLNPR
  generalize verifyLNPR h st blob false = r at hv
  obtain ⟨st1, e | _⟩ := r
  · exact hv
  · simp only [roster_syncObjectRoots]
    exact hv.trans (leads_foldl roster (fun st s => leads_applyRow st blob.period s) st1 blob.subjects)

private theorem leads_op (op : Op) : (roster st).Leads (roster (opStep h st op)) := by
  cases op with
  | applyJoin b =>
    simp only [opStep]
    unfold applyJoin
    cases validateJoin b with
    | error e => exact Leads.refl _
    | ok _ =>
      change (roster st).Leads (roster (acceptProof _ _ _ _))
      rw [roster_acceptProof, roster_set rfl]
      exact leads_enroll _ _ _
  | applyLeave b =>
    simp only [opStep, applyLeave_eq]
    by_cases hl : b.subject.length = 0
    · rw [if_pos hl]
      exact Leads.refl _
    · rw [if_neg hl]
      exact ⟨[.drop b.subject], roster_leaveMember st b.period b.subject⟩
  | verifyLNPR blob skipCrypto => exact ⟨_, roster_verifyLNPR h st blob skipCrypto⟩
  | applyLNPR blob => exact leads_applyLNPR h st blob
  | bondedSetOrCarry period => exact ⟨_, roster_bondedSetOrCarry st period⟩
  | buildLNPR period =>
    have hb := roster_bitsOrCarry (syncObjectRoots st) period
    rw [roster_syncObjectRoots] at hb
    exact ⟨_, hb⟩
  | validatorUpdates period => exact ⟨_, roster_validatorUpdates st period⟩

/-- Every write acts on the roster. -/
theorem leads_write (w : Write) : (roster st).Leads (roster (writeStep h st w)) := by
  cases w with
  | initGenesis gs =>
    simp only [writeStep]
    cases hg : initGenesis st gs with
    | error e => exact Leads.refl _
    | ok st' =>
      rw [initGenesis_eq_ok hg]
      exact ⟨_, roster_genesisStore st gs⟩
  | acceptProof period subject weight => exact ⟨[.enroll subject weight], roster_acceptProof st period subject weight⟩
  | putSubject period subject claimedWeight => exact ⟨[], roster_putSubject st period subject claimedWeight⟩
  | op op => exact leads_op h st op

theorem leads_writes (ws : List Write) : (roster st).Leads (roster (run (writeStep h) st ws)) :=
  leads_foldl roster (leads_write h) st ws

end Writes

/-- In every store reached from the empty one by any writes, while fewer than 2^32 subjects hold a
number, the deposit index is a bijection onto the numbers below the counter that the scan
inverts, no flag lies beyond the counter, and every number given earlier is still its subject's. -/
theorem deposit_index_numbering (h : Host) (pre post : List Write)
    (hc : (roster (run (writeStep h) ∅ (pre ++ post))).count < 2 ^ 32) :
    Numbered (run (writeStep h) ∅ (pre ++ post)) ∧
      ∀ s i, depositIndexOf (run (writeStep h) ∅ pre) s = some i →
        depositIndexOf (run (writeStep h) ∅ (pre ++ post)) s = some i ∧
        ∀ t, depositIndexOf (run (writeStep h) ∅ (pre ++ post)) t = some i → t = s := by
  obtain ⟨as, has⟩ := leads_writes h ∅ (pre ++ post)
  have hwf : (roster (run (writeStep h) ∅ (pre ++ post))).WF := by
    rw [has] at hc ⊢
    exact acts_wf roster_empty_wf as hc
  refine ⟨numbered_of_wf hwf, ?_⟩
  intro s i hi
  obtain ⟨bs, hbs⟩ := leads_writes h (run (writeStep h) ∅ pre) post
  rw [← run_append] at hbs
  have hkept : (roster (run (writeStep h) ∅ (pre ++ post))).index s = some i := by
    rw [hbs]
    exact index_acts_of_some hi bs
  exact ⟨hkept, fun t ht => hwf.index_inj t s i ht hkept⟩

/-- The unnamed subject, a row without weight, a leave and a carried period. -/
def mixedWrites : List Write :=
  [.acceptProof 0 [] 0, .initGenesis soloGenesis, .op (.applyLeave ⟨0, keyOf 0xa1⟩), .op (.bondedSetOrCarry 1)]

theorem deposit_index_numbering_mixed :
    Numbered (run (writeStep dummyHost) ∅ mixedWrites) ∧
      depositIndexOf (run (writeStep dummyHost) ∅ mixedWrites) [] = some 0 ∧
      depositIndexOf (run (writeStep dummyHost) ∅ mixedWrites) (keyOf 0xa1) = some 1 := by
  have hfacts : (roster (run (writeStep dummyHost) ∅ mixedWrites)).count < 2 ^ 32 ∧
      depositIndexOf (run (writeStep dummyHost) ∅ (mixedWrites.take 2)) [] = some 0 ∧
      depositIndexOf (run (writeStep dummyHost) ∅ (mixedWrites.take 2)) (keyOf 0xa1) = some 1 := by
    decide +kernel
  obtain ⟨hnum, hkept⟩ := deposit_index_numbering dummyHost (mixedWrites.take 2) (mixedWrites.drop 2) hfacts.1
  exact ⟨hnum, (hkept _ _ hfacts.2.1).1, (hkept _ _ hfacts.2.2).1⟩

end Keeper
end Terpz.Leanval
