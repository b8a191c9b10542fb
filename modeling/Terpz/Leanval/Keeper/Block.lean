import Terpz.Leanval.Keeper.Members

/-! What the application does with a block: the LNPR record found among its transactions is
verified before the block, and applied after it together with the validator updates. -/
namespace Terpz.Leanval.Keeper
open Lib

/-- The first transaction that decodes as a record. -/
def findLNPR (txs : List Bytes) : Option LNPRBlob := txs.findSome? decodeLNPR

/-- A record is verified when it is staged and again when it is applied at the end of the block. -/
def commitBlock (h : Host) (st : Store) (blob : LNPRBlob) (period : UInt64) : Except String Store :=
  match verifyLNPR h st blob false with
  | (_, .error e) => .error e
  | (st, .ok _) =>
    match applyLNPR h st blob with
    | (_, .error e) => .error e
    | (st, .ok _) => .ok (if ownsValset st then (validatorUpdates st period).1 else st)

/-- The store after a block's transactions; a refused block leaves no trace. -/
def finalizeTxs (h : Host) (requireLNPR : Bool) (st : Store) (txs : List Bytes) (period : UInt64) :
    Except String Store :=
  match findLNPR txs with
  | some blob => commitBlock h st blob period
  | none =>
    if requireLNPR then .error "leanval: required LNPR omitted at finalize"
    else .ok (if ownsValset st then (validatorUpdates st period).1 else st)

section Commit
variable {h : Host} {st st' : Store} {blob : LNPRBlob} {period : UInt64}

theorem commitBlock_ok (hok : commitBlock h st blob period = .ok st') :
    (verifyLNPR h st blob false).2 = .ok () ∧
    (verifyLNPR h (verifyLNPR h st blob false).1 blob false).2 = .ok () ∧
    st' = (let st2 := (applyLNPR h (verifyLNPR h st blob false).1 blob).1
      if ownsValset st2 then (validatorUpdates st2 period).1 else st2) := by
  unfold commitBlock at hok
  cases hv : verifyLNPR h st blob false with
  | mk st1 r1 =>
    rw [hv] at hok
    cases r1 with
    | error e => cases hok
    | ok u =>
      simp only at hok
      cases ha : applyLNPR h st1 blob with
      | mk st2 r2 =>
        rw [ha] at hok
        cases r2 with
        | error e => cases hok
        | ok u =>
          refine ⟨rfl, applyLNPR_ok_iff.mp (by rw [ha]), ?_⟩
          exact (Except.ok.inj hok).symm

theorem Sound.commitBlock (hs : Sound st) (hok : Keeper.commitBlock h st blob period = .ok st') : Sound st' := by
  obtain ⟨_, _, rfl⟩ := commitBlock_ok hok
  have h2 := (hs.verifyLNPR h blob false).applyLNPR h blob
  simp only
  split
  · exact h2.validatorUpdates period
  · exact h2

/-- What verification acts, twice over. -/
def stagedActs (h : Host) (st : Store) (blob : LNPRBlob) : List (Act Bytes) :=
  verifyActs h st blob false ++ verifyActs h (verifyLNPR h st blob false).1 blob false

theorem roster_apply_staged (hs : Sound st)
    (hv : (verifyLNPR h (verifyLNPR h st blob false).1 blob false).2 = .ok ()) :
    roster (applyLNPR h (verifyLNPR h st blob false).1 blob).1 =
      ((roster st).acts (stagedActs h st blob)).acts (lnprActs blob.subjects) := by
  rw [roster_applyLNPR (hs.verifyLNPR h blob false), opActs, hv, roster_verifyLNPR, stagedActs, Roster.acts_append,
    Roster.acts_append]

theorem commitBlock_acts (hs : Sound st) (hok : commitBlock h st blob period = .ok st') :
    ∃ as, roster st' = (roster st).acts as := by
  obtain ⟨_, hv, rfl⟩ := commitBlock_ok hok
  simp only
  split
  · exact ⟨_, by rw [roster_validatorUpdates, roster_apply_staged hs hv, ← Roster.acts_append, ← Roster.acts_append]⟩
  · exact ⟨_, by rw [roster_apply_staged hs hv, ← Roster.acts_append]⟩

theorem commitBlock_count_le (hs : Sound st) (hok : commitBlock h st blob period = .ok st') :
    (((roster st).acts (stagedActs h st blob)).acts (lnprActs blob.subjects)).count ≤ (roster st').count := by
  obtain ⟨_, hv, rfl⟩ := commitBlock_ok hok
  rw [← roster_apply_staged hs hv]
  simp only
  split
  · rw [roster_validatorUpdates]
    exact Roster.count_le_acts _ _
  · exact Nat.le_refl _

/-- Once the roster is kept in bits the validator updates leave it alone. -/
theorem roster_endBlock {st : Store} (hwf : (roster st).WF) (hnum : ∃ s i, (roster st).index s = some i)
    (period : UInt64) : roster (if ownsValset st then (validatorUpdates st period).1 else st) = roster st := by
  obtain ⟨s, i, hi⟩ := hnum
  split
  · rw [roster_validatorUpdates, if_pos (usingBits_of_index hwf hi), Roster.acts_nil]
  · rfl

/-- A committed block acts by its verifications and then by its rows. -/
theorem roster_commitBlock (hs : Sound st) (hok : commitBlock h st blob period = .ok st')
    (hnum : ∃ s i, (roster st).index s = some i)
    (hc : (((roster st).acts (stagedActs h st blob)).acts (lnprActs blob.subjects)).count < 2 ^ 32) :
    roster st' = ((roster st).acts (stagedActs h st blob)).acts (lnprActs blob.subjects) := by
  obtain ⟨_, hv, rfl⟩ := commitBlock_ok hok
  have hst2 := roster_apply_staged hs hv
  have hs2 := (hs.verifyLNPR h blob false).applyLNPR h blob
  obtain ⟨s, i, hi⟩ := hnum
  rw [← hst2] at hc ⊢
  refine roster_endBlock (hs2.wf hc) ⟨s, i, ?_⟩ period
  rw [hst2]
  exact Roster.index_acts_of_some (Roster.index_acts_of_some hi _) _

end Commit

section Live
variable {h : Host} {st st' : Store} {blob : LNPRBlob} {period : UInt64}

theorem live_rows {st : Store} (hwf : (roster st).WF) {j : UInt32} (hb : (roster st).bit j = true) :
    (debugSubjectsFromBits st).length ≠ 0 := debugSubjectsFromBits_ne_nil (hwf.bit_lt j hb) hb

theorem stagedActs_live (hwf : (roster st).WF) {j : UInt32} (hb : (roster st).bit j = true) :
    stagedActs h st blob = [] := by
  have hfirst : verifyActs h st blob false = [] := verifyActs_live (live_rows hwf hb)
  have hsame : roster (verifyLNPR h st blob false).1 = roster st := by
    rw [roster_verifyLNPR, hfirst, Roster.acts_nil]
  rw [stagedActs, hfirst, List.nil_append]
  refine verifyActs_live (live_rows (j := j) ?_ ?_)
  · rw [hsame]
    exact hwf
  · rw [hsame]
    exact hb

theorem Sound.finalizeTxs {requireLNPR : Bool} {txs : List Bytes} (hs : Sound st)
    (hok : Keeper.finalizeTxs h requireLNPR st txs period = .ok st') : Sound st' := by
  unfold Keeper.finalizeTxs at hok
  split at hok
  · exact hs.commitBlock hok
  · split at hok
    · cases hok
    · obtain rfl := Except.ok.inj hok
      split
      · exact hs.validatorUpdates period
      · exact hs

/-- A record leaves the members in `P` alone when its positive rows for such subjects name
members and its other rows name none. -/
def Quiet (P : Bytes → Prop) (st : Store) (blob : LNPRBlob) : Prop :=
  (roster st).count + blob.subjects.length < 2 ^ 32 ∧
    ∀ row ∈ blob.subjects, P row.subject → (row.weight > 0 ↔ (roster st).Member row.subject)

private theorem commitBlock_sameOn {P : Bytes → Prop} (hs : Sound st) {s : Bytes} (hm : (roster st).Member s)
    (hq : Quiet P st blob) (hok : commitBlock h st blob period = .ok st') : (roster st).SameOn P (roster st') := by
  obtain ⟨hcount, hrows⟩ := hq
  obtain ⟨i, hi, hb⟩ := hm
  have hwf := hs.wf (by omega)
  have hc : ((roster st).acts (lnprActs blob.subjects)).count < 2 ^ 32 := by
    have hle := (roster st).count_acts_le (lnprActs blob.subjects)
    have hlen : (lnprActs blob.subjects).length ≤ blob.subjects.length := List.length_filterMap_le _ _
    omega
  have hroster := roster_commitBlock hs hok ⟨s, i, hi⟩ (by rwa [stagedActs_live hwf hb])
  rw [stagedActs_live hwf hb, Roster.acts_nil] at hroster
  rw [hroster]
  have hn := lnprActs_nodup (verifyLNPR_ok_nodup (commitBlock_ok hok).1)
  refine Roster.acts_sameOn hwf hc hn hs.stored ?_ ?_ ?_
  · intro t w ht
    obtain ⟨_, _, _, _, _, hw⟩ := mem_lnprActs_enroll.mp ht
    exact hw
  · intro t w ht hp
    obtain ⟨row, hrow, rfl, rfl, _, hw⟩ := mem_lnprActs_enroll.mp ht
    exact (hrows row hrow hp).mp hw
  · intro t ht hp hmem
    obtain ⟨row, hrow, rfl, hw, _⟩ := mem_lnprActs_drop.mp ht
    exact absurd ((hrows row hrow hp).mpr hmem) (Int64.not_lt.mpr hw)

/-- While some bit is set, a block with a quiet record, or with none, keeps the members in `P`. -/
theorem finalizeTxs_sameOn {P : Bytes → Prop} {requireLNPR : Bool} {txs : List Bytes} (hs : Sound st) {s : Bytes}
    (hm : (roster st).Member s) (hcount : (roster st).count < 2 ^ 32)
    (hq : ∀ blob, findLNPR txs = some blob → Quiet P st blob)
    (hok : finalizeTxs h requireLNPR st txs period = .ok st') : (roster st).SameOn P (roster st') := by
  unfold finalizeTxs at hok
  split at hok
  · rename_i blob hfind
    exact commitBlock_sameOn hs hm (hq blob hfind) hok
  · split at hok
    · cases hok
    · obtain rfl := Except.ok.inj hok
      obtain ⟨i, hi, _⟩ := hm
      rw [roster_endBlock (hs.wf hcount) ⟨s, i, hi⟩]
      exact Roster.SameOn.refl P _

end Live

end Terpz.Leanval.Keeper
