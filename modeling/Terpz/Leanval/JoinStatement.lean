import Terpz.Leanval.Keeper.Reach

/-! The statement the verifier checks for a row beside what the application stores for it.
The verifier counts rows or JOIN extras; the application keeps old numbers and old balances. -/
namespace Terpz.Leanval

namespace Roster
variable {σ : Type} [DecidableEq σ]

/-- The act hands out a new number. -/
def fresh (r : Roster σ) : Act σ → Bool
  | .enroll s _ => (r.index s).isNone
  | .drop _ => false

theorem index_act_of_ne {r : Roster σ} {a : Act σ} {t : σ} (h : t ≠ a.subject) : (r.act a).index t = r.index t := by
  cases a with
  | enroll s w => exact (index_enroll r s t w).trans (if_neg h)
  | drop s => exact congrFun (index_drop r s) t

private theorem count_act (r : Roster σ) (a : Act σ) : (r.act a).count = r.count + if r.fresh a then 1 else 0 := by
  cases a with
  | enroll s w => cases h : r.index s <;> simp [act, enroll, fresh, h]
  | drop s =>
    simp only [act, drop, fresh]
    cases r.index s <;> rfl

/-- Acts on distinct subjects count the fresh ones among them. -/
theorem count_acts {r : Roster σ} {as : List (Act σ)} (hn : (as.map Act.subject).Nodup) :
    (r.acts as).count = r.count + as.countP r.fresh := by
  induction as generalizing r with
  | nil => rfl
  | cons a as ih =>
    obtain ⟨ha, hn⟩ := List.nodup_cons.mp hn
    have hsame : as.countP (r.act a).fresh = as.countP r.fresh := by
      refine List.countP_congr ?_
      intro b hb
      have hne : b.subject ≠ a.subject := fun he => ha (he ▸ List.mem_map_of_mem hb)
      cases b with
      | enroll t w =>
        have hidx : (r.act a).index t = r.index t := index_act_of_ne hne
        simp only [fresh, hidx]
      | drop t => rfl
    rw [acts_cons, ih hn, hsame, count_act, List.countP_cons]
    omega

/-- Enrolling numbered subjects again moves bits only. -/
theorem acts_numbered {r : Roster σ} (hst : r.Stored) {as : List (Act σ)}
    (has : ∀ a ∈ as, ∃ s w, a = .enroll s w ∧ (r.index s).isSome = true) :
    (r.acts as).next = r.next ∧ (r.acts as).count = r.count ∧ (r.acts as).index = r.index ∧ (r.acts as).eb = r.eb := by
  induction as generalizing r with
  | nil => exact ⟨rfl, rfl, rfl, rfl⟩
  | cons a as ih =>
    obtain ⟨s, w, rfl, hs⟩ := has a List.mem_cons_self
    obtain ⟨i, hi⟩ := Option.isSome_iff_exists.mp hs
    obtain ⟨hnext, hcount, hidx⟩ := enroll_of_index w hi
    have heb : (r.enroll s w).eb = r.eb := by
      simp only [enroll, slot_of_index hi, hst s i hi, and_false, if_false]
    have hst' : (r.enroll s w).Stored := by
      intro t j hj
      rw [hidx] at hj
      rw [heb]
      exact hst t j hj
    rw [acts_cons, act]
    have has' : ∀ b ∈ as, ∃ t v, b = .enroll t v ∧ ((r.enroll s w).index t).isSome = true := by
      intro b hb
      rw [hidx]
      exact has b (List.mem_cons_of_mem _ hb)
    obtain ⟨h1, h2, h3, h4⟩ := ih hst' has'
    exact ⟨h1.trans hnext, h2.trans hcount, h3.trans hidx, h4.trans heb⟩

end Roster

namespace Keeper
open Lib

/-- A row whose own proof is checked, and the deposit number it is checked for. -/
structure Statement where
  pos : Nat
  row : SubjectProof
  index : UInt64
  deriving DecidableEq

/-- The rows the loop sends to the valset verifier: JOIN extras by a running counter, and
without an aggregate the other STWO rows by their position. -/
def checkedRows (fold : Option Bytes) (known : List Bytes) : Nat → UInt64 → List SubjectProof → List Statement
  | _, _, [] => []
  | i, extraIdx, s :: rest =>
    if isExtra known s then ⟨i, s, extraIdx⟩ :: checkedRows fold known (i + 1) (extraIdx + 1) rest
    else if fold.isSome then checkedRows fold known (i + 1) extraIdx rest
    else if hasStwoMagic s.proof then ⟨i, s, UInt64.ofNat i⟩ :: checkedRows fold known (i + 1) extraIdx rest
    else checkedRows fold known (i + 1) extraIdx rest

def statements (st : Store) (blob : LNPRBlob) : List Statement :=
  let (st, known) := bitsOrCarry st blob.period
  checkedRows (foldProofFromLNPR blob) (known.map (·.subject)) 0 (nextDepositIndex st).toUInt64 blob.subjects

section Link
variable {h : Host} {period : UInt64} {roots : Bytes} {fold : Option Bytes} {known : List Bytes}

private theorem verifySubjectProof_stwo {index : UInt64} {s : SubjectProof} (hm : hasStwoMagic s.proof = true)
    (hv : verifySubjectProof h period index s roots = .ok ()) :
    verifyValsetStwo h s.proof period index (claimedEB s.weight) = .ok () := by
  rwa [verifySubjectProof, if_pos hm] at hv

/-- A row that passes was checked for the number it was given. -/
private theorem verifyRow_ok {i raw raw' : Nat} {extraIdx extraIdx' : UInt64} {s : SubjectProof}
    (hv : verifyRow h period roots fold known i raw extraIdx s = .ok (raw', extraIdx')) :
    (isExtra known s = true → extraIdx' = extraIdx + 1 ∧
      verifyValsetStwo h s.proof period extraIdx (claimedEB s.weight) = .ok ()) ∧
    (isExtra known s = false → extraIdx' = extraIdx ∧ (fold.isSome = false → hasStwoMagic s.proof = true →
      verifyValsetStwo h s.proof period (UInt64.ofNat i) (claimedEB s.weight) = .ok ())) := by
  simp only [verifyRow] at hv
  obtain ⟨_, hv⟩ := failIf_bind_eq_ok.mp hv
  obtain ⟨_, hv⟩ := failIf_bind_eq_ok.mp hv
  obtain ⟨_, hv⟩ := failIf_bind_eq_ok.mp hv
  cases he : isExtra known s with
  | true =>
    rw [he, if_pos rfl] at hv
    obtain ⟨_, hv⟩ := failIf_bind_eq_ok.mp hv
    obtain ⟨_, hv⟩ := failIf_bind_eq_ok.mp hv
    obtain ⟨hmagic, hv⟩ := failIf_bind_eq_ok.mp hv
    obtain ⟨_, hv⟩ := failIf_bind_eq_ok.mp hv
    refine ⟨fun _ => ?_, fun hf => absurd hf (by simp)⟩
    have hmagic : hasStwoMagic s.proof = true := by simpa using hmagic
    cases hp : verifySubjectProof h period extraIdx s roots with
    | error e =>
      rw [hp] at hv
      cases hv
    | ok _ =>
      rw [hp] at hv
      obtain ⟨_, rfl⟩ := Prod.mk.inj (Except.ok.inj hv)
      exact ⟨rfl, verifySubjectProof_stwo hmagic hp⟩
  | false =>
    rw [he, if_neg (by simp)] at hv
    refine ⟨fun hf => absurd hf (by simp), fun _ => ?_⟩
    cases hfold : fold.isSome with
    | true =>
      rw [hfold, if_pos rfl] at hv
      obtain ⟨_, rfl⟩ := Prod.mk.inj (Except.ok.inj hv)
      exact ⟨rfl, fun hf => absurd hf (by simp)⟩
    | false =>
      rw [hfold, if_neg (by simp)] at hv
      obtain ⟨_, hv⟩ := failIf_bind_eq_ok.mp hv
      obtain ⟨_, hp, hv⟩ := bind_eq_ok.mp hv
      obtain ⟨_, rfl⟩ := Prod.mk.inj (Except.ok.inj hv)
      exact ⟨rfl, fun _ hmagic => verifySubjectProof_stwo hmagic hp⟩

private theorem checkedRows_spec {i raw : Nat} {extraIdx : UInt64} {rows : List SubjectProof} {c : Statement}
    (hv : verifyRows h period roots fold known i raw extraIdx rows = .ok ())
    (hc : c ∈ checkedRows fold known i extraIdx rows) :
    (∃ p, c.pos = i + p ∧ rows[p]? = some c.row) ∧
      verifyValsetStwo h c.row.proof period c.index (claimedEB c.row.weight) = .ok () := by
  induction rows generalizing i raw extraIdx with
  | nil => cases hc
  | cons s rows ih =>
    obtain ⟨⟨raw', extraIdx'⟩, hrow, hrest⟩ := bind_eq_ok.mp hv
    obtain ⟨hextra, hother⟩ := verifyRow_ok hrow
    have htail (hc : c ∈ checkedRows fold known (i + 1) extraIdx' rows) :
        (∃ p, c.pos = i + p ∧ (s :: rows)[p]? = some c.row) ∧
          verifyValsetStwo h c.row.proof period c.index (claimedEB c.row.weight) = .ok () := by
      obtain ⟨⟨p, hp, hget⟩, hval⟩ := ih hrest hc
      exact ⟨⟨p + 1, by omega, hget⟩, hval⟩
    rw [checkedRows] at hc
    cases he : isExtra known s with
    | true =>
      obtain ⟨rfl, hval⟩ := hextra he
      rw [if_pos he] at hc
      rcases List.mem_cons.mp hc with rfl | hc
      · exact ⟨⟨0, rfl, rfl⟩, hval⟩
      · exact htail hc
    | false =>
      obtain ⟨rfl, hval⟩ := hother he
      rw [if_neg (by simp [he])] at hc
      cases hf : fold.isSome with
      | true =>
        rw [if_pos hf] at hc
        exact htail hc
      | false =>
        rw [if_neg (by simp [hf])] at hc
        split at hc
        · rename_i hmagic
          rcases List.mem_cons.mp hc with rfl | hc
          · exact ⟨⟨0, rfl, rfl⟩, hval hf hmagic⟩
          · exact htail hc
        · exact htail hc

end Link

/-- The row admits a subject that holds no number yet. -/
def freshRow (st : Store) (s : SubjectProof) : Bool :=
  decide (s.subject ≠ []) && decide (s.weight > 0) && (depositIndexOf st s.subject).isNone

/-- The checked number is the one the subject holds, with the claimed balance stored unless the
row leaves, or the one a new subject will be given. -/
def Matches (st : Store) (blob : LNPRBlob) (c : Statement) : Prop :=
  (∃ i, depositIndexOf st c.row.subject = some i ∧ i.toNat = c.index.toNat ∧
    (c.row.weight ≤ 0 ∨ ebOf st i = claimedEB c.row.weight)) ∨
  (freshRow st c.row = true ∧
    c.index.toNat = (nextDepositIndex st).toNat + (blob.subjects.take c.pos).countP (freshRow st))

section Admitted
variable {r : Roster Bytes} {rows : List SubjectProof}

private theorem countP_lnprActs (r : Roster Bytes) (rows : List SubjectProof) :
    (lnprActs rows).countP r.fresh = rows.countP (fun s =>
      decide (s.subject ≠ []) && decide (s.weight > 0) && (r.index s.subject).isNone) := by
  induction rows with
  | nil => rfl
  | cons s rows ih =>
    rw [List.countP_cons, ← ih]
    by_cases hl : s.subject.length = 0
    · have hnil : s.subject = [] := List.length_eq_zero_iff.mp hl
      have ha : lnprActs (s :: rows) = lnprActs rows := by
        rw [lnprActs, List.filterMap_cons, rowAct, if_pos hl]
        rfl
      simp [ha, hnil]
    · have hne : s.subject ≠ [] := fun hnil => hl (by rw [hnil]; rfl)
      by_cases hw : s.weight ≤ 0
      · have ha : lnprActs (s :: rows) = .drop s.subject :: lnprActs rows := by
          rw [lnprActs, List.filterMap_cons, rowAct, if_neg hl, if_pos hw]
          rfl
        have hw' : ¬ s.weight > 0 := Int64.not_lt.mpr hw
        simp [ha, hw', Roster.fresh]
      · have ha : lnprActs (s :: rows) = .enroll s.subject s.weight :: lnprActs rows := by
          rw [lnprActs, List.filterMap_cons, rowAct, if_neg hl, if_neg hw]
          rfl
        simp [ha, Int64.not_le.mp hw, hne, List.countP_cons, Roster.fresh]

variable (hwf : r.WF) (hn : (rows.map (·.subject)).Nodup) (hc : (r.acts (lnprActs rows)).count < 2 ^ 32)
  {s : SubjectProof}
include hwf hn hc

/-- A numbered subject keeps its number; only a leaving row changes the byte. -/
private theorem numbered_row (hst : r.Stored) (hnil : r.index [] = none) (hs : s ∈ rows) {i : UInt32}
    (hi : r.index s.subject = some i) :
    (r.acts (lnprActs rows)).index s.subject = some i ∧
      (r.acts (lnprActs rows)).eb i = if s.weight ≤ 0 then some 0 else r.eb i := by
  refine ⟨Roster.index_acts_of_some hi _, ?_⟩
  have hne : s.subject ≠ [] := by
    intro he
    rw [he, hnil] at hi
    cases hi
  by_cases hw : s.weight ≤ 0
  · rw [if_pos hw]
    exact (Roster.acts_drop hwf hc (lnprActs_nodup hn) (mem_lnprActs_drop.mpr ⟨s, hs, rfl, hw, hne⟩) hi).2
  · have hw' := Int64.not_le.mp hw
    obtain ⟨b, hb⟩ := Option.ne_none_iff_exists'.mp (hst _ i hi)
    rw [if_neg hw, hb]
    exact (Roster.acts_enroll_stored hwf hc (lnprActs_nodup hn)
      (mem_lnprActs_enroll.mpr ⟨s, hs, rfl, rfl, hne, hw'⟩) hw' hi hb).2

/-- A new subject is given the next free number and the claimed byte. -/
private theorem fresh_row {p : Nat} (hp : rows[p]? = some s) (hi : r.index s.subject = none) (hne : s.subject ≠ [])
    (hw : s.weight > 0) :
    ∃ i, (r.acts (lnprActs rows)).index s.subject = some i ∧
      i.toNat = r.next.toNat + (lnprActs (rows.take p)).countP r.fresh ∧
      (r.acts (lnprActs rows)).eb i = some (ebFromWeight s.weight) := by
  have hsplit : rows = rows.take p ++ s :: rows.drop (p + 1) := by
    obtain ⟨hlt, rfl⟩ := List.getElem?_eq_some_iff.mp hp
    rw [← List.drop_eq_getElem_cons hlt, List.take_append_drop]
  have hl : ¬ s.subject.length = 0 := fun hl => hne (List.length_eq_zero_iff.mp hl)
  have hacts : lnprActs rows =
      lnprActs (rows.take p) ++ .enroll s.subject s.weight :: lnprActs (rows.drop (p + 1)) := by
    conv_lhs => rw [hsplit]
    rw [lnprActs, List.filterMap_append, List.filterMap_cons, rowAct, if_neg hl, if_neg (Int64.not_le.mpr hw)]
    rfl
  obtain ⟨hidx, _, heb⟩ := Roster.acts_enroll hwf hc (lnprActs_nodup hn) hacts hw
  have hcount : (r.acts (lnprActs (rows.take p))).count < 2 ^ 32 := by
    have hle := (r.acts (lnprActs (rows.take p))).count_le_acts
      (.enroll s.subject s.weight :: lnprActs (rows.drop (p + 1)))
    rw [← Roster.acts_append, ← hacts] at hle
    omega
  have hwf' := Roster.acts_wf hwf _ hcount
  have hpre : (r.acts (lnprActs (rows.take p))).index s.subject = none := by
    refine Roster.index_acts_of_none hi ?_
    intro w hm
    have hnd := lnprActs_nodup hn
    rw [hacts, List.map_append, List.map_cons, List.nodup_append] at hnd
    exact hnd.2.2 s.subject (List.mem_map.mpr ⟨_, hm, rfl⟩) s.subject List.mem_cons_self rfl
  rw [Roster.eb_fresh_slot hwf' hpre] at heb
  refine ⟨_, hidx, ?_, heb⟩
  have hnp : ((rows.take p).map (·.subject)).Nodup := by
    rw [List.map_take]
    exact hn.sublist (List.take_sublist _ _)
  rw [Roster.slot_of_fresh hpre, hwf'.next_eq, Roster.count_acts (lnprActs_nodup hnp), hwf.next_eq]

omit hwf hc in
/-- A subject without a number that the row does not admit stays without one. -/
private theorem unadmitted_row (hs : s ∈ rows) (hi : r.index s.subject = none)
    (hno : ¬ (s.subject ≠ [] ∧ s.weight > 0)) : (r.acts (lnprActs rows)).index s.subject = none := by
  refine Roster.index_acts_of_none hi ?_
  intro w hw
  obtain ⟨t, ht, he, rfl, hne, hpos⟩ := mem_lnprActs_enroll.mp hw
  obtain rfl := List.inj_on_of_nodup_map hn ht hs he.symm
  exact hno ⟨hne, hpos⟩

private theorem row_admitted_iff (hst : r.Stored) (hnil : r.index [] = none) {p : Nat} (hp : rows[p]? = some s)
    (n : Nat) :
    (∃ i, (r.acts (lnprActs rows)).index s.subject = some i ∧ i.toNat = n ∧
        (r.acts (lnprActs rows)).eb i = some (ebFromWeight s.weight)) ↔
      (∃ i, r.index s.subject = some i ∧ i.toNat = n ∧ (s.weight ≤ 0 ∨ r.eb i = some (ebFromWeight s.weight))) ∨
      ((s.subject ≠ [] ∧ s.weight > 0) ∧ r.index s.subject = none ∧
        n = r.next.toNat + (lnprActs (rows.take p)).countP r.fresh) := by
  have hs : s ∈ rows := List.mem_of_getElem? hp
  cases hi : r.index s.subject with
  | some i =>
    obtain ⟨hidx, heb⟩ := numbered_row hwf hn hc hst hnil hs hi
    have hbyte : (r.acts (lnprActs rows)).eb i = some (ebFromWeight s.weight) ↔
        s.weight ≤ 0 ∨ r.eb i = some (ebFromWeight s.weight) := by
      rw [heb]
      by_cases hw : s.weight ≤ 0
      · simp [hw, ebFromWeight]
      · simp [hw]
    simp [hidx, hbyte]
  | none =>
    by_cases hadm : s.subject ≠ [] ∧ s.weight > 0
    · obtain ⟨i, hidx, hnum, heb⟩ := fresh_row hwf hn hc hp hi hadm.1 hadm.2
      simp [hidx, heb, hadm, hnum, eq_comm]
    · have hnone := unadmitted_row hn hs hi hadm
      simp only [hnone, hadm, reduceCtorEq, false_and, exists_false, or_self]

end Admitted

private theorem carryActs_enroll {rows : List SubjectPower} {a : Act Bytes} (ha : a ∈ carryActs rows) :
    ∃ s w, a = .enroll s w := by
  obtain ⟨r, _, hr⟩ := List.mem_filterMap.mp ha
  split at hr
  · exact ⟨_, _, (Option.some.inj hr).symm⟩
  · cases hr

/-- The fall-back enrols subjects that hold a number. -/
theorem fallbackActs_numbered {st : Store} (hs : Sound st) (period : UInt64) :
    ∀ a ∈ fallbackActs st period, ∃ s w, a = .enroll s w ∧ ((roster st).index s).isSome = true := by
  intro a ha
  have henroll : ∃ s w, a = .enroll s w := by
    rw [fallbackActs] at ha
    split at ha
    · exact carryActs_enroll ha
    · cases ha
  obtain ⟨s, w, rfl⟩ := henroll
  exact ⟨s, w, rfl, (hs.fallbackActs ha).2.2⟩

/-- Verification moves bits only. -/
private theorem verifyActs_numbered {h : Host} {st : Store} (hs : Sound st) (blob : LNPRBlob) :
    ∀ a ∈ verifyActs h st blob false, ∃ s w, a = .enroll s w ∧ ((roster st).index s).isSome = true := by
  rcases verifyActs_cases h st blob false with hv | hv
  · rw [hv]
    intro a ha
    cases ha
  · rw [hv]
    exact fallbackActs_numbered hs blob.period

private theorem ebOf_eq_iff {st : Store} (hst : (roster st).Stored) {s : Bytes} {i : UInt32}
    (hi : (roster st).index s = some i) (b : UInt8) : ebOf st i = b ↔ (roster st).eb i = some b := by
  obtain ⟨c, hc⟩ := Option.ne_none_iff_exists'.mp (hst s i hi)
  rw [ebOf_eq, hc, Option.getD_some, Option.some_inj]

/-- A row whose own proof is checked is admitted as that proof states exactly when the number it
was checked for is the subject's and no other balance is stored for it. -/
theorem checked_statement_admitted_iff (h : Host) {st : Store} (hr : Reachable h st) {blob : LNPRBlob}
    (hv : (verifyLNPR h st blob false).2 = .ok ()) (hc : (roster (applyLNPR h st blob).1).count < 2 ^ 32)
    {c : Statement} (hm : c ∈ statements st blob) :
    verifyValsetStwo h c.row.proof blob.period c.index (claimedEB c.row.weight) = .ok () ∧
    ((∃ i, depositIndexOf (applyLNPR h st blob).1 c.row.subject = some i ∧ i.toNat = c.index.toNat ∧
        ebOf (applyLNPR h st blob).1 i = claimedEB c.row.weight) ↔ Matches st blob c) := by
  have hs := hr.sound
  have hrows : blob.subjects.length ≠ 0 := by
    intro hl
    rw [statements, List.length_eq_zero_iff.mp hl] at hm
    cases hm
  obtain ⟨_, _, hvr⟩ := (verifyLNPR_eq_ok hrows).mp hv
  obtain ⟨⟨p, hp, hget⟩, hval⟩ := checkedRows_spec hvr hm
  refine ⟨hval, ?_⟩
  have hst' := (hs.applyLNPR h blob).stored
  have hpost : roster (applyLNPR h st blob).1 =
      ((roster st).acts (verifyActs h st blob false)).acts (lnprActs blob.subjects) := by
    rw [roster_applyLNPR hs, opActs, hv, Roster.acts_append]
  obtain ⟨hnext, _, hidx, heb⟩ := Roster.acts_numbered hs.stored (verifyActs_numbered (h := h) hs blob)
  have hn := verifyLNPR_ok_nodup hv
  rw [hpost] at hc
  have hwf1 : ((roster st).acts (verifyActs h st blob false)).WF := by
    have hle := ((roster st).acts (verifyActs h st blob false)).count_le_acts (lnprActs blob.subjects)
    have hle0 := (roster st).count_le_acts (verifyActs h st blob false)
    exact Roster.acts_wf (hs.wf (by omega)) _ (by omega)
  have hst1 : ((roster st).acts (verifyActs h st blob false)).Stored := by
    intro t j hj
    rw [heb]
    exact hs.stored t j (by rwa [hidx] at hj)
  have hadm := row_admitted_iff hwf1 hn hc hst1 (by rw [hidx]; exact hs.subject_ne) hget c.index.toNat
  rw [countP_lnprActs, hidx, heb, hnext, ← hpost, ← claimedEB_eq] at hadm
  have hpos : c.pos = p := by omega
  rw [Matches, hpos]
  refine Iff.trans ?_ (hadm.trans (or_congr ?_ ?_))
  · exact exists_congr (fun i => and_congr_right (fun hi => and_congr_right (fun _ => ebOf_eq_iff hst' hi _)))
  · exact exists_congr (fun i => and_congr_right (fun hi => and_congr_right (fun _ =>
      or_congr_right (ebOf_eq_iff hs.stored hi _).symm)))
  · simp only [freshRow, Bool.and_eq_true, decide_eq_true_eq, Option.isNone_iff_eq_none, and_assoc]
    rfl

/-- The only member is refreshed and a new subject joins with a proof for number 1. -/
def newcomerBlob : LNPRBlob :=
  ⟨0, [⟨keyOf 0xa1, 10, dummyStwoProveBoundRoots 0 (keyOf 0xa1) 10 (lastObjectRoots (genesisStore ∅ soloGenesis))⟩,
    ⟨keyOf 0xb2, 5, stwoMagic ++ valsetInstanceBytes 0 1 5⟩]⟩

theorem newcomer_admitted_as_proved :
    let st := (applyLNPR stwoHost (genesisStore ∅ soloGenesis) newcomerBlob).1
    ∃ i, depositIndexOf st (keyOf 0xb2) = some i ∧ i.toNat = 1 ∧ ebOf st i = 5 := by
  have hr : Reachable stwoHost (genesisStore ∅ soloGenesis) := ⟨soloGenesis, _, [], rfl, rfl⟩
  have hfacts : (verifyLNPR stwoHost (genesisStore ∅ soloGenesis) newcomerBlob false).2 = .ok () ∧
      (roster (applyLNPR stwoHost (genesisStore ∅ soloGenesis) newcomerBlob).1).count < 2 ^ 32 ∧
      (⟨1, ⟨keyOf 0xb2, 5, stwoMagic ++ valsetInstanceBytes 0 1 5⟩, 1⟩ : Statement) ∈
        statements (genesisStore ∅ soloGenesis) newcomerBlob := by
    decide +kernel
  obtain ⟨hv, hc, hm⟩ := hfacts
  refine (checked_statement_admitted_iff stwoHost hr hv hc hm).2.mpr ?_
  exact .inr (by decide +kernel)

/-- Two members, of whom the second has left. -/
def leftStore : Store := run (opStep stwoHost) (genesisStore ∅ duoGenesis) [.applyLeave ⟨0, keyOf 0xb2⟩]

/-- The leaver joins again with a proof for number 2 and balance 5. -/
def returningBlob : LNPRBlob :=
  ⟨0, [⟨keyOf 0xa1, 10, dummyStwoProveBoundRoots 0 (keyOf 0xa1) 10 (lastObjectRoots leftStore)⟩,
    ⟨keyOf 0xb2, 5, stwoMagic ++ valsetInstanceBytes 0 2 5⟩]⟩

/-- The proof is checked for number 2 and balance 5; the subject keeps number 1 and balance 0. -/
theorem returning_leaver_admitted_otherwise :
    Reachable stwoHost leftStore ∧ (verifyLNPR stwoHost leftStore returningBlob false).2 = .ok () ∧
    (⟨1, ⟨keyOf 0xb2, 5, stwoMagic ++ valsetInstanceBytes 0 2 5⟩, 2⟩ : Statement) ∈ statements leftStore returningBlob ∧
    (let st := (applyLNPR stwoHost leftStore returningBlob).1
    depositIndexOf st (keyOf 0xb2) = some 1 ∧ ebOf st 1 = 0) := by
  refine ⟨⟨duoGenesis, _, _, rfl, rfl⟩, ?_⟩
  decide +kernel

end Keeper
end Terpz.Leanval
