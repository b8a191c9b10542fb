import Terpz.Leanval.Keeper.Lnpr
import Terpz.Leanval.Keeper.Updates

/-! Every keeper operation is a list of roster acts, read off its input and pre-state.
States reached from genesis are sound: they come from enrolments of named subjects with
positive weight, and an accepted period row belongs to a subject that holds a number. -/
namespace Terpz.Leanval.Keeper
open Lib Lib.PrefixStore Function

def rowAct (s : SubjectProof) : Option (Act Bytes) :=
  if s.subject.length = 0 then none
  else if s.weight ≤ 0 then some (.drop s.subject)
  else some (.enroll s.subject s.weight)

def lnprActs (rows : List SubjectProof) : List (Act Bytes) := rows.filterMap rowAct

def verifyActs (h : Host) (st : Store) (blob : LNPRBlob) (skipCrypto : Bool) : List (Act Bytes) :=
  match checkLNPRUniqueness st blob with
  | .error _ => []
  | .ok _ =>
    if skipCrypto || blob.subjects.length == 0 then []
    else
      match verifyAggregate h (foldProofFromLNPR blob) (lastObjectRoots st) with
      | .error _ => []
      | .ok _ => fallbackActs st blob.period

theorem roster_clearMember (st : Store) (s : Bytes) : roster (clearMember st s) = (roster st).drop s := by
  unfold clearMember
  cases hi : depositIndexOf st s with
  | none =>
    have hi : (roster st).index s = none := hi
    simp only [Roster.drop, hi]
  | some i =>
    have hi : (roster st).index s = some i := hi
    simp only [Roster.drop, hi, roster_setEB, roster_clearBit]

theorem roster_leaveMember (st : Store) (period : UInt64) (s : Bytes) :
    roster (leaveMember st period s) = (roster st).drop s := by
  rw [leaveMember, roster_clearMember, roster_delete rfl, roster_set rfl]

theorem agree_clearMember {b : UInt8} (hb : b ∉ rosterTables) (st : Store) (s : Bytes) :
    Agree [b] st (clearMember st s) := by
  unfold clearMember
  cases depositIndexOf st s with
  | none => exact Agree.refl _ _
  | some i => exact (agree_clearBit hb _ _).trans (agree_setEB hb _ _ _)

theorem applyLeave_eq (st : Store) (b : LeaveBlob) :
    applyLeave st b = if b.subject.length = 0 then .error "leanval: leave subject empty"
      else .ok (leaveMember st b.period b.subject) := by
  unfold applyLeave validateLeave
  by_cases hl : b.subject.length = 0 <;> simp only [hl, if_true, if_false] <;> rfl

theorem roster_applyRow {st : Store} (hne : (roster st).index [] = none) (period : UInt64) (s : SubjectProof) :
    roster (applyRow period st s) = (roster st).acts (rowAct s).toList := by
  unfold applyRow rowAct
  by_cases hl : s.subject.length = 0
  · have hs : depositIndexOf st s.subject = none := by
      rw [List.length_eq_zero_iff.mp hl]
      exact hne
    simp only [hl, if_true, hs, Option.toList_none, Roster.acts_nil]
    split
    · rfl
    · rw [roster_delete rfl, roster_delete rfl]
      rfl
  · by_cases hw : s.weight ≤ 0
    · simp only [hl, hw, if_true, if_false, applyLeave_eq, Option.toList_some, Roster.acts_cons, Roster.acts_nil,
        Roster.act]
      cases hi : depositIndexOf st s.subject with
      | some i => exact roster_leaveMember st period s.subject
      | none =>
        have hi : (roster st).index s.subject = none := hi
        simp only [Roster.drop, hi]
    · simp only [hl, hw, if_false, Option.toList_some, Roster.acts_cons, Roster.acts_nil, Roster.act]
      rw [roster_delete rfl, roster_delete rfl]
      cases depositIndexOf st s.subject with
      | some i => exact roster_admitMember st _ _
      | none =>
        simp only [Nat.pos_of_ne_zero hl, if_true]
        exact roster_acceptProof st period _ _

private theorem rowAct_enroll {s : SubjectProof} {t : Bytes} {w : Int64} (h : rowAct s = some (.enroll t w)) :
    t = s.subject ∧ w = s.weight ∧ t ≠ [] ∧ w > 0 := by
  unfold rowAct at h
  by_cases hl : s.subject.length = 0
  · simp [hl] at h
  · by_cases hw : s.weight ≤ 0
    · simp [hl, hw] at h
    · simp only [hl, hw, if_false, Option.some.injEq, Act.enroll.injEq] at h
      obtain ⟨rfl, rfl⟩ := h
      exact ⟨rfl, rfl, fun he => hl (by rw [he]; rfl), Int64.not_le.mp hw⟩

theorem mem_lnprActs_enroll {rows : List SubjectProof} {t : Bytes} {w : Int64} :
    .enroll t w ∈ lnprActs rows ↔ ∃ s ∈ rows, t = s.subject ∧ w = s.weight ∧ t ≠ [] ∧ w > 0 := by
  rw [lnprActs, List.mem_filterMap]
  constructor
  · rintro ⟨s, hs, ha⟩
    exact ⟨s, hs, rowAct_enroll ha⟩
  · rintro ⟨s, hs, rfl, rfl, hne, hw⟩
    have hl : ¬ s.subject.length = 0 := fun hl => hne (List.length_eq_zero_iff.mp hl)
    exact ⟨s, hs, by rw [rowAct, if_neg hl, if_neg (Int64.not_le.mpr hw)]⟩

theorem mem_lnprActs_drop {rows : List SubjectProof} {t : Bytes} :
    .drop t ∈ lnprActs rows ↔ ∃ s ∈ rows, t = s.subject ∧ s.weight ≤ 0 ∧ t ≠ [] := by
  rw [lnprActs, List.mem_filterMap]
  constructor
  · rintro ⟨s, hs, ha⟩
    unfold rowAct at ha
    by_cases hl : s.subject.length = 0
    · simp [hl] at ha
    · by_cases hw : s.weight ≤ 0
      · simp only [hl, hw, if_true, if_false, Option.some.injEq, Act.drop.injEq] at ha
        obtain rfl := ha
        exact ⟨s, hs, rfl, hw, fun he => hl (by rw [he]; rfl)⟩
      · simp [hl, hw] at ha
  · rintro ⟨s, hs, rfl, hw, hne⟩
    have hl : ¬ s.subject.length = 0 := fun hl => hne (List.length_eq_zero_iff.mp hl)
    exact ⟨s, hs, by rw [rowAct, if_neg hl, if_pos hw]⟩

theorem rowAct_subject {s : SubjectProof} {a : Act Bytes} (h : rowAct s = some a) : a.subject = s.subject := by
  unfold rowAct at h
  split at h
  · cases h
  · split at h
    · obtain rfl := Option.some.inj h
      rfl
    · obtain rfl := Option.some.inj h
      rfl

theorem lnprActs_nodup {rows : List SubjectProof} (hn : (rows.map (·.subject)).Nodup) :
    ((lnprActs rows).map Act.subject).Nodup :=
  nodup_map_filterMap (fun _ _ h => rowAct_subject h) hn

theorem roster_applyRows {st : Store} (hne : (roster st).index [] = none) (period : UInt64)
    (rows : List SubjectProof) :
    roster (rows.foldl (applyRow period) st) = (roster st).acts (lnprActs rows) := by
  induction rows generalizing st with
  | nil => rfl
  | cons s rows ih =>
    have hstep := roster_applyRow hne period s
    have hne' : (roster (applyRow period st s)).index [] = none := by
      rw [hstep]
      refine Roster.index_acts_of_none hne ?_
      intro w hw
      exact (rowAct_enroll (Option.mem_toList.mp hw)).2.2.1 rfl
    rw [List.foldl_cons, ih hne', hstep, ← Roster.acts_append]
    congr 1
    rw [lnprActs, lnprActs, List.filterMap_cons]
    cases rowAct s <;> rfl

/-- An accepted record lists no subject twice. -/
theorem verifyLNPR_ok_nodup {h : Host} {st : Store} {blob : LNPRBlob} {skipCrypto : Bool}
    (hv : (verifyLNPR h st blob skipCrypto).2 = .ok ()) : (blob.subjects.map (·.subject)).Nodup := by
  unfold verifyLNPR at hv
  cases hc : checkLNPRUniqueness st blob with
  | error e =>
    rw [hc] at hv
    cases hv
  | ok _ =>
    obtain ⟨_, _, hd⟩ := bind_eq_ok.mp hc
    exact not_not.mp (failIf_eq_ok.mp hd)

theorem applyLNPR_ok_iff {h : Host} {st : Store} {blob : LNPRBlob} :
    (applyLNPR h st blob).2 = .ok () ↔ (verifyLNPR h st blob false).2 = .ok () := by
  unfold applyLNPR
  generalize verifyLNPR h st blob false = r
  obtain ⟨st1, e | _⟩ := r <;> simp

theorem roster_verifyLNPR (h : Host) (st : Store) (blob : LNPRBlob) (skipCrypto : Bool) :
    roster (verifyLNPR h st blob skipCrypto).1 = (roster st).acts (verifyActs h st blob skipCrypto) := by
  unfold verifyLNPR verifyActs
  cases checkLNPRUniqueness st blob with
  | error e => rfl
  | ok _ =>
    simp only
    split
    · rfl
    · cases verifyAggregate h (foldProofFromLNPR blob) (lastObjectRoots st) with
      | error e => rfl
      | ok _ => exact roster_bitsOrCarry st blob.period

/-- The tables a JOIN, a LEAV or an LNPR row writes. -/
def lnprTables : List UInt8 := pendingJoinPrefix :: pendingLeavePrefix :: bondedPrefix :: rosterTables

section Frame
variable {b : UInt8} (hb : b ∉ lnprTables)
include hb

private theorem not_mem_bonded : b ∉ bondedPrefix :: rosterTables :=
  List.not_mem_of_not_mem_cons (List.not_mem_of_not_mem_cons hb)

private theorem ne_of_not_mem_lnprTables {c : UInt8} (hc : c ∈ lnprTables) : b ≠ c := by
  rintro rfl
  exact hb hc

theorem agree_leaveMember (st : Store) (period : UInt64) (s : Bytes) : Agree [b] st (leaveMember st period s) := by
  have hset : Agree [b] st (set st (pendingLeaveKey period s) [1]) :=
    agree_set_table (c := pendingLeavePrefix) (ne_of_not_mem_lnprTables hb (by decide))
  have hdel (st1 : Store) : Agree [b] st1 (delete st1 (bondedKey period s)) :=
    agree_delete_table (c := bondedPrefix) (ne_of_not_mem_lnprTables hb (by decide))
  exact (hset.trans (hdel _)).trans (agree_clearMember (List.not_mem_of_not_mem_cons (not_mem_bonded hb)) _ _)

theorem agree_applyRow (period : UInt64) (st : Store) (s : SubjectProof) : Agree [b] st (applyRow period st s) := by
  have hdel (st1 : Store) (p : UInt64) : Agree [b] st1 (delete st1 (pendingJoinKey p s.subject)) :=
    agree_delete_table (c := pendingJoinPrefix) (ne_of_not_mem_lnprTables hb (by decide))
  unfold applyRow
  split
  · split
    · rw [applyLeave_eq]
      by_cases hl : s.subject.length = 0
      · simpa only [hl, if_true] using Agree.refl _ _
      · simpa only [hl, if_false] using agree_leaveMember hb st period s.subject
    · exact Agree.refl _ _
  · refine Agree.trans (Agree.trans ?_ (hdel _ _)) (hdel _ _)
    split
    · exact agree_admitMember (List.not_mem_of_not_mem_cons (not_mem_bonded hb)) _ _ _
    · split
      · exact agree_acceptProof (not_mem_bonded hb) _ _ _ _
      · exact Agree.refl _ _

theorem agree_verifyLNPR (h : Host) (st : Store) (blob : LNPRBlob) (skipCrypto : Bool) :
    Agree [b] st (verifyLNPR h st blob skipCrypto).1 := by
  unfold verifyLNPR
  split
  · exact Agree.refl _ _
  · split
    · exact Agree.refl _ _
    · simp only
      split
      · exact Agree.refl _ _
      · exact agree_bitsOrCarry (not_mem_bonded hb) st blob.period

theorem agree_applyLNPR (h : Host) (st : Store) (blob : LNPRBlob) : Agree [b] st (applyLNPR h st blob).1 := by
  have hrows (rows : List SubjectProof) (st1 : Store) : Agree [b] st1 (rows.foldl (applyRow blob.period) st1) := by
    induction rows generalizing st1 with
    | nil => exact Agree.refl _ _
    | cons s rows ih => exact (agree_applyRow hb blob.period st1 s).trans (ih _)
  have hv := agree_verifyLNPR hb h st blob false
  unfold applyLNPR
  generalize verifyLNPR h st blob false = r at hv
  obtain ⟨st1, e | _⟩ := r
  · exact hv
  · exact (hv.trans (hrows _ _)).trans
      (agree_syncObjectRoots (List.not_mem_of_not_mem_cons (not_mem_bonded hb)) _)

end Frame

def seedAct (s : GenesisSubject) : Option (Act Bytes) :=
  if s.pubKey.length = 0 then none else if s.weight > 0 then some (.enroll s.pubKey s.weight) else none

theorem roster_seedSubject (st : Store) (s : GenesisSubject) :
    roster (seedSubject st s) = (roster st).acts (seedAct s).toList := by
  unfold seedSubject seedAct
  split
  · rfl
  · split
    · exact roster_acceptProof st 0 _ _
    · exact roster_putSubject st 0 _ _

theorem roster_seedSubjects (st : Store) (subs : List GenesisSubject) :
    roster (subs.foldl seedSubject st) = (roster st).acts (subs.filterMap seedAct) := by
  induction subs generalizing st with
  | nil => rfl
  | cons s subs ih =>
    rw [List.foldl_cons, ih, roster_seedSubject, ← Roster.acts_append, List.filterMap_cons]
    cases seedAct s <;> rfl

theorem roster_genesisStore (st : Store) (gs : GenesisState) :
    roster (genesisStore st gs) = (roster st).acts (gs.genesisSubjects.filterMap seedAct) := by
  rw [genesisStore, roster_syncObjectRoots, roster_seedSubjects, setOwnsValset, roster_set rfl, roster_set rfl]

theorem seedAct_eq_some {s : GenesisSubject} {a : Act Bytes} (h : seedAct s = some a) :
    a = .enroll s.pubKey s.weight ∧ s.pubKey ≠ [] ∧ s.weight > 0 := by
  unfold seedAct at h
  split at h
  · cases h
  · rename_i hl
    split at h
    · rename_i hw
      exact ⟨(Option.some.inj h).symm, fun hnil => hl (by rw [hnil]; rfl), hw⟩
    · cases h

theorem initGenesis_eq_ok {st st' : Store} {gs : GenesisState} (h : initGenesis st gs = .ok st') :
    st' = genesisStore st gs := by
  obtain ⟨_, _, hr⟩ := bind_eq_ok.mp h
  exact (Except.ok.inj hr).symm

/-- What every state reached from genesis satisfies, whatever the operations. -/
structure Sound (st : Store) : Prop where
  enrolled : ∃ as : List (Act Bytes), (∀ s w, .enroll s w ∈ as → s ≠ [] ∧ w > 0) ∧ roster st = (roster ∅).acts as
  row : ∀ p s v, st[bondedKey p s]? = some v → (decodeRec v).accepted = true →
    (decodeRec v).weight > 0 ∧ ((roster st).index s).isSome = true

namespace Sound
variable {st st' : Store}

theorem subject_ne (hs : Sound st) : (roster st).index [] = none := by
  obtain ⟨as, has, hr⟩ := hs.enrolled
  rw [hr]
  refine Roster.index_acts_of_none (roster_empty_index []) ?_
  intro w hw
  exact (has [] w hw).1 rfl

theorem stored (hs : Sound st) : (roster st).Stored := by
  obtain ⟨as, has, hr⟩ := hs.enrolled
  rw [hr]
  refine Roster.acts_stored ?_ (fun s w hw => (has s w hw).2)
  intro s i hi
  rw [roster_empty_index] at hi
  cases hi

theorem wf (hs : Sound st) (hc : (roster st).count < 2 ^ 32) : (roster st).WF := by
  obtain ⟨as, _, hr⟩ := hs.enrolled
  rw [hr] at hc ⊢
  exact Roster.acts_wf roster_empty_wf as hc

/-- Soundness is kept by proper acts, when new accepted rows name numbered subjects. -/
theorem step (hs : Sound st) (as : List (Act Bytes)) (has : ∀ s w, .enroll s w ∈ as → s ≠ [] ∧ w > 0)
    (hr : roster st' = (roster st).acts as)
    (hrow : ∀ p s v, st'[bondedKey p s]? = some v → (decodeRec v).accepted = true →
      st[bondedKey p s]? = some v ∨ ((decodeRec v).weight > 0 ∧ ((roster st').index s).isSome = true)) :
    Sound st' := by
  obtain ⟨bs, hbs, hb⟩ := hs.enrolled
  refine ⟨⟨bs ++ as, ?_, by rw [hr, hb, Roster.acts_append]⟩, ?_⟩
  · intro s w hw
    rcases List.mem_append.mp hw with hw | hw
    · exact hbs s w hw
    · exact has s w hw
  · intro p s v hv ha
    rcases hrow p s v hv ha with hold | hnew
    · obtain ⟨hw, hi⟩ := hs.row p s v hold ha
      obtain ⟨i, hi⟩ := Option.isSome_iff_exists.mp hi
      rw [hr, Roster.index_acts_of_some hi]
      exact ⟨hw, rfl⟩
    · exact hnew

theorem of_agree (hs : Sound st) (hr : roster st' = roster st) (ha : Agree [bondedPrefix] st st') : Sound st' := by
  refine hs.step [] (by simp) hr ?_
  intro p s v hv _
  rw [bonded_eq_of_agree ha]
  exact .inl hv

theorem admitMember (hs : Sound st) {s : Bytes} {w : Int64} (hne : s ≠ []) (hw : w > 0) :
    Sound (Keeper.admitMember st s w) := by
  refine hs.step [.enroll s w] ?_ (roster_admitMember st s w) ?_
  · intro t v ht
    obtain ⟨rfl, rfl⟩ := Act.enroll.inj (List.mem_singleton.mp ht)
    exact ⟨hne, hw⟩
  · intro p t v hv _
    rw [bonded_eq_of_agree (agree_admitMember (by decide) st s w)]
    exact .inl hv

theorem acceptProof (hs : Sound st) (period : UInt64) {s : Bytes} {w : Int64} (hne : s ≠ []) (hw : w > 0) :
    Sound (Keeper.acceptProof st period s w) := by
  refine hs.step [.enroll s w] ?_ (roster_acceptProof st period s w) ?_
  · intro t v ht
    obtain ⟨rfl, rfl⟩ := Act.enroll.inj (List.mem_singleton.mp ht)
    exact ⟨hne, hw⟩
  · intro p t v hv _
    rw [Keeper.acceptProof, ← bonded_eq_of_agree (agree_admitMember (by decide) _ s w), getElem?_set] at hv
    split at hv
    · rename_i he
      obtain ⟨rfl, rfl⟩ := bondedKey_inj.mp he
      obtain rfl := Option.some.inj hv
      refine .inr ⟨by simpa [encodeRec, decodeRec, List.take_of_length_le] using hw, ?_⟩
      rw [roster_acceptProof, Roster.index_enroll, if_pos rfl]
      rfl
    · exact .inl hv

theorem putSubject (hs : Sound st) (period : UInt64) (s : Bytes) (w : Int64) :
    Sound (Keeper.putSubject st period s w) := by
  refine hs.step [] (by simp) (roster_putSubject st period s w) ?_
  intro p t v hv ha
  rw [Keeper.putSubject, getElem?_set] at hv
  split at hv
  · obtain rfl := Option.some.inj hv
    simp [encodeRec, decodeRec] at ha
  · exact .inl hv

theorem leaveMember (hs : Sound st) (period : UInt64) (s : Bytes) : Sound (Keeper.leaveMember st period s) := by
  refine hs.step [.drop s] (by simp) (roster_leaveMember st period s) ?_
  intro p t v hv _
  rw [Keeper.leaveMember, ← bonded_eq_of_agree (agree_clearMember (by decide) _ _), getElem?_delete] at hv
  split at hv
  · cases hv
  · have hset : Agree [bondedPrefix] st (set st (pendingLeaveKey period s) [1]) :=
      agree_set_table (c := pendingLeavePrefix) (by decide)
    rw [← bonded_eq_of_agree hset] at hv
    exact .inl hv

/-- An accepted period row belongs to a named, numbered subject and has positive weight. -/
theorem bonded (hs : Sound st) {period : UInt64} {r : SubjectPower} (hr : r ∈ bondedSet st period)
    (hp : r.hasProof = true) : r.weight > 0 ∧ r.subject ≠ [] ∧ ((roster st).index r.subject).isSome = true := by
  obtain ⟨v, hv, he⟩ := mem_bondedSet.mp hr
  rw [he] at hp
  have hp : (decodeRec v).accepted = true := hp
  obtain ⟨hw, hi⟩ := hs.row period r.subject v hv hp
  refine ⟨?_, ?_, hi⟩
  · rw [he]
    simpa only [hp, if_true] using hw
  · intro hnil
    rw [hnil, hs.subject_ne] at hi
    cases hi

theorem carryRows (hs : Sound st) (period : UInt64) {rows : List SubjectPower}
    (hrows : ∀ r ∈ rows, r.hasProof = true → r.weight > 0 ∧ r.subject ≠ []) :
    Sound (rows.foldl (carryRow period) st) := by
  induction rows generalizing st with
  | nil => exact hs
  | cons r rows ih =>
    refine ih ?_ (fun t ht => hrows t (List.mem_cons_of_mem _ ht))
    unfold carryRow
    cases hp : r.hasProof with
    | true =>
      obtain ⟨hw, hne⟩ := hrows r List.mem_cons_self hp
      exact hs.acceptProof period hne hw
    | false => exact hs.putSubject period _ _

theorem bondedSetOrCarry (hs : Sound st) (period : UInt64) : Sound (Keeper.bondedSetOrCarry st period).1 := by
  rw [bondedSetOrCarry_store]
  refine hs.carryRows period ?_
  intro r hr hp
  obtain ⟨p, hr⟩ := mem_carrySource hr
  obtain ⟨hw, hne, _⟩ := hs.bonded hr hp
  exact ⟨hw, hne⟩

theorem bitsOrCarry (hs : Sound st) (period : UInt64) : Sound (Keeper.bitsOrCarry st period).1 := by
  by_cases hz : (debugSubjectsFromBits st).length = 0
  · simpa only [Keeper.bitsOrCarry, hz, if_true] using hs.bondedSetOrCarry period
  · simpa only [Keeper.bitsOrCarry, hz, if_false] using hs

theorem verifyLNPR (hs : Sound st) (h : Host) (blob : LNPRBlob) (skipCrypto : Bool) :
    Sound (Keeper.verifyLNPR h st blob skipCrypto).1 := by
  unfold Keeper.verifyLNPR
  cases checkLNPRUniqueness st blob with
  | error e => exact hs
  | ok _ =>
    simp only
    split
    · exact hs
    · cases verifyAggregate h (foldProofFromLNPR blob) (lastObjectRoots st) with
      | error e => exact hs
      | ok _ => exact hs.bitsOrCarry blob.period

theorem syncObjectRoots (hs : Sound st) : Sound (Keeper.syncObjectRoots st) :=
  hs.of_agree (roster_syncObjectRoots st) (agree_syncObjectRoots (by decide) st)

theorem applyRow (hs : Sound st) (period : UInt64) (s : SubjectProof) : Sound (Keeper.applyRow period st s) := by
  unfold Keeper.applyRow
  split
  · cases depositIndexOf st s.subject with
    | none => exact hs
    | some i =>
      simp only [applyLeave_eq]
      by_cases hl : s.subject.length = 0
      · simpa only [hl, if_true] using hs
      · simpa only [hl, if_false] using hs.leaveMember period s.subject
  · rename_i hw
    have hw : s.weight > 0 := Int64.not_le.mp hw
    have hdel (st1 : Store) (h1 : Sound st1) (p : UInt64) : Sound (delete st1 (pendingJoinKey p s.subject)) :=
      h1.of_agree (roster_delete rfl) (agree_delete_table (c := pendingJoinPrefix) (by decide))
    refine hdel _ (hdel _ ?_ _) _
    cases hi : depositIndexOf st s.subject with
    | some i =>
      refine hs.admitMember ?_ hw
      intro hnil
      have hne := hs.subject_ne
      rw [← hnil] at hne
      cases hi.symm.trans hne
    | none =>
      by_cases hl : s.subject.length > 0
      · simpa only [hl, if_true] using hs.acceptProof period (List.length_pos_iff.mp hl) hw
      · simpa only [hl, if_false] using hs

theorem applyRows (hs : Sound st) (period : UInt64) (rows : List SubjectProof) :
    Sound (rows.foldl (Keeper.applyRow period) st) := by
  induction rows generalizing st with
  | nil => exact hs
  | cons s rows ih => exact ih (hs.applyRow period s)

theorem applyLNPR (hs : Sound st) (h : Host) (blob : LNPRBlob) : Sound (Keeper.applyLNPR h st blob).1 := by
  have hv := hs.verifyLNPR h blob false
  unfold Keeper.applyLNPR
  generalize Keeper.verifyLNPR h st blob false = r at hv
  obtain ⟨st1, e | _⟩ := r
  · exact hv
  · exact (applyRows hv blob.period blob.subjects).syncObjectRoots

theorem sendUpdates (hs : Sound st) (bits : Bool) (rows : List SubjectPower) :
    Sound (Keeper.sendUpdates st bits rows).1 :=
  hs.of_agree (roster_sendUpdates st bits rows) (agree_sendUpdates (by decide) st bits rows)

theorem validatorUpdates (hs : Sound st) (period : UInt64) : Sound (Keeper.validatorUpdates st period).1 := by
  unfold Keeper.validatorUpdates
  split
  · exact hs.sendUpdates _ _
  · exact (hs.bondedSetOrCarry period).sendUpdates _ _

theorem applyJoin (hs : Sound st) {b : JoinBlob} (hr : Keeper.applyJoin st b = .ok st') : Sound st' := by
  unfold Keeper.applyJoin validateJoin at hr
  by_cases hl : b.subject.length = 0
  · rw [if_pos hl] at hr
    cases hr
  · rw [if_neg hl] at hr
    by_cases hw : b.weight ≤ 0
    · rw [if_pos hw] at hr
      cases hr
    · rw [if_neg hw] at hr
      obtain rfl := Except.ok.inj hr
      refine Sound.acceptProof ?_ _ (fun hnil => hl (by rw [hnil]; rfl)) (Int64.not_le.mp hw)
      exact hs.of_agree (roster_set rfl) (agree_set_table (c := pendingJoinPrefix) (by decide))

theorem applyLeave (hs : Sound st) {b : LeaveBlob} (hr : Keeper.applyLeave st b = .ok st') : Sound st' := by
  rw [applyLeave_eq] at hr
  split at hr
  · cases hr
  · obtain rfl := Except.ok.inj hr
    exact hs.leaveMember _ _

theorem genesisStore (hs : Sound st) (gs : GenesisState) : Sound (Keeper.genesisStore st gs) := by
  apply syncObjectRoots
  have hset (st1 : Store) (h1 : Sound st1) (v : Bool) : Sound (setOwnsValset st1 v) :=
    h1.of_agree (roster_set rfl) (agree_set_table (c := ownsValsetPrefix) (by decide))
  have hparam (st1 : Store) (h1 : Sound st1) (v : Bytes) : Sound (set st1 periodParamKey v) :=
    h1.of_agree (roster_set rfl) (agree_set_table (c := periodParamPrefix) (by decide))
  have hseed (subs : List GenesisSubject) (st1 : Store) (h1 : Sound st1) : Sound (subs.foldl seedSubject st1) := by
    induction subs generalizing st1 with
    | nil => exact h1
    | cons s subs ih =>
      refine ih _ ?_
      unfold seedSubject
      split
      · exact h1
      · rename_i hl
        split
        · rename_i hw
          exact h1.acceptProof 0 (fun hnil => hl (by rw [hnil]; rfl)) hw
        · exact h1.putSubject 0 _ _
  exact hseed _ _ (hset _ (hparam st hs _) _)

end Sound

theorem sound_empty : Sound ∅ := by
  refine ⟨⟨[], by simp, rfl⟩, ?_⟩
  intro p s v hv
  simp at hv

end Terpz.Leanval.Keeper
