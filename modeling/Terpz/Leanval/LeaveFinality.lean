import Terpz.Leanval.Keeper.Block
import Terpz.Leanval.Keeper.Queue
import Terpz.Leanval.ObjectRoots

/-! Runs of honest blocks: every record is built from the committed store and the proposer's queue. A subject that left
stays out. While a bit is set the roster is read off the bits. With no bit set the builder falls back to period rows
and may admit the leaver on its branch, but then its proofs are for other roots than those of the committed store and
the block is refused; rows of the running period are none of the leaver's. -/
namespace Terpz.Leanval.Keeper
open Lib Lib.PrefixStore Function

/-- The committed store, every node's queue, and the period of the last block. -/
structure Net where
  store : Store
  queues : Nat → Queue
  period : UInt64

inductive Event where
  | note (node : Nat) (tx : Bytes)
  | block (proposer : Nat) (period : UInt64)

/-- The block of a proposer. The record is built on a branch of the store that is dropped. -/
def honestBlock (h : Host) (c : Net) (proposer : Nat) (period : UInt64) : Option (Store × LNPRBlob) :=
  match decodeLNPR (buildLNPR h c.store (c.queues proposer) period).2 with
  | none => none
  | some blob =>
    match commitBlock h c.store blob period with
    | .error _ => none
    | .ok st => some (st, blob)

/-- A block whose record is refused is not part of the chain. -/
def netStep (h : Host) (c : Net) : Event → Net
  | .note node tx => { c with queues := update c.queues node (noteMembershipTx c.store (c.queues node) tx) }
  | .block proposer period =>
    match honestBlock h c proposer period with
    | none => c
    | some (st, blob) => ⟨st, fun node => blob.subjects.foldl Queue.forgetRow (c.queues node), period⟩

/-- What is assumed of a block: its period is no earlier than the last one, its record fits the wire fields, its proofs
bind the object roots they were made for, and the two bitfields that could be confused have different digests. -/
def Orderly (h : Host) (c : Net) : Event → Prop
  | .note _ _ => True
  | .block proposer period =>
    let built := lnprFor h c.store (c.queues proposer) period
    c.period ≤ period ∧ built.2.WireFits ∧
    ((verifyLNPR h c.store built.2 false).2 = .ok () → lastObjectRoots c.store = lastObjectRoots built.1) ∧
    (sha256 (bitfield c.store) = sha256 (bitfield built.1) → bitfield c.store = bitfield built.1)

/-- The event's record lists the subject with weight 0 and its bit goes down. -/
def Clears (h : Host) (c : Net) (e : Event) (s : Bytes) (i : UInt32) : Prop :=
  match e with
  | .note _ _ => False
  | .block proposer period =>
    (∃ b ∈ honestBlock h c proposer period, ∃ row ∈ b.2.subjects, row.subject = s ∧ row.weight = 0) ∧
    depositIndexOf c.store s = some i ∧ bitIsSet c.store i = true ∧
    bitIsSet (netStep h c (.block proposer period)).store i = false

instance (b : LNPRBlob) : Decidable b.WireFits :=
  decidable_of_iff (_ ∧ _ ∧ _) ⟨fun h => ⟨h.1, h.2.1, h.2.2⟩, fun h => ⟨h.1, h.2, h.3⟩⟩

instance (h : Host) (c : Net) : (e : Event) → Decidable (Orderly h c e)
  | .note _ _ => isTrue trivial
  | .block _ _ => inferInstanceAs (Decidable (_ ∧ _ ∧ (_ → _) ∧ (_ → _)))

instance (h : Host) (c : Net) (s : Bytes) (i : UInt32) : (e : Event) → Decidable (Clears h c e s i)
  | .note _ _ => isFalse id
  | .block _ _ => inferInstanceAs (Decidable (_ ∧ _ ∧ _ ∧ _))

/-- The subject has a row of the period with an accepted proof. -/
def acceptedRow (st : Store) (period : UInt64) (s : Bytes) : Bool :=
  (st[bondedKey period s]?).any (fun v => (decodeRec v).accepted)

section Rows
variable {h : Host} {st st' : Store} {blob : LNPRBlob} {period p : UInt64} {s : Bytes}

private theorem acceptedRow_of_mem {r : SubjectPower} (hr : r ∈ bondedSet st p) (hp : r.hasProof = true) :
    acceptedRow st p r.subject = true := by
  obtain ⟨v, hv, he⟩ := mem_bondedSet.mp hr
  rw [he] at hp
  rw [acceptedRow, hv]
  exact hp

private theorem acceptedRow_eq (ha : Agree [bondedPrefix] st st') : acceptedRow st' p s = acceptedRow st p s := by
  rw [acceptedRow, acceptedRow, bonded_eq_of_agree ha]

private theorem acceptedRow_putSubject {t : Bytes} {w : Int64}
    (hrow : acceptedRow (putSubject st period t w) p s = true) : acceptedRow st p s = true := by
  rw [acceptedRow, putSubject, getElem?_set] at hrow
  split at hrow
  · simp [encodeRec, decodeRec] at hrow
  · exact hrow

private theorem acceptedRow_acceptProof {t : Bytes} {w : Int64}
    (hrow : acceptedRow (acceptProof st period t w) p s = true) : acceptedRow st p s = true ∨ p = period ∧ s = t := by
  rw [acceptProof, acceptedRow_eq (agree_admitMember (by decide) _ _ _), acceptedRow, getElem?_set] at hrow
  split at hrow
  · next heq =>
    obtain ⟨rfl, rfl⟩ := bondedKey_inj.mp heq
    exact .inr ⟨rfl, rfl⟩
  · exact .inl hrow

private theorem acceptedRow_leaveMember {t : Bytes} (hrow : acceptedRow (leaveMember st period t) p s = true) :
    acceptedRow st p s = true ∧ ¬ (p = period ∧ s = t) := by
  have hset : Agree [bondedPrefix] st (set st (pendingLeaveKey period t) [1]) :=
    agree_set_table (c := pendingLeavePrefix) (by decide)
  rw [leaveMember, acceptedRow_eq (agree_clearMember (by decide) _ _), acceptedRow, getElem?_delete] at hrow
  split at hrow
  · cases hrow
  · next hne =>
    constructor
    · rw [← acceptedRow_eq hset]
      exact hrow
    · rintro ⟨rfl, rfl⟩
      exact hne rfl

/-- A carry accepts the rows it clones, in its own period. -/
private theorem acceptedRow_bondedSetOrCarry (hrow : acceptedRow (bondedSetOrCarry st period).1 p s = true) :
    acceptedRow st p s = true ∨ p = period ∧ ∃ r ∈ carrySource st period, r.subject = s ∧ r.hasProof = true := by
  rw [bondedSetOrCarry_store] at hrow
  revert hrow
  generalize carrySource st period = rows
  induction rows generalizing st with
  | nil => exact .inl
  | cons r rows ih =>
    intro hrow
    rcases ih hrow with hold | ⟨hp, r', hr', hs⟩
    · unfold carryRow at hold
      split at hold
      · next hproof =>
        rcases acceptedRow_acceptProof hold with hold | ⟨hp, hs⟩
        · exact .inl hold
        · exact .inr ⟨hp, r, List.mem_cons_self, hs.symm, hproof⟩
      · exact .inl (acceptedRow_putSubject hold)
    · exact .inr ⟨hp, r', List.mem_cons_of_mem _ hr', hs⟩

private theorem acceptedRow_bitsOrCarry (hrow : acceptedRow (bitsOrCarry st period).1 p s = true) :
    acceptedRow st p s = true ∨ p = period ∧ fallbackActs st period ≠ [] := by
  unfold bitsOrCarry at hrow
  dsimp only at hrow
  split at hrow
  · next hzero =>
    refine (acceptedRow_bondedSetOrCarry hrow).imp_right (fun ⟨hp, r, hr, _, hproof⟩ => ⟨hp, ?_⟩)
    rw [fallbackActs, if_pos hzero]
    exact List.ne_nil_of_mem (mem_carryActs.mpr ⟨r, hr, hproof, rfl, rfl⟩)
  · exact .inl hrow

/-- Verification leaves the store, or has read the roster. -/
private theorem verifyLNPR_store (h : Host) (st : Store) (blob : LNPRBlob) :
    (verifyLNPR h st blob false).1 = st ∨ (verifyLNPR h st blob false).1 = (bitsOrCarry st blob.period).1 := by
  unfold verifyLNPR
  split
  · exact .inl rfl
  · split
    · exact .inl rfl
    · simp only
      split
      · exact .inl rfl
      · exact .inr rfl

private theorem acceptedRow_verifyLNPR (hrow : acceptedRow (verifyLNPR h st blob false).1 p s = true) :
    acceptedRow st p s = true ∨ p = blob.period ∧ fallbackActs st blob.period ≠ [] := by
  rcases verifyLNPR_store h st blob with hst | hst <;> rw [hst] at hrow
  · exact .inl hrow
  · exact acceptedRow_bitsOrCarry hrow

/-- A row of the record accepts a subject without a number, and deletes the row of one that leaves. -/
private theorem acceptedRow_applyRow {row : SubjectProof} (hrow : acceptedRow (applyRow period st row) p s = true) :
    (acceptedRow st p s = true ∨ p = period ∧ depositIndexOf st s = none) ∧
      ((depositIndexOf st s).isSome = true → s ≠ [] → row.subject = s → row.weight ≤ 0 → p ≠ period) := by
  have hpending (st : Store) (q : UInt64) (t : Bytes) : Agree [bondedPrefix] st (delete st (pendingJoinKey q t)) :=
    agree_delete_table (c := pendingJoinPrefix) (by decide)
  unfold applyRow at hrow
  split at hrow
  · split at hrow
    · rw [applyLeave_eq] at hrow
      split at hrow
      · next st1 hleave =>
        split at hleave
        · cases hleave
        · cases hleave
          obtain ⟨hold, hne⟩ := acceptedRow_leaveMember hrow
          exact ⟨.inl hold, fun _ _ hs _ hp => hne ⟨hp, hs.symm⟩⟩
      · next hleave =>
        split at hleave
        · next hempty =>
          refine ⟨.inl hrow, fun _ hne hs _ => absurd ?_ hne⟩
          rw [← hs]
          exact List.length_eq_zero_iff.mp hempty
        · cases hleave
    · next hnone =>
      refine ⟨.inl hrow, fun hsome _ hs _ => ?_⟩
      rw [← hs, hnone] at hsome
      cases hsome
  · next hpos =>
    refine ⟨?_, fun _ _ _ hw => absurd hw hpos⟩
    dsimp only at hrow
    rw [acceptedRow_eq (hpending _ _ _), acceptedRow_eq (hpending _ _ _)] at hrow
    split at hrow
    · rw [acceptedRow_eq (agree_admitMember (by decide) _ _ _)] at hrow
      exact .inl hrow
    · next hnone =>
      split at hrow
      · refine (acceptedRow_acceptProof hrow).imp_right (fun hnew => ⟨hnew.1, ?_⟩)
        rw [hnew.2]
        exact hnone
      · exact .inl hrow

/-- The rows of a record: a numbered subject gets no new row, and loses that of the period if it leaves. -/
private theorem acceptedRow_applyRows (hs : Sound st) {rows : List SubjectProof}
    (hrow : acceptedRow (rows.foldl (applyRow period) st) p s = true) :
    (acceptedRow st p s = true ∨ p = period ∧ (roster st).index s = none) ∧
      (((roster st).index s).isSome = true → ∀ row ∈ rows, row.subject = s → row.weight ≤ 0 → p ≠ period) := by
  induction rows generalizing st with
  | nil => exact ⟨.inl hrow, fun _ _ hmem => nomatch hmem⟩
  | cons row rows ih =>
    have hkept (i : UInt32) (hi : (roster st).index s = some i) :
        (roster (applyRow period st row)).index s = some i := by
      rw [roster_applyRow hs.subject_ne]
      exact Roster.index_acts_of_some hi _
    obtain ⟨hfirst, hrest⟩ := ih (hs.applyRow period row) hrow
    have hnone (hnone : (roster (applyRow period st row)).index s = none) : (roster st).index s = none := by
      by_contra hsome
      obtain ⟨i, hi⟩ := Option.ne_none_iff_exists'.mp hsome
      rw [hkept i hi] at hnone
      cases hnone
    refine ⟨?_, fun hsome => List.forall_mem_cons.mpr ⟨fun hsub hw => ?_, hrest ?_⟩⟩
    · rcases hfirst with hold | ⟨hp, hnew⟩
      · exact (acceptedRow_applyRow hold).1
      · exact .inr ⟨hp, hnone hnew⟩
    · obtain ⟨i, hi⟩ := Option.isSome_iff_exists.mp hsome
      rcases hfirst with hold | ⟨-, hnew⟩
      · refine (acceptedRow_applyRow hold).2 hsome (fun hnil => ?_) hsub hw
        rw [hnil, hs.subject_ne] at hi
        cases hi
      · rw [hkept i hi] at hnew
        cases hnew
    · obtain ⟨i, hi⟩ := Option.isSome_iff_exists.mp hsome
      rw [hkept i hi]
      rfl

private theorem carrySource_bitsOrCarry (st : Store) (period : UInt64) :
    carrySource (bitsOrCarry st period).1 period ⊆ carrySource st period := by
  simp only [bitsOrCarry]
  split
  · rw [carrySource_bondedSetOrCarry]
    exact List.nil_subset _
  · exact List.Subset.refl _

/-- Where the fall-back admits nobody, it admits nobody after a verification either. -/
private theorem fallbackActs_verifyLNPR (hno : fallbackActs st blob.period = []) :
    fallbackActs (verifyLNPR h st blob false).1 blob.period = [] := by
  rcases verifyLNPR_store h st blob with hst | hst <;> rw [hst]
  · exact hno
  · by_cases hzero : (debugSubjectsFromBits st).length = 0
    · rw [fallbackActs, if_pos hzero] at hno
      rw [fallbackActs]
      split
      · rw [List.eq_nil_iff_forall_not_mem] at hno ⊢
        intro a ha
        obtain ⟨r, hr, he⟩ := List.mem_filterMap.mp ha
        exact hno a (List.mem_filterMap.mpr ⟨r, carrySource_bitsOrCarry st blob.period hr, he⟩)
      · rfl
    · rw [bitsOrCarry, if_neg hzero]
      exact hno

private theorem stagedActs_eq_nil (hperiod : blob.period = period) (hno : fallbackActs st period = []) :
    stagedActs h st blob = [] := by
  subst hperiod
  have hverify {st : Store} (hno : fallbackActs st blob.period = []) : verifyActs h st blob false = [] :=
    (verifyActs_cases h st blob false).elim id (fun hv => hv.trans hno)
  rw [stagedActs, hverify hno, hverify (fallbackActs_verifyLNPR hno)]
  rfl

private theorem acceptedRow_validatorUpdates (hrow : acceptedRow (validatorUpdates st period).1 p s = true) :
    acceptedRow st p s = true ∨ p = period ∧ usingBits st = false := by
  unfold validatorUpdates at hrow
  split at hrow
  · rw [acceptedRow_eq (agree_sendUpdates (by decide) _ _ _)] at hrow
    exact .inl hrow
  · next hbits =>
    rw [acceptedRow_eq (agree_sendUpdates (by decide) _ _ _)] at hrow
    exact (acceptedRow_bondedSetOrCarry hrow).imp_right (fun hp => ⟨hp.1, Bool.eq_false_iff.mpr hbits⟩)

private theorem applyLNPR_of_ok (hv : (verifyLNPR h st blob false).2 = .ok ()) :
    (applyLNPR h st blob).1 =
      syncObjectRoots (blob.subjects.foldl (applyRow blob.period) (verifyLNPR h st blob false).1) := by
  unfold applyLNPR
  generalize verifyLNPR h st blob false = r at hv
  obtain ⟨st1, e | _⟩ := r
  · cases hv
  · rfl

/-- The accepted rows after a committed record: those before it, and rows of its period. -/
theorem acceptedRow_commitBlock (hs : Sound st) (hperiod : blob.period = period)
    (hok : commitBlock h st blob period = .ok st') (hrow : acceptedRow st' p s = true) :
    acceptedRow st p s = true ∨ p = period := by
  subst hperiod
  obtain ⟨_, hv, rfl⟩ := commitBlock_ok hok
  have happly : acceptedRow (applyLNPR h (verifyLNPR h st blob false).1 blob).1 p s = true ∨ p = blob.period := by
    simp only at hrow
    split at hrow
    · exact (acceptedRow_validatorUpdates hrow).imp_right And.left
    · exact .inl hrow
  rcases happly with happly | hp
  · rw [applyLNPR_of_ok hv, acceptedRow_eq (agree_syncObjectRoots (by decide) _)] at happly
    have hs2 := (hs.verifyLNPR h blob false).verifyLNPR h blob false
    rcases (acceptedRow_applyRows hs2 happly).1 with hold | ⟨hp, -⟩
    · rcases acceptedRow_verifyLNPR hold with hold | ⟨hp, -⟩
      · exact (acceptedRow_verifyLNPR hold).imp_right And.left
      · exact .inr hp
    · exact .inr hp
  · exact .inr hp

/-- Where the fall-back admits nobody, a numbered subject gets no new row from a committed record, and has none of
its period if the record lists it as leaving. -/
theorem acceptedRow_commitBlock_numbered (hs : Sound st) (hperiod : blob.period = period)
    (hok : commitBlock h st blob period = .ok st') (hc : (roster st').count < 2 ^ 32) {i : UInt32}
    (hi : (roster st).index s = some i) (hno : fallbackActs st period = []) (hrow : acceptedRow st' p s = true) :
    acceptedRow st p s = true ∧ ((∃ row ∈ blob.subjects, row.subject = s ∧ row.weight ≤ 0) → p ≠ period) := by
  subst hperiod
  obtain ⟨_, hv, rfl⟩ := commitBlock_ok hok
  have hs1 := hs.verifyLNPR h blob false
  have hs2 := hs1.verifyLNPR h blob false
  have hi1 : (roster (verifyLNPR h st blob false).1).index s = some i := by
    rw [roster_verifyLNPR]
    exact Roster.index_acts_of_some hi _
  have hi2 : (roster (verifyLNPR h (verifyLNPR h st blob false).1 blob false).1).index s = some i := by
    rw [roster_verifyLNPR]
    exact Roster.index_acts_of_some hi1 _
  have happly : acceptedRow (applyLNPR h (verifyLNPR h st blob false).1 blob).1 p s = true := by
    have hi3 : (roster (applyLNPR h (verifyLNPR h st blob false).1 blob).1).index s = some i := by
      rw [roster_applyLNPR hs1]
      exact Roster.index_acts_of_some hi1 _
    have hle : (roster (applyLNPR h (verifyLNPR h st blob false).1 blob).1).count < 2 ^ 32 := by
      rw [roster_apply_staged hs hv]
      exact (commitBlock_count_le hs hok).trans_lt hc
    have hbits := usingBits_of_index ((hs1.applyLNPR h blob).wf hle) hi3
    simp only at hrow
    split at hrow
    · refine (acceptedRow_validatorUpdates hrow).resolve_right (fun hp => ?_)
      rw [hbits] at hp
      exact Bool.false_ne_true hp.2.symm
    · exact hrow
  rw [applyLNPR_of_ok hv, acceptedRow_eq (agree_syncObjectRoots (by decide) _)] at happly
  obtain ⟨hold, hleaves⟩ := acceptedRow_applyRows hs2 happly
  refine ⟨?_, fun ⟨row, hmem, hsub, hw⟩ => hleaves (by rw [hi2]; rfl) row hmem hsub hw⟩
  have hold := hold.resolve_right (fun ⟨_, hnone⟩ => by rw [hi2] at hnone; cases hnone)
  have hold := (acceptedRow_verifyLNPR hold).resolve_right (fun ⟨_, hne⟩ => hne (fallbackActs_verifyLNPR hno))
  exact (acceptedRow_verifyLNPR hold).resolve_right (fun ⟨_, hne⟩ => hne hno)

end Rows

/-- What holds between the blocks of a run: the roots are in step, and no period to come has an accepted row. -/
structure InOrder (c : Net) : Prop where
  sound : Sound c.store
  synced : Synced c.store
  future : ∀ p, c.period < p → ∀ s, acceptedRow c.store p s ≠ true

section Block
variable {h : Host} {c : Net} {proposer : Nat} {period : UInt64} {st : Store} {blob : LNPRBlob}

theorem Synced.commitBlock {st st' : Store} (hs : Synced st) (hok : Keeper.commitBlock h st blob period = .ok st') :
    Synced st' := by
  obtain ⟨_, _, rfl⟩ := commitBlock_ok hok
  have happly := (hs.verifyLNPR h blob false).applyLNPR h blob
  simp only
  split
  · exact happly.validatorUpdates period
  · exact happly

private theorem honestBlock_commit (hok : honestBlock h c proposer period = some (st, blob)) :
    commitBlock h c.store blob period = .ok st := by
  unfold honestBlock at hok
  split at hok
  · cases hok
  · split at hok
    · cases hok
    · next hcommit =>
      obtain ⟨rfl, rfl⟩ := Prod.mk.inj (Option.some.inj hok)
      exact hcommit

private theorem honestBlock_record (hfit : (lnprFor h c.store (c.queues proposer) period).2.WireFits)
    (hok : honestBlock h c proposer period = some (st, blob)) :
    blob = (lnprFor h c.store (c.queues proposer) period).2 := by
  unfold honestBlock buildLNPR at hok
  simp only [decodeLNPR_encodeLNPR _ hfit] at hok
  split at hok
  · cases hok
  · exact (Prod.mk.inj (Option.some.inj hok)).2.symm

private theorem fallbackActs_sync (st : Store) (period : UInt64) :
    fallbackActs (syncObjectRoots st) period = fallbackActs st period := by
  have hbits : debugSubjectsFromBits (syncObjectRoots st) = debugSubjectsFromBits st :=
    debugSubjectsFromBits_congr (fun _ hk => getElem?_set_other rfl hk)
  rw [fallbackActs, fallbackActs, hbits, carrySource_eq_of_agree (agree_syncObjectRoots (by decide) st) period]

/-- A fall-back that admits somebody sets a bit. -/
private theorem bit_of_fallback (hs : Sound st) (hne : fallbackActs st period ≠ []) :
    ∃ j, bitIsSet (bitsOrCarry st period).1 j = true := by
  obtain ⟨as, a, has⟩ := (List.eq_nil_or_concat' _).resolve_left hne
  have ha : a ∈ fallbackActs st period := by
    rw [has]
    exact List.mem_append_right _ (List.mem_singleton_self a)
  have henroll : ∃ s w, a = .enroll s w := by
    unfold fallbackActs at ha
    split at ha
    · obtain ⟨r, -, he⟩ := List.mem_filterMap.mp ha
      split at he
      · exact ⟨_, _, (Option.some.inj he).symm⟩
      · cases he
    · cases ha
  obtain ⟨s, w, rfl⟩ := henroll
  have hw := (hs.fallbackActs ha).2.1
  have hbit (st : Store) (j : UInt32) : bitIsSet st j = (roster st).bit j := rfl
  refine ⟨((roster st).acts as).slot s, ?_⟩
  rw [hbit, roster_bitsOrCarry, has, Roster.acts_append, Roster.acts_cons, Roster.acts_nil, Roster.act,
    Roster.bit_enroll hw]
  simp

/-- A row that is not enrolled and was out, or that leaves, is out after the rows. -/
private theorem out_after_rows {r : Roster Bytes} (hwf : r.WF) {rows : List SubjectProof}
    (hn : (rows.map (·.subject)).Nodup) (hc : (r.acts (lnprActs rows)).count < 2 ^ 32) {s : Bytes} {i : UInt32}
    (hi : r.index s = some i) (hno : ∀ w, .enroll s w ∉ lnprActs rows) (hout : r.bit i = false) :
    (r.acts (lnprActs rows)).bit i = false := by
  by_cases hd : .drop s ∈ lnprActs rows
  · exact (Roster.acts_drop hwf hc (lnprActs_nodup hn) hd hi).1
  · have hm : s ∉ (lnprActs rows).map Act.subject := by
      intro hm
      obtain ⟨a, ha, rfl⟩ := List.mem_map.mp hm
      cases a with
      | enroll t w => exact hno w ha
      | drop t => exact hd ha
    rw [(Roster.acts_untouched hwf hc hi hm).1]
    exact hout

/-- A subject that is out and has no accepted row in the period is not admitted by the record. -/
private theorem not_enrolled (hs : Sound c.store) (hwf : (roster c.store).WF) (hno : fallbackActs c.store period = [])
    {s : Bytes} {i : UInt32} (hi : (roster c.store).index s = some i) (hb : (roster c.store).bit i = false)
    (hrow : acceptedRow c.store period s ≠ true) (w : Int64) :
    .enroll s w ∉ lnprActs (lnprFor h c.store (c.queues proposer) period).2.subjects := by
  have hsync := roster_syncObjectRoots c.store
  intro hm
  obtain ⟨row, hmem, rfl, rfl, _, hw⟩ := mem_lnprActs_enroll.mp hm
  rcases lnprFor_pos hmem hw with ⟨r, hr, hsub, hwr, -⟩ | hnone
  · unfold bitsOrCarry at hr
    dsimp only at hr
    split at hr
    · next hzero =>
      -- the rows of the period, where the fall-back has accepted none
      rw [bondedSetOrCarry_rows] at hr
      have hproof : r.hasProof = true := by
        by_contra hp
        rw [← hwr, bondedSet_weight hr (Bool.eq_false_iff.mpr hp)] at hw
        exact absurd hw (by decide)
      have haccepted := acceptedRow_of_mem hr hproof
      rw [hsub] at haccepted
      rcases acceptedRow_bondedSetOrCarry haccepted with hold | ⟨-, r', hr', -, hproof'⟩
      · rw [acceptedRow_eq (agree_syncObjectRoots (by decide) _)] at hold
        exact hrow hold
      · rw [← fallbackActs_sync, fallbackActs, if_pos hzero] at hno
        exact List.ne_nil_of_mem (mem_carryActs.mpr ⟨r', hr', hproof', rfl, rfl⟩) hno
    · have hwf' : (roster (syncObjectRoots c.store)).WF := by rwa [hsync]
      obtain ⟨t, k, hk, hbk, rfl⟩ := (mem_debugSubjectsFromBits hs.syncObjectRoots hwf').mp hr
      have hsub : t = row.subject := hsub
      rw [hsync] at hk hbk
      rw [hsub, hi] at hk
      obtain rfl := Option.some.inj hk
      rw [hb] at hbk
      cases hbk
  · rw [depositIndexOf_eq, roster_bitsOrCarry, hsync, Roster.index_acts_of_some hi] at hnone
    cases hnone

private theorem honestBlock_period (horder : Orderly h c (.block proposer period))
    (hok : honestBlock h c proposer period = some (st, blob)) : c.period ≤ period ∧ blob.period = period := by
  obtain ⟨hlater, hfit, -, -⟩ := horder
  rw [honestBlock_record hfit hok]
  exact ⟨hlater, lnprFor_period _ _ _ _⟩

variable (hset : InOrder c) (horder : Orderly h c (.block proposer period))
  (hok : honestBlock h c proposer period = some (st, blob))
include hset horder hok

/-- A committed record leaves accepted rows up to its own period only. -/
private theorem block_inOrder (queues : Nat → Queue) : InOrder ⟨st, queues, period⟩ := by
  obtain ⟨hlater, hperiod⟩ := honestBlock_period horder hok
  have hcommit := honestBlock_commit hok
  refine ⟨hset.sound.commitBlock hcommit, hset.synced.commitBlock hcommit, fun p hp s hrow => ?_⟩
  rcases acceptedRow_commitBlock hset.sound hperiod hcommit hrow with hold | rfl
  · exact hset.future p (UInt64.lt_of_le_of_lt hlater hp) s hold
  · exact UInt64.lt_irrefl _ hp

variable (hle : (roster c.store).count < 2 ^ 32)
include hle

/-- The record of a committed block was built on the bitfield of the committed store, so the fall-back admitted
nobody. -/
private theorem fallback_admits_nobody : fallbackActs c.store period = [] := by
  obtain ⟨-, hfit, hbinding, hdigest⟩ := horder
  obtain rfl := honestBlock_record hfit hok
  have hroots := hbinding (commitBlock_ok (honestBlock_commit hok)).1
  rw [lnprFor_store] at hroots hdigest
  have hbuilt : Synced (bitsOrCarry (syncObjectRoots c.store) period).1 :=
    (synced_syncObjectRoots c.store).bitsOrCarry period
  rw [hset.synced, hbuilt, objectRoots, objectRoots, List.append_assoc, List.append_assoc] at hroots
  have hbits := hdigest (List.append_inj_left hroots (by simp))
  by_contra hne
  rw [← fallbackActs_sync] at hne
  obtain ⟨j, hj⟩ := bit_of_fallback hset.sound.syncObjectRoots hne
  rw [bitIsSet, ← hbits] at hj
  have hlive : (debugSubjectsFromBits c.store).length ≠ 0 := live_rows (j := j) (hset.sound.wf hle) hj
  rw [fallbackActs_sync, fallbackActs, if_neg hlive] at hne
  exact hne rfl

variable (hc : (roster st).count < 2 ^ 32)
include hc

/-- A committed block is the rows of the built record. -/
private theorem roster_honestBlock (hnum : ∃ s i, (roster c.store).index s = some i) :
    roster st = (roster c.store).acts (lnprActs blob.subjects) := by
  have hno := fallback_admits_nobody hset horder hok hle
  have hcommit := honestBlock_commit hok
  have hstaged : stagedActs h c.store blob = [] := stagedActs_eq_nil (honestBlock_period horder hok).2 hno
  have hroster := roster_commitBlock hset.sound hcommit hnum ((commitBlock_count_le hset.sound hcommit).trans_lt hc)
  rwa [hstaged, Roster.acts_nil] at hroster

/-- A subject that holds a number is out and cannot come back by a row of the running period or a later one. -/
structure Out (c : Net) (s : Bytes) (i : UInt32) : Prop where
  index : (roster c.store).index s = some i
  bit : (roster c.store).bit i = false
  rows : ∀ p, c.period ≤ p → acceptedRow c.store p s ≠ true

private theorem block_keeps_out {s : Bytes} {i : UInt32} (hout : Out c s i) :
    (roster st).index s = some i ∧ (roster st).bit i = false ∧ ∀ p, period ≤ p → acceptedRow st p s ≠ true := by
  have hno := fallback_admits_nobody hset horder hok hle
  have hroster := roster_honestBlock hset horder hok hle hc ⟨s, i, hout.index⟩
  obtain ⟨hlater, hperiod⟩ := honestBlock_period horder hok
  have hcommit := honestBlock_commit hok
  have hwf := hset.sound.wf hle
  refine ⟨?_, ?_, fun p hp hrow => ?_⟩
  · rw [hroster]
    exact Roster.index_acts_of_some hout.index _
  · rw [hroster] at hc ⊢
    refine out_after_rows hwf (verifyLNPR_ok_nodup (commitBlock_ok hcommit).1) hc hout.index ?_ hout.bit
    obtain ⟨-, hfit, -, -⟩ := horder
    rw [honestBlock_record hfit hok]
    exact not_enrolled hset.sound hwf hno hout.index hout.bit (hout.rows period hlater)
  · have hold := (acceptedRow_commitBlock_numbered hset.sound hperiod hcommit hc hout.index hno hrow).1
    exact hout.rows p (UInt64.le_trans hlater hp) hold

private theorem block_deletes_row {s : Bytes} {i : UInt32} (hi : (roster c.store).index s = some i)
    (hleaves : ∃ row ∈ blob.subjects, row.subject = s ∧ row.weight ≤ 0) {p : UInt64} (hp : period ≤ p) :
    acceptedRow st p s ≠ true := by
  have hno := fallback_admits_nobody hset horder hok hle
  obtain ⟨hlater, hperiod⟩ := honestBlock_period horder hok
  intro hrow
  obtain ⟨hold, hleft⟩ :=
    acceptedRow_commitBlock_numbered hset.sound hperiod (honestBlock_commit hok) hc hi hno hrow
  have hlt : c.period < p := UInt64.lt_of_le_of_lt hlater (UInt64.lt_of_le_of_ne hp (hleft hleaves).symm)
  exact hset.future p hlt s hold

end Block

section Run
variable {h : Host} {c : Net} {e : Event} {evs : List Event}

theorem InOrder.step (hset : InOrder c) (horder : Orderly h c e) : InOrder (netStep h c e) := by
  cases e with
  | note node tx => exact ⟨hset.sound, hset.synced, hset.future⟩
  | block proposer period =>
    simp only [netStep]
    cases hok : honestBlock h c proposer period with
    | none => exact hset
    | some b => exact block_inOrder hset horder hok _

private theorem netStep_acts (hs : Sound c.store) (h : Host) (e : Event) :
    ∃ as, roster (netStep h c e).store = (roster c.store).acts as := by
  cases e with
  | note node tx => exact ⟨[], rfl⟩
  | block proposer period =>
    simp only [netStep]
    cases hok : honestBlock h c proposer period with
    | none => exact ⟨[], rfl⟩
    | some b => exact commitBlock_acts hs (honestBlock_commit hok)

private theorem count_le_netStep (hs : Sound c.store) (h : Host) (e : Event) :
    (roster c.store).count ≤ (roster (netStep h c e).store).count := by
  obtain ⟨as, has⟩ := netStep_acts hs h e
  rw [has]
  exact Roster.count_le_acts _ _

theorem Out.step (hset : InOrder c) (horder : Orderly h c e) (hc : (roster (netStep h c e).store).count < 2 ^ 32)
    {s : Bytes} {i : UInt32} (hout : Out c s i) : Out (netStep h c e) s i := by
  have hle := (count_le_netStep hset.sound h e).trans_lt hc
  cases e with
  | note node tx => exact ⟨hout.index, hout.bit, hout.rows⟩
  | block proposer period =>
    simp only [netStep] at hc ⊢
    cases hok : honestBlock h c proposer period with
    | none => exact hout
    | some b =>
      rw [hok] at hc
      obtain ⟨hi, hb, hrows⟩ := block_keeps_out hset horder hok hle hc hout
      exact ⟨hi, hb, hrows⟩

private theorem Clears.out (hset : InOrder c) (horder : Orderly h c e)
    (hc : (roster (netStep h c e).store).count < 2 ^ 32) {s : Bytes} {i : UInt32} (hclear : Clears h c e s i) :
    Out (netStep h c e) s i := by
  obtain _ | ⟨proposer, period⟩ := e
  · cases hclear
  obtain ⟨⟨⟨st, blob⟩, hok, row, hrow, hsub, hw⟩, hi, -, hout⟩ := hclear
  have hok : honestBlock h c proposer period = some (st, blob) := hok
  have hle := (count_le_netStep hset.sound h _).trans_lt hc
  have hnet : netStep h c (.block proposer period) =
      ⟨st, fun node => blob.subjects.foldl Queue.forgetRow (c.queues node), period⟩ := by
    simp only [netStep, hok]
  obtain ⟨as, has⟩ := netStep_acts hset.sound h (.block proposer period)
  rw [hnet] at hc has hout ⊢
  refine ⟨?_, hout, fun p hp => ?_⟩
  · rw [has]
    exact Roster.index_acts_of_some hi as
  · exact block_deletes_row hset horder hok hle hc hi ⟨row, hrow, hsub, hw ▸ Int64.le_refl 0⟩ hp

end Run

end Terpz.Leanval.Keeper
