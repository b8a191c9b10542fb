import Terpz.Lib.Sha256
import Terpz.Leanval.Keeper.Lnpr

/-! The queue of JOIN and LEAV bytes and the LNPR a proposer builds from it. The queue lives in
RAM and, unless persistence is off, in files named by the hash of their bytes. -/
namespace Terpz.Leanval.Keeper
open Lib Lib.PrefixStore

structure Queue where
  txs : List Bytes
  persistEnabled : Bool
  /-- The membership directory, keyed by the SHA-256 in the file name. -/
  files : Store

namespace Queue

def persistMembershipFile (q : Queue) (tx : Bytes) : Queue :=
  if q.persistEnabled then { q with files := set q.files (sha256 tx) tx } else q

def loadMembershipFiles (q : Queue) : List Bytes :=
  if q.persistEnabled then ((iteratePrefix q.files []).map Prod.snd).filter isMembershipTx else []

def noteMembershipBytes (q : Queue) (tx : Bytes) : Queue :=
  if !isMembershipTx tx then q
  else if tx ∈ q.txs then q.persistMembershipFile tx
  else persistMembershipFile { q with txs := q.txs ++ [tx] } tx

def pendingMembershipTxs (q : Queue) : List Bytes :=
  q.txs ++ q.loadMembershipFiles.filter (fun tx => tx ∉ q.txs)

/-- The bytes are a JOIN or a LEAV of the subject, of a kind that is dropped. -/
def spentBy (subject : Bytes) (dropJoin dropLeave : Bool) (tx : Bytes) : Bool :=
  (dropJoin && (decodeJoin tx).any (fun j => j.subject == subject)) ||
    (dropLeave && (decodeLeave tx).any (fun l => l.subject == subject))

def forgetMembership (q : Queue) (subject : Bytes) (dropJoin dropLeave : Bool) : Queue :=
  if subject.length = 0 then q
  else
    let spent := spentBy subject dropJoin dropLeave
    let gone := (iteratePrefix q.files []).filter (fun e => spent e.2)
    { q with
      txs := q.txs.filter (fun tx => !spent tx)
      files := if q.persistEnabled then gone.foldl (fun files e => delete files e.1) q.files else q.files }

def forgetMembershipSubject (q : Queue) (subject : Bytes) : Queue := q.forgetMembership subject true true

/-- A pending LEAV outlives a refresh of its subject. -/
def forgetMembershipJoin (q : Queue) (subject : Bytes) : Queue := q.forgetMembership subject true false

/-- What applying a row drops from the queue. -/
def forgetRow (q : Queue) (s : SubjectProof) : Queue :=
  if s.weight ≤ 0 then q.forgetMembershipSubject s.subject else q.forgetMembershipJoin s.subject

end Queue

/-- A JOIN of a subject that holds a number is not queued again. -/
def noteMembershipTx (st : Store) (q : Queue) (tx : Bytes) : Queue :=
  match decodeJoin tx with
  | some j => if (depositIndexOf st j.subject).isSome then q else q.noteMembershipBytes tx
  | none => q.noteMembershipBytes tx

/-- Subjects with a LEAV applied in this period or pending in the queue. -/
def leavers (st : Store) (q : Queue) (period : UInt64) : List Bytes :=
  let pref := pendingLeavePrefixForPeriod period
  (iteratePrefix st pref).map (fun e => e.1.drop pref.length) ++
    q.pendingMembershipTxs.filterMap (fun tx => do
      let l ← decodeLeave tx
      match validateLeave l with
      | .ok _ => some l.subject
      | .error _ => none)

def queuedJoin (st : Store) (tx : Bytes) : Option SubjectPower :=
  if (decodeLeave tx).isSome then none
  else do
    let j ← decodeJoin tx
    match validateJoin j with
    | .error _ => none
    | .ok _ => if (depositIndexOf st j.subject).isSome then none else some ⟨j.subject, j.weight, true⟩

def leaveRow (leave : List Bytes) (s : SubjectPower) : SubjectPower :=
  if s.subject ∈ leave then { s with weight := 0, hasProof := true } else s

def addJoin (leave : List Bytes) (out : List SubjectPower) (j : SubjectPower) : List SubjectPower :=
  if j.subject ∈ leave then out else if j.subject ∈ out.map (·.subject) then out else out ++ [j]

/-- A LEAV is listed on its own only for a subject of the roster that is not listed yet. -/
def addLeave (inSet : List Bytes) (out : List SubjectPower) (subject : Bytes) : List SubjectPower :=
  if subject ∈ out.map (·.subject) then out else if subject ∉ inSet then out else out ++ [⟨subject, 0, true⟩]

def applyQueuedMembership (st : Store) (q : Queue) (period : UInt64) (rows : List SubjectPower) :
    List SubjectPower :=
  let leave := leavers st q period
  let joins := q.pendingMembershipTxs.filterMap (queuedJoin st)
  let out := joins.foldl (addJoin leave) (rows.map (leaveRow leave))
  sortBySubject (leave.foldl (addLeave (rows.map (·.subject))) out)

def joinProofFor (q : Queue) (subject : Bytes) : Bytes :=
  ((q.pendingMembershipTxs.filterMap decodeJoin).find? (fun j => j.subject == subject)).elim [] (·.proof)

/-- The proof of a JOIN extra: the one queued with it, or a fresh one for the next number. -/
def extraProof (h : Host) (q : Queue) (period : UInt64) (extraIdx : UInt32) (s : SubjectProof) : Bytes :=
  let proof := joinProofFor q s.subject
  let proof := if containsBytes proof dummyMagic then [] else proof
  if proof.length = 0 then
    match proveValsetStwo h period extraIdx.toUInt64 (claimedEB s.weight) with
    | .ok p => p
    | .error _ => proof
  else proof

def attachExtras (h : Host) (q : Queue) (period : UInt64) (known : List Bytes) :
    UInt32 → List SubjectProof → List SubjectProof
  | _, [] => []
  | extraIdx, s :: rest =>
    if s.subject ∈ known ∨ s.weight ≤ 0 then s :: attachExtras h q period known extraIdx rest
    else { s with proof := extraProof h q period extraIdx s } :: attachExtras h q period known (extraIdx + 1) rest

/-- The aggregate rides on the first roster row, or on a row of its own. -/
def attachFold (known : List Bytes) (fold : Bytes) (subs : List SubjectProof) : List SubjectProof :=
  if subs.length = 0 then [⟨depositIndexBytes 0, 0, fold⟩]
  else subs.modify ((subs.findIdx? (fun s => decide (s.subject ∈ known))).getD 0) (fun s => { s with proof := fold })

def attachDummies (period : UInt64) (roots : Bytes) : Nat → List SubjectProof → List SubjectProof
  | _, [] => []
  | raw, s :: rest =>
    if raw ≥ maxRawStarksPerLNPR then s :: rest
    else if s.proof.length > 0 then s :: attachDummies period roots raw rest
    else { s with proof := dummyStwoProveBoundRoots period s.subject s.weight roots } ::
      attachDummies period roots (raw + 1) rest

/-- With an aggregate the roster rows need no proofs; without one the lab mode fills them in. -/
def attachRoster (h : Host) (period : UInt64) (known : List Bytes) (roots : Bytes) (subs : List SubjectProof) :
    List SubjectProof :=
  match proveSameStatementFold h (foldPairStrings roots) with
  | .ok fold =>
    if fold.length > 0 then attachFold known fold subs
    else if h.allowDummy then attachDummies period roots 0 subs
    else subs
  | .error _ => if h.allowDummy then attachDummies period roots 0 subs else subs

/-- The record before encoding, and the store its construction leaves behind. -/
def lnprFor (h : Host) (st : Store) (q : Queue) (period : UInt64) : Store × LNPRBlob :=
  let (st, rows) := bitsOrCarry (syncObjectRoots st) period
  let known := rows.map (·.subject)
  let subs := (applyQueuedMembership st q period rows).map (fun s => (⟨s.subject, s.weight, []⟩ : SubjectProof))
  let subs := attachExtras h q period known (nextDepositIndex st) subs
  (st, ⟨period, attachRoster h period known (lastObjectRoots st) subs⟩)

/-- The record in terms of the roster the builder falls back to. -/
theorem lnprFor_of {h : Host} {st : Store} {q : Queue} {period : UInt64} {p : Store × List SubjectPower}
    (hp : bitsOrCarry (syncObjectRoots st) period = p) :
    lnprFor h st q period = (p.1, ⟨period, attachRoster h period (p.2.map (·.subject)) (lastObjectRoots p.1)
      (attachExtras h q period (p.2.map (·.subject)) (nextDepositIndex p.1)
        ((applyQueuedMembership p.1 q period p.2).map (fun s => ⟨s.subject, s.weight, []⟩)))⟩) := by
  rw [lnprFor, hp]

/-- Building the record leaves the store of the fall-back. -/
theorem lnprFor_store (h : Host) (st : Store) (q : Queue) (period : UInt64) :
    (lnprFor h st q period).1 = (bitsOrCarry (syncObjectRoots st) period).1 := by
  generalize hp : bitsOrCarry (syncObjectRoots st) period = p
  rw [lnprFor_of hp]

@[simp] theorem lnprFor_period (h : Host) (st : Store) (q : Queue) (period : UInt64) :
    (lnprFor h st q period).2.period = period := rfl

def buildLNPR (h : Host) (st : Store) (q : Queue) (period : UInt64) : Store × Bytes :=
  ((lnprFor h st q period).1, encodeLNPR (lnprFor h st q period).2)

/-- What a row says, whatever proof it carries. -/
def SubjectProof.claim (s : SubjectProof) : Bytes × Int64 := (s.subject, s.weight)

theorem attachExtras_claims (h : Host) (q : Queue) (period : UInt64) (known : List Bytes) (extraIdx : UInt32)
    (subs : List SubjectProof) :
    (attachExtras h q period known extraIdx subs).map SubjectProof.claim = subs.map SubjectProof.claim := by
  induction subs generalizing extraIdx with
  | nil => rfl
  | cons s rest ih =>
    rw [attachExtras]
    split
    · rw [List.map_cons, List.map_cons, ih]
    · rw [List.map_cons, List.map_cons, ih]
      rfl

theorem attachDummies_claims (period : UInt64) (roots : Bytes) (raw : Nat) (subs : List SubjectProof) :
    (attachDummies period roots raw subs).map SubjectProof.claim = subs.map SubjectProof.claim := by
  induction subs generalizing raw with
  | nil => rfl
  | cons s rest ih =>
    rw [attachDummies]
    split
    · rfl
    · split
      · rw [List.map_cons, List.map_cons, ih]
      · rw [List.map_cons, List.map_cons, ih]
        rfl

theorem attachFold_claims (known : List Bytes) (fold : Bytes) (subs : List SubjectProof) :
    (attachFold known fold subs).map SubjectProof.claim =
      if subs.length = 0 then [(depositIndexBytes 0, 0)] else subs.map SubjectProof.claim := by
  unfold attachFold
  split
  · rfl
  · generalize (subs.findIdx? (fun s => decide (s.subject ∈ known))).getD 0 = i
    clear * -
    induction subs generalizing i with
    | nil => cases i <;> rfl
    | cons s rest ih =>
      cases i with
      | zero => rfl
      | succ i => rw [List.modify_succ_cons, List.map_cons, List.map_cons, ih]

section Queued
variable {st : Store} {q : Queue} {period : UInt64} {rows : List SubjectPower}

/-- An invariant of the output list that the two queue loops keep. Each appends subjects not
listed yet, and the second only such that were in the roster. -/
private theorem queued_invariant {P : List SubjectPower → Prop} (leave inSet : List Bytes) (joins : List SubjectPower)
    (hjoin : ∀ out, ∀ j ∈ joins, j.subject ∉ out.map (·.subject) → P out → P (out ++ [j]))
    (hleave : ∀ out, ∀ s ∈ inSet, s ∉ out.map (·.subject) → P out → P (out ++ [⟨s, 0, true⟩]))
    {out : List SubjectPower} (h : P out) : P (leave.foldl (addLeave inSet) (joins.foldl (addJoin leave) out)) := by
  have hl (ls : List Bytes) (out : List SubjectPower) (h : P out) : P (ls.foldl (addLeave inSet) out) := by
    induction ls generalizing out with
    | nil => exact h
    | cons s ls ih =>
      refine ih _ ?_
      unfold addLeave
      split
      · exact h
      · rename_i hnew
        split
        · exact h
        · rename_i hin
          exact hleave _ _ (not_not.mp hin) hnew h
  refine hl leave _ ?_
  induction joins generalizing out with
  | nil => exact h
  | cons j joins ih =>
    refine ih (fun out t ht => hjoin out t (List.mem_cons_of_mem _ ht)) ?_
    unfold addJoin
    split
    · exact h
    · split
      · exact h
      · rename_i hnew
        exact hjoin _ _ List.mem_cons_self hnew h

private theorem queuedJoin_eq_some {tx : Bytes} {j : SubjectPower} (h : queuedJoin st tx = some j) :
    depositIndexOf st j.subject = none ∧ j.weight > 0 := by
  unfold queuedJoin at h
  split at h
  · cases h
  · obtain ⟨b, _, h⟩ := Option.bind_eq_some_iff.mp h
    split at h
    · cases h
    · rename_i hvalid
      split at h
      · cases h
      · rename_i hi
        obtain rfl := Option.some.inj h
        refine ⟨Option.not_isSome_iff_eq_none.mp hi, ?_⟩
        by_contra hw
        unfold validateJoin at hvalid
        rw [if_pos (Int64.not_lt.mp hw)] at hvalid
        split at hvalid <;> cases hvalid

/-- A positive row is a roster row that is not leaving, or a JOIN of a subject without a number. -/
theorem applyQueuedMembership_pos {r : SubjectPower} (hr : r ∈ applyQueuedMembership st q period rows)
    (hw : r.weight > 0) :
    (r ∈ rows ∧ r.subject ∉ leavers st q period) ∨ depositIndexOf st r.subject = none := by
  rw [applyQueuedMembership, sortBySubject, List.mem_insertionSort] at hr
  refine queued_invariant (P := fun out => ∀ r ∈ out, r.weight > 0 →
    (r ∈ rows ∧ r.subject ∉ leavers st q period) ∨ depositIndexOf st r.subject = none) _ _ _ ?_ ?_ ?_ r hr hw
  · intro out j hj _ hout r hr hw
    rcases List.mem_append.mp hr with hr | hr
    · exact hout r hr hw
    · obtain rfl := List.mem_singleton.mp hr
      obtain ⟨tx, _, htx⟩ := List.mem_filterMap.mp hj
      exact .inr (queuedJoin_eq_some htx).1
  · intro out s _ _ hout r hr hw
    rcases List.mem_append.mp hr with hr | hr
    · exact hout r hr hw
    · obtain rfl := List.mem_singleton.mp hr
      exact absurd hw (by simp)
  · intro r hr hw
    obtain ⟨s, hs, rfl⟩ := List.mem_map.mp hr
    unfold leaveRow at hw ⊢
    split
    · rename_i hl
      rw [if_pos hl] at hw
      exact absurd hw (by simp)
    · rename_i hl
      exact .inl ⟨hs, hl⟩

/-- Every roster row is listed, a leaving one with weight 0. -/
theorem applyQueuedMembership_lists {r : SubjectPower} (hr : r ∈ rows) :
    leaveRow (leavers st q period) r ∈ applyQueuedMembership st q period rows := by
  rw [applyQueuedMembership, sortBySubject, List.mem_insertionSort]
  refine queued_invariant (P := fun out => leaveRow (leavers st q period) r ∈ out) _ _ _ ?_ ?_ ?_
  · intro out j _ _ hout
    exact List.mem_append_left _ hout
  · intro out s _ _ hout
    exact List.mem_append_left _ hout
  · exact List.mem_map_of_mem hr

/-- The queue adds no subject twice. -/
theorem applyQueuedMembership_nodup (hn : (rows.map (·.subject)).Nodup) :
    ((applyQueuedMembership st q period rows).map (·.subject)).Nodup := by
  have hsnoc (out : List SubjectPower) (r : SubjectPower) (hnew : r.subject ∉ out.map (·.subject))
      (h : (out.map (·.subject)).Nodup) : ((out ++ [r]).map (·.subject)).Nodup := by
    rw [List.map_append, List.map_singleton, ← List.concat_eq_append]
    exact h.concat hnew
  rw [applyQueuedMembership, sortBySubject, ((List.perm_insertionSort _ _).map _).nodup_iff]
  refine queued_invariant (P := fun out => (out.map (·.subject)).Nodup) _ _ _ ?_ ?_ ?_
  · intro out j _ hnew h
    exact hsnoc out j hnew h
  · intro out s _ hnew h
    exact hsnoc out _ hnew h
  · have hsubject : (rows.map (leaveRow (leavers st q period))).map (·.subject) = rows.map (·.subject) := by
      rw [List.map_map]
      apply List.map_congr_left
      intro r _
      simp only [Function.comp_apply, leaveRow]
      split <;> rfl
    rwa [hsubject]

/-- Beside an empty roster only JOINs are listed. -/
theorem applyQueuedMembership_nil_pos {r : SubjectPower} (hr : r ∈ applyQueuedMembership st q period []) :
    r.weight > 0 := by
  rw [applyQueuedMembership, sortBySubject, List.mem_insertionSort] at hr
  refine queued_invariant (P := fun out => ∀ r ∈ out, r.weight > 0) _ _ _ ?_ ?_ ?_ r hr
  · intro out j hj _ hout r hr
    rcases List.mem_append.mp hr with hr | hr
    · exact hout r hr
    · obtain rfl := List.mem_singleton.mp hr
      obtain ⟨tx, _, htx⟩ := List.mem_filterMap.mp hj
      exact (queuedJoin_eq_some htx).2
  · intro out s hs
    cases hs
  · intro r hr
    cases hr

end Queued

section Built
variable {h : Host} {st : Store} {q : Queue} {period : UInt64}

private theorem attachRoster_claims (h : Host) (period : UInt64) (known : List Bytes) (roots : Bytes)
    (subs : List SubjectProof) :
    (attachRoster h period known roots subs).map SubjectProof.claim = subs.map SubjectProof.claim ∨
      (subs = [] ∧ (attachRoster h period known roots subs).map SubjectProof.claim = [(depositIndexBytes 0, 0)]) := by
  have hdummy : (if h.allowDummy then attachDummies period roots 0 subs else subs).map SubjectProof.claim =
      subs.map SubjectProof.claim := by
    split
    · exact attachDummies_claims _ _ _ _
    · rfl
  unfold attachRoster
  split
  · split
    · rw [attachFold_claims]
      split
      · rename_i hl
        exact .inr ⟨List.length_eq_zero_iff.mp hl, rfl⟩
      · exact .inl rfl
    · exact .inl hdummy
  · exact .inl hdummy

/-- The built record lists the queued roster, or a single weight-0 row for the aggregate. -/
theorem lnprFor_claims (h : Host) (st : Store) (q : Queue) (period : UInt64) :
    let p := bitsOrCarry (syncObjectRoots st) period
    let claims := (lnprFor h st q period).2.subjects.map SubjectProof.claim
    let out := applyQueuedMembership p.1 q period p.2
    claims = out.map (fun r => (r.subject, r.weight)) ∨ (out = [] ∧ claims = [(depositIndexBytes 0, 0)]) := by
  intro p claims out
  have hsubs : (attachExtras h q period (p.2.map (·.subject)) (nextDepositIndex p.1)
      (out.map (fun s => (⟨s.subject, s.weight, []⟩ : SubjectProof)))).map SubjectProof.claim =
        out.map (fun r => (r.subject, r.weight)) := by
    rw [attachExtras_claims, List.map_map]
    rfl
  rcases attachRoster_claims h period (p.2.map (·.subject)) (lastObjectRoots p.1)
    (attachExtras h q period (p.2.map (·.subject)) (nextDepositIndex p.1)
      (out.map (fun s => (⟨s.subject, s.weight, []⟩ : SubjectProof)))) with hc | ⟨hnil, hc⟩
  · exact .inl (hc.trans hsubs)
  · rw [hnil] at hsubs
    exact .inr ⟨List.map_eq_nil_iff.mp hsubs.symm, hc⟩

/-- A positive row of the built record is a roster row that is not leaving, or a subject without a number. -/
theorem lnprFor_pos {row : SubjectProof} (hrow : row ∈ (lnprFor h st q period).2.subjects) (hw : row.weight > 0) :
    let p := bitsOrCarry (syncObjectRoots st) period
    (∃ r ∈ p.2, r.subject = row.subject ∧ r.weight = row.weight ∧ r.subject ∉ leavers p.1 q period) ∨
      depositIndexOf p.1 row.subject = none := by
  intro p
  have hclaim : (row.subject, row.weight) ∈ (lnprFor h st q period).2.subjects.map SubjectProof.claim :=
    List.mem_map_of_mem hrow
  rcases lnprFor_claims h st q period with hc | ⟨_, hc⟩
  · rw [hc] at hclaim
    obtain ⟨r, hr, he⟩ := List.mem_map.mp hclaim
    obtain ⟨hs, hwr⟩ := Prod.mk.inj he
    rcases applyQueuedMembership_pos hr (hwr ▸ hw) with ⟨hr, hl⟩ | hnone
    · exact .inl ⟨r, hr, hs, hwr, hl⟩
    · rw [hs] at hnone
      exact .inr hnone
  · rw [hc] at hclaim
    obtain ⟨_, hzero⟩ := Prod.mk.inj (List.mem_singleton.mp hclaim)
    rw [hzero] at hw
    exact absurd hw (by decide)

end Built

end Terpz.Leanval.Keeper
