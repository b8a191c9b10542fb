import Terpz.Leanval.JoinStatement
import Terpz.Leanval.Keeper.Proposal
import Terpz.Leanval.Keeper.Provers

/-! Whether a node accepts what it proposes. The builder does not cap the JOIN proofs it attaches,
and reads the object roots behind a fall-back that the verifier reads them before. -/
namespace Terpz.Leanval.Keeper
open Lib Lib.PrefixStore

/-- A valid JOIN without a proof, or a valid LEAV. -/
def validPending (tx : Bytes) : Bool :=
  match decodeJoin tx with
  | some j => (validateJoin j).isOk && j.proof.isEmpty
  | none => (decodeLeave tx).any (fun l => (validateLeave l).isOk)

/-- The builder takes the row for a JOIN. -/
def joins (known : List Bytes) (s : SubjectProof) : Bool := decide (s.subject ∉ known) && decide (s.weight > 0)

private theorem hasStwoMagic_length {proof : Bytes} (hm : hasStwoMagic proof = true) : 4 ≤ proof.length := by
  simp only [hasStwoMagic, Bool.and_eq_true, decide_eq_true_eq] at hm
  exact hm.1

/-- Without queued proofs every JOIN gets a fresh one. -/
private theorem joinProofFor_eq_nil {q : Queue} (hq : ∀ tx ∈ q.pendingMembershipTxs, validPending tx = true)
    (s : Bytes) : joinProofFor q s = [] := by
  unfold joinProofFor
  cases hj : (q.pendingMembershipTxs.filterMap decodeJoin).find? (fun j => j.subject == s) with
  | none => rfl
  | some j =>
    obtain ⟨tx, htx, hdec⟩ := List.mem_filterMap.mp (List.mem_of_find?_eq_some hj)
    have hvalid := hq tx htx
    simp only [validPending, hdec, Bool.and_eq_true, List.isEmpty_iff] at hvalid
    exact hvalid.2

section Rows
variable {h : Host} {period : UInt64} {roots fold : Bytes} {known : List Bytes} {i raw : Nat} {idx : UInt64}
  {s : SubjectProof}

/-- Beside an aggregate a row of the roster passes with no proof, or with the aggregate itself. -/
private theorem verifyRow_plain (hx : isExtra known s = false) (hdummy : containsBytes s.proof dummyMagic = false)
    (hproof : s.proof = [] ∨ isFoldProof s.proof = true) :
    verifyRow h period roots (some fold) known i raw idx s = .ok (raw, idx) := by
  have hcount : (decide (s.proof.length > 0) && !isFoldProof s.proof) = false := by
    rcases hproof with hp | hp
    · simp [hp]
    · simp [hp]
  simp [verifyRow, failIf_bind, hx, hdummy, hcount]

/-- A row with a raw proof takes a place below the cap; as a JOIN it is checked for its number. -/
private theorem verifyRow_raw (hm : hasStwoMagic s.proof = true) (hnf : isFoldProof s.proof = false)
    (hdummy : containsBytes s.proof dummyMagic = false) (hsmall : s.proof.length ≤ maxProofBytes)
    (hok : isExtra known s = true → verifyValsetStwo h s.proof period idx (claimedEB s.weight) = .ok ()) :
    verifyRow h period roots (some fold) known i raw idx s =
      if raw < maxRawStarksPerLNPR then .ok (raw + 1, if isExtra known s then idx + 1 else idx)
      else .error (errProof "too many raw STARKs per slot (aggregate or cap)") := by
  have hpos : 0 < s.proof.length := lt_of_lt_of_le (by decide) (hasStwoMagic_length hm)
  have hne : s.proof ≠ [] := List.ne_nil_of_length_pos hpos
  have hbig : ¬ s.proof.length > maxProofBytes := by omega
  by_cases hroom : raw < maxRawStarksPerLNPR
  · have hcap : ¬ maxRawStarksPerLNPR < raw + 1 := by omega
    cases hx : isExtra known s with
    | false => simp [verifyRow, failIf_bind, hx, hdummy, hpos, hnf, hcap, hroom]
    | true =>
      have hproof : verifySubjectProof h period idx s roots = .ok () := by
        rw [verifySubjectProof, if_pos hm]
        exact hok hx
      simp [verifyRow, failIf_bind, hx, hdummy, hpos, hcap, hroom, hne, hnf, hm, hbig, hproof]
  · have hcap : maxRawStarksPerLNPR < raw + 1 := by omega
    simp [verifyRow, failIf_bind, hdummy, hpos, hnf, hcap, hroom]

private theorem verifyRows_cons_ok {rest : List SubjectProof} {raw' : Nat} {idx' : UInt64}
    (hrow : verifyRow h period roots (some fold) known i raw idx s = .ok (raw', idx')) :
    verifyRows h period roots (some fold) known i raw idx (s :: rest) =
      verifyRows h period roots (some fold) known (i + 1) raw' idx' rest := by
  rw [verifyRows, hrow]
  rfl

/-- The verifier checks what the builder takes for a JOIN, unless it knows no roster at all. -/
private theorem isExtra_eq (known : List Bytes) (s : SubjectProof) :
    isExtra known s = (joins known s && decide (known ≠ [])) := by
  simp [isExtra, joins, List.length_pos_iff]

/-- The proof of a JOIN is one for the number it will be checked with. -/
private theorem extraProof_complete {q : Queue} (hq : ∀ s, joinProofFor q s = [])
    (hval : ∀ index eb, index < 2 ^ 40 → ∃ proof, ValsetComplete h period index eb proof) (next : UInt32)
    (s : SubjectProof) :
    ValsetComplete h period next.toUInt64 (claimedEB s.weight) (extraProof h q period next s) := by
  have hlt : next.toUInt64 < 2 ^ 40 := by
    rw [UInt64.lt_iff_toNat_lt, UInt32.toNat_toUInt64]
    exact lt_trans next.toNat_lt (by decide)
  obtain ⟨proof, hv⟩ := hval next.toUInt64 (claimedEB s.weight) hlt
  have hnil : containsBytes [] dummyMagic = false := rfl
  have heq : extraProof h q period next s = proof := by simp [extraProof, hq, hnil, hv.proved]
  rwa [heq]

private theorem succ_toUInt64 {v : UInt32} (hv : v.toNat + 1 < 2 ^ 32) : (v + 1).toUInt64 = v.toUInt64 + 1 := by
  apply UInt64.toNat_inj.mp
  simp only [UInt32.toNat_toUInt64, UInt32.toNat_add, UInt64.toNat_add, UInt32.toNat_one, UInt64.toNat_one]
  omega

/-- Over rows with freshly made proofs the loop fails only at the cap. -/
private theorem verifyRows_attachExtras {q : Queue} (hq : ∀ s, joinProofFor q s = [])
    (hval : ∀ index eb, index < 2 ^ 40 → ∃ proof, ValsetComplete h period index eb proof) {subs : List SubjectProof}
    (hsubs : ∀ s ∈ subs, s.proof = []) {next : UInt32} (hidx : known ≠ [] → idx = next.toUInt64)
    (hraw : raw ≤ maxRawStarksPerLNPR) (hroom : next.toNat + (maxRawStarksPerLNPR - raw) < 2 ^ 32) :
    verifyRows h period roots (some fold) known i raw idx (attachExtras h q period known next subs) = .ok () ↔
      raw + subs.countP (joins known) ≤ maxRawStarksPerLNPR := by
  induction subs generalizing i raw idx next with
  | nil => simpa [attachExtras, verifyRows] using hraw
  | cons s rest ih =>
    have hrest : ∀ s ∈ rest, s.proof = [] := fun t ht => hsubs t (List.mem_cons_of_mem _ ht)
    by_cases hj : joins known s = true
    · have hbuild : ¬ (s.subject ∈ known ∨ s.weight ≤ 0) := by
        simp only [joins, Bool.and_eq_true, decide_eq_true_eq] at hj
        rw [not_or, Int64.not_le]
        exact hj
      have hv := extraProof_complete hq hval next s
      rw [attachExtras, if_neg hbuild, List.countP_cons_of_pos hj]
      generalize extraProof h q period next s = proof at hv ⊢
      obtain ⟨hm, hdummy⟩ := hv.accepted
      have hchecked : isExtra known { s with proof := proof } = true →
          verifyValsetStwo h proof period idx (claimedEB s.weight) = .ok () := by
        intro hx
        rw [isExtra_eq, Bool.and_eq_true, decide_eq_true_eq] at hx
        rw [hidx hx.2]
        exact hv.verifies
      have hrow : verifyRow h period roots (some fold) known i raw idx { s with proof := proof } =
          if raw < maxRawStarksPerLNPR then
            .ok (raw + 1, if isExtra known { s with proof := proof } then idx + 1 else idx)
          else .error (errProof "too many raw STARKs per slot (aggregate or cap)") :=
        verifyRow_raw hm hv.notFold hdummy hv.small hchecked
      by_cases hcap : raw < maxRawStarksPerLNPR
      · rw [if_pos hcap] at hrow
        rw [verifyRows_cons_ok hrow, ih hrest ?_ (by omega) ?_]
        · omega
        · intro hk
          have hx : isExtra known { s with proof := proof } = true := by
            rw [isExtra_eq, decide_eq_true hk, Bool.and_true]
            exact hj
          rw [if_pos hx, hidx hk, succ_toUInt64 (by omega)]
        · rw [UInt32.toNat_add, UInt32.toNat_one, Nat.mod_eq_of_lt (by omega)]
          omega
      · rw [if_neg hcap] at hrow
        rw [verifyRows, hrow]
        constructor
        · intro hc
          cases hc
        · intro hc
          omega
    · have hbuild : s.subject ∈ known ∨ s.weight ≤ 0 := by
        by_contra hc
        rw [not_or, Int64.not_le] at hc
        exact hj (by simpa [joins] using hc)
      have hx : isExtra known s = false := by
        rw [isExtra_eq, Bool.eq_false_iff.mpr hj, Bool.false_and]
      have hs := hsubs s List.mem_cons_self
      rw [attachExtras, if_pos hbuild, verifyRows_cons_ok (verifyRow_plain hx (by rw [hs]; rfl) (.inl hs)),
        ih hrest hidx hraw hroom, List.countP_cons_of_neg hj]

/-- Putting the aggregate on a roster row without a proof changes nothing for the loop. -/
private theorem verifyRows_modify (hf : isFoldProof fold = true) (hdummy : containsBytes fold dummyMagic = false)
    {rows : List SubjectProof} {k : Nat} (hk : ∀ s, rows[k]? = some s → isExtra known s = false ∧ s.proof = []) :
    verifyRows h period roots (some fold) known i raw idx (rows.modify k (fun s => { s with proof := fold })) =
      verifyRows h period roots (some fold) known i raw idx rows := by
  induction rows generalizing i raw idx k with
  | nil => rw [List.modify_nil]
  | cons s rest ih =>
    cases k with
    | zero =>
      obtain ⟨hx, hs⟩ := hk s rfl
      have hfold : verifyRow h period roots (some fold) known i raw idx { s with proof := fold } = .ok (raw, idx) :=
        verifyRow_plain hx hdummy (.inr hf)
      rw [List.modify_zero_cons, verifyRows_cons_ok hfold,
        verifyRows_cons_ok (verifyRow_plain hx (by rw [hs]; rfl) (.inl hs))]
    | succ k =>
      rw [List.modify_succ_cons]
      simp only [verifyRows]
      congr 1
      funext p
      exact ih hk

end Rows

section Built
variable {h : Host} {period : UInt64} {roots fold : Bytes} {known : List Bytes} {q : Queue} {next : UInt32}
  {subs : List SubjectProof} (hq : ∀ s, joinProofFor q s = [])
  (hval : ∀ index eb, index < 2 ^ 40 → ∃ proof, ValsetComplete h period index eb proof)
  (hsubs : ∀ s ∈ subs, s.proof = [])
include hq hval hsubs

/-- No row is taken for the aggregate before it is attached, and the roster's rows are bare. -/
private theorem attachExtras_proofs {s : SubjectProof} (hs : s ∈ attachExtras h q period known next subs) :
    isFoldProof s.proof = false ∧ (s.subject ∈ known → s.proof = []) ∧ s.proof.length ≤ maxProofBytes := by
  induction subs generalizing next with
  | nil => cases hs
  | cons t rest ih =>
    have hrest : ∀ s ∈ rest, s.proof = [] := fun u hu => hsubs u (List.mem_cons_of_mem _ hu)
    rw [attachExtras] at hs
    split at hs
    · rcases List.mem_cons.mp hs with rfl | hs
      · have hnil := hsubs s List.mem_cons_self
        exact ⟨by rw [hnil]; rfl, fun _ => hnil, by rw [hnil]; exact Nat.zero_le _⟩
      · exact ih hrest hs
    · rename_i hj
      rcases List.mem_cons.mp hs with rfl | hs
      · have hv := extraProof_complete hq hval next t
        exact ⟨hv.notFold, fun hk => absurd (.inl hk) hj, hv.small⟩
      · exact ih hrest hs

private theorem attachFold_small (hfold : fold.length ≤ maxProofBytes) {s : SubjectProof}
    (hs : s ∈ attachFold known fold (attachExtras h q period known next subs)) : s.proof.length ≤ maxProofBytes := by
  unfold attachFold at hs
  split at hs
  · rw [List.mem_singleton.mp hs]
    exact hfold
  · obtain ⟨i, hi⟩ := List.mem_iff_getElem?.mp hs
    rw [List.getElem?_modify] at hi
    obtain ⟨t, ht, rfl⟩ := Option.map_eq_some_iff.mp hi
    split
    · exact hfold
    · exact (attachExtras_proofs hq hval hsubs (List.mem_of_getElem? ht)).2.2

/-- The attached aggregate is the one the verifier picks. -/
private theorem foldProof_attachFold (hf : isFoldProof fold = true) :
    foldProofFromLNPR ⟨period, attachFold known fold (attachExtras h q period known next subs)⟩ = some fold := by
  have hbare : ∀ s ∈ attachExtras h q period known next subs, isFoldProof s.proof = false :=
    fun s hs => (attachExtras_proofs hq hval hsubs hs).1
  generalize attachExtras h q period known next subs = rows at hbare
  unfold attachFold
  split
  · simp [foldProofFromLNPR, hf]
  · rename_i hlen
    have hlt : (rows.findIdx? (fun s => decide (s.subject ∈ known))).getD 0 < rows.length := by
      cases hk : rows.findIdx? (fun s => decide (s.subject ∈ known)) with
      | none => exact Nat.pos_of_ne_zero hlen
      | some k => exact (List.findIdx?_eq_some_iff_findIdx_eq.mp hk).1
    obtain ⟨pre, s, post, hrows, _, hmod⟩ :=
      List.exists_of_modify (fun s : SubjectProof => { s with proof := fold }) hlt
    have hpre : pre.find? (fun s => isFoldProof s.proof) = none := by
      apply List.find?_eq_none.mpr
      intro t ht
      rw [hbare t (by rw [hrows]; exact List.mem_append_left _ ht)]
      exact Bool.false_ne_true
    rw [hmod, foldProofFromLNPR, List.find?_append, hpre, Option.none_or]
    simp [hf]

/-- Beside an empty roster the aggregate takes the place of the first JOIN's proof. -/
private theorem verifyRows_newcomers (hf : isFoldProof fold = true) (hdummy : containsBytes fold dummyMagic = false)
    (hjoins : ∀ s ∈ subs, s.weight > 0) (hroom : next.toNat + maxRawStarksPerLNPR < 2 ^ 32) :
    verifyRows h period roots (some fold) [] 0 1 next.toUInt64
        (attachFold [] fold (attachExtras h q period [] next subs)) = .ok () ↔
      subs.countP (joins []) ≤ maxRawStarksPerLNPR := by
  have hmax : maxRawStarksPerLNPR = 8 := rfl
  have hrow (subject : Bytes) (weight : Int64) :
      verifyRow h period roots (some fold) [] 0 1 next.toUInt64 ⟨subject, weight, fold⟩ = .ok (1, next.toUInt64) :=
    verifyRow_plain (by rw [isExtra_eq]; simp) hdummy (.inr hf)
  cases subs with
  | nil => simp [attachExtras, attachFold, verifyRows_cons_ok (hrow _ _), verifyRows]
  | cons s rest =>
    have hw : s.weight > 0 := hjoins s List.mem_cons_self
    have hj : joins [] s = true := by simp [joins, hw]
    have hbuild : ¬ (s.subject ∈ [] ∨ s.weight ≤ 0) := by
      rw [not_or, Int64.not_le]
      exact ⟨List.not_mem_nil, hw⟩
    have hbuilt : attachFold [] fold (attachExtras h q period [] next (s :: rest)) =
        { s with proof := fold } :: attachExtras h q period [] (next + 1) rest := by
      have hfind (rows : List SubjectProof) :
          rows.findIdx? (fun s => decide (s.subject ∈ ([] : List Bytes))) = none := by simp
      rw [attachExtras, if_neg hbuild, attachFold, if_neg (by simp), hfind]
      rfl
    have hnext : (next + 1).toNat = next.toNat + 1 := by
      rw [UInt32.toNat_add, UInt32.toNat_one, Nat.mod_eq_of_lt (by omega)]
    rw [hbuilt, verifyRows_cons_ok (hrow _ _), List.countP_cons_of_pos hj, verifyRows_attachExtras hq hval
      (fun t ht => hsubs t (List.mem_cons_of_mem _ ht)) (fun hc => absurd rfl hc) (by decide) (by omega), add_comm]

omit hq hval hsubs in
/-- A roster row is still there after the JOINs got their proofs. -/
private theorem findIdx_attachExtras (hroster : ∃ s ∈ subs, s.subject ∈ known) :
    ∃ k, (attachExtras h q period known next subs).findIdx? (fun s => decide (s.subject ∈ known)) = some k := by
  apply Option.ne_none_iff_exists'.mp
  intro hnone
  obtain ⟨s, hs, hin⟩ := hroster
  have hclaim : SubjectProof.claim s ∈ (attachExtras h q period known next subs).map SubjectProof.claim := by
    rw [attachExtras_claims]
    exact List.mem_map_of_mem hs
  obtain ⟨t, ht, hclaim⟩ := List.mem_map.mp hclaim
  have hout := List.findIdx?_eq_none_iff.mp hnone t ht
  rw [show t.subject = s.subject from congrArg Prod.fst hclaim] at hout
  exact absurd hin (of_decide_eq_false hout)

/-- Beside a roster the aggregate rides on a roster row and takes one place of the cap. -/
private theorem verifyRows_beside_roster (hf : isFoldProof fold = true)
    (hdummy : containsBytes fold dummyMagic = false) (hroster : ∃ s ∈ subs, s.subject ∈ known)
    (hroom : next.toNat + maxRawStarksPerLNPR < 2 ^ 32) :
    verifyRows h period roots (some fold) known 0 1 next.toUInt64
        (attachFold known fold (attachExtras h q period known next subs)) = .ok () ↔
      subs.countP (joins known) ≤ maxRawStarksPerLNPR - 1 := by
  have hmax : maxRawStarksPerLNPR = 8 := rfl
  obtain ⟨k, hfind⟩ : ∃ k, (attachExtras h q period known next subs).findIdx?
      (fun s => decide (s.subject ∈ known)) = some k := findIdx_attachExtras hroster
  obtain ⟨hlt, hin, _⟩ := List.findIdx?_eq_some_iff_getElem.mp hfind
  have hrow : ∀ s, (attachExtras h q period known next subs)[k]? = some s →
      isExtra known s = false ∧ s.proof = [] := by
    intro s hs
    rw [List.getElem?_eq_getElem hlt] at hs
    obtain rfl := Option.some.inj hs
    have hin := of_decide_eq_true hin
    exact ⟨by simp [isExtra, hin], (attachExtras_proofs hq hval hsubs (List.getElem_mem hlt)).2.1 hin⟩
  have hbuilt : attachFold known fold (attachExtras h q period known next subs) =
      (attachExtras h q period known next subs).modify k (fun s => { s with proof := fold }) := by
    rw [attachFold, if_neg (by omega), hfind]
    rfl
  rw [hbuilt, verifyRows_modify hf hdummy hrow,
    verifyRows_attachExtras hq hval hsubs (fun _ => rfl) (by decide) (by omega)]
  omega

end Built

section Roster
variable {st : Store} {period : UInt64}

/-- Carrying writes the same rows into stores with the same rows. -/
private theorem agree_carryRows {st st' : Store} (h : Agree [bondedPrefix] st st') (rows : List SubjectPower) :
    Agree [bondedPrefix] (rows.foldl (carryRow period) st) (rows.foldl (carryRow period) st') := by
  have hadmit (st : Store) (s : Bytes) (w : Int64) : Agree [bondedPrefix] st (admitMember st s w) :=
    agree_admitMember (by decide) st s w
  induction rows generalizing st st' with
  | nil => exact h
  | cons r rows ih =>
    refine ih ?_
    unfold carryRow
    split
    · intro k hk
      rw [acceptProof, acceptProof, ← hadmit _ _ _ k hk, ← hadmit _ _ _ k hk]
      exact h.set k hk
    · exact h.set

private theorem debugSubjectsFromBits_sync (st : Store) :
    debugSubjectsFromBits (syncObjectRoots st) = debugSubjectsFromBits st :=
  debugSubjectsFromBits_congr (fun _ hk => getElem?_set_other rfl hk)

/-- Recomputing the roots moves nothing the known roster is read from. -/
private theorem bitsOrCarry_sync (st : Store) (period : UInt64) :
    (bitsOrCarry (syncObjectRoots st) period).2 = (bitsOrCarry st period).2 ∧
    roster (bitsOrCarry (syncObjectRoots st) period).1 = roster (bitsOrCarry st period).1 := by
  have hbits := debugSubjectsFromBits_sync st
  have hagree : Agree [bondedPrefix] st (syncObjectRoots st) := agree_syncObjectRoots (by decide) st
  have hsource := carrySource_eq_of_agree hagree period
  constructor
  · unfold bitsOrCarry
    simp only [hbits]
    split
    · rw [bondedSetOrCarry_rows, bondedSetOrCarry_rows st, bondedSetOrCarry_store, bondedSetOrCarry_store, ← hsource]
      exact (bondedSet_eq_of_agree (agree_carryRows hagree _) period).symm
    · rfl
  · rw [roster_bitsOrCarry, roster_bitsOrCarry, roster_syncObjectRoots, fallbackActs, fallbackActs, hbits, hsource]

private theorem next_bitsOrCarry (hs : Sound st) (period : UInt64) :
    nextDepositIndex (bitsOrCarry st period).1 = nextDepositIndex st := by
  rw [nextDepositIndex_eq, nextDepositIndex_eq, roster_bitsOrCarry]
  exact (Roster.acts_numbered hs.stored (fallbackActs_numbered hs period)).1

private theorem bitsOrCarry_nodup (hs : Sound st) (hwf : (roster st).WF) (period : UInt64) :
    ((bitsOrCarry st period).2.map (·.subject)).Nodup := by
  unfold bitsOrCarry
  simp only
  split
  · rw [bondedSetOrCarry_rows]
    exact bondedSet_nodup _ period
  · exact debugSubjectsFromBits_nodup hs hwf

end Roster

/-- The rows a proposer lists: the known roster with the queue applied. -/
def listedRows (st : Store) (q : Queue) (period : UInt64) : List SubjectPower :=
  let (st, rows) := bitsOrCarry (syncObjectRoots st) period
  applyQueuedMembership st q period rows

/-- The JOINs among them, beside the known roster. -/
def joinExtras (st : Store) (q : Queue) (period : UInt64) : List SubjectPower :=
  let known := (bitsOrCarry (syncObjectRoots st) period).2.map (·.subject)
  (listedRows st q period).filter (fun s => decide (s.subject ∉ known) && decide (s.weight > 0))

/-- How many JOINs fit. The aggregate counts as a raw proof itself; beside an empty roster it
displaces the proof of one JOIN. -/
def joinRoom (st : Store) (period : UInt64) : Nat :=
  if (bitsOrCarry st period).2 = [] then maxRawStarksPerLNPR else maxRawStarksPerLNPR - 1

/-- The object roots a proposer reads: those behind the roster fall-back. -/
def rootsAfterFallback (st : Store) (period : UInt64) : Bytes :=
  lastObjectRoots (bitsOrCarry (syncObjectRoots st) period).1

section Record
variable {h : Host} {st : Store} {q : Queue} {period : UInt64} {fold : Bytes} {p : Store × List SubjectPower}

/-- The rows of a record before any proof is attached. -/
private def bareRows (p : Store × List SubjectPower) (q : Queue) (period : UInt64) : List SubjectProof :=
  (applyQueuedMembership p.1 q period p.2).map (fun s => ⟨s.subject, s.weight, []⟩)

private theorem bareRows_bare : ∀ s ∈ bareRows p q period, s.proof = [] := by
  intro s hs
  obtain ⟨r, _, rfl⟩ := List.mem_map.mp hs
  rfl

private theorem countP_bareRows (hp : bitsOrCarry (syncObjectRoots st) period = p) :
    (bareRows p q period).countP (joins (p.2.map (·.subject))) = (joinExtras st q period).length := by
  rw [joinExtras, listedRows, hp, ← List.countP_eq_length_filter, bareRows, List.countP_map]
  rfl

private theorem bareRows_roster (hne : p.2 ≠ []) : ∃ s ∈ bareRows p q period, s.subject ∈ p.2.map (·.subject) := by
  obtain ⟨r, hr⟩ := List.exists_mem_of_ne_nil _ hne
  refine ⟨_, List.mem_map_of_mem (applyQueuedMembership_lists hr), List.mem_map.mpr ⟨r, hr, ?_⟩⟩
  simp only [leaveRow]
  split <;> rfl

/-- Beside an empty roster there are only JOINs. -/
private theorem bareRows_newcomers (hnil : p.2 = []) : ∀ s ∈ bareRows p q period, s.weight > 0 := by
  intro s hs
  rw [bareRows, hnil] at hs
  obtain ⟨r, hr, rfl⟩ := List.mem_map.mp hs
  exact applyQueuedMembership_nil_pos hr

/-- With its aggregate the record is the bare rows with every proof in its place. -/
private theorem lnprFor_complete (hp : bitsOrCarry (syncObjectRoots st) period = p)
    (hfold : FoldComplete h (lastObjectRoots p.1) fold) :
    (lnprFor h st q period).2 = ⟨period, attachFold (p.2.map (·.subject)) fold
      (attachExtras h q period (p.2.map (·.subject)) (nextDepositIndex p.1) (bareRows p q period))⟩ := by
  have hlen : fold.length > 0 := by
    have hf := hfold.accepted.1
    simp only [isFoldProof, Bool.and_eq_true, decide_eq_true_eq] at hf
    omega
  rw [lnprFor_of hp, attachRoster, hfold.proved]
  simp only
  rw [if_pos hlen, bareRows]

private theorem lnprFor_nodup (hp : bitsOrCarry (syncObjectRoots st) period = p)
    (hn : (p.2.map (·.subject)).Nodup) : ((lnprFor h st q period).2.subjects.map (·.subject)).Nodup := by
  have hsubjects : (lnprFor h st q period).2.subjects.map (·.subject) =
      ((lnprFor h st q period).2.subjects.map SubjectProof.claim).map Prod.fst := by
    rw [List.map_map]
    rfl
  rw [hsubjects]
  have hclaims := lnprFor_claims h st q period
  simp only [hp] at hclaims
  rcases hclaims with hc | ⟨_, hc⟩
  · rw [hc, List.map_map]
    exact applyQueuedMembership_nodup hn
  · rw [hc]
    exact List.nodup_singleton _

private theorem verifyRows_record {roots : Bytes} (hp : bitsOrCarry (syncObjectRoots st) period = p)
    (hroom : (nextDepositIndex p.1).toNat + maxRawStarksPerLNPR < 2 ^ 32) (hq : ∀ s, joinProofFor q s = [])
    (hval : ∀ index eb, index < 2 ^ 40 → ∃ proof, ValsetComplete h period index eb proof)
    (hfold : FoldComplete h (lastObjectRoots p.1) fold) :
    verifyRows h period roots (some fold) (p.2.map (·.subject)) 0 1 (nextDepositIndex p.1).toUInt64
        (lnprFor h st q period).2.subjects = .ok () ↔
      (joinExtras st q period).length ≤ if p.2 = [] then maxRawStarksPerLNPR else maxRawStarksPerLNPR - 1 := by
  obtain ⟨hf, hdummy⟩ := hfold.accepted
  have hbare : ∀ s ∈ bareRows p q period, s.proof = [] := bareRows_bare
  rw [lnprFor_complete hp hfold, ← countP_bareRows hp]
  generalize nextDepositIndex p.1 = next at hroom ⊢
  by_cases hnil : p.2 = []
  · have hnew : ∀ s ∈ bareRows p q period, s.weight > 0 := bareRows_newcomers hnil
    rw [if_pos hnil, hnil, List.map_nil]
    generalize bareRows p q period = subs at hbare hnew ⊢
    exact verifyRows_newcomers hq hval hbare hf hdummy hnew hroom
  · have hroster : ∃ s ∈ bareRows p q period, s.subject ∈ p.2.map (·.subject) := bareRows_roster hnil
    rw [if_neg hnil]
    generalize bareRows p q period = subs at hbare hroster ⊢
    generalize p.2.map (·.subject) = known at hroster ⊢
    exact verifyRows_beside_roster hq hval hbare hf hdummy hroster hroom

/-- Within the limits of the wire the record is read back as it was built. -/
private theorem lnprFor_fits (hq : ∀ s, joinProofFor q s = [])
    (hval : ∀ index eb, index < 2 ^ 40 → ∃ proof, ValsetComplete h period index eb proof)
    (hfold : FoldComplete h (rootsAfterFallback st period) fold) (hrows : (listedRows st q period).length < 2 ^ 16)
    (hsubjects : ∀ r ∈ listedRows st q period, r.subject.length < 2 ^ 8) :
    (lnprFor h st q period).2.WireFits := by
  have hclaims := lnprFor_claims h st q period
  rw [rootsAfterFallback] at hfold
  rw [listedRows] at hrows hsubjects
  generalize hp : bitsOrCarry (syncObjectRoots st) period = p at hclaims hfold hrows hsubjects
  have hproof : ∀ s ∈ (lnprFor h st q period).2.subjects, s.proof.length < 2 ^ 32 := by
    intro s hs
    rw [lnprFor_complete hp hfold] at hs
    exact (attachFold_small hq hval bareRows_bare hfold.small hs).trans_lt (by decide)
  have hmem {s : SubjectProof} (hs : s ∈ (lnprFor h st q period).2.subjects) :
      SubjectProof.claim s ∈ (lnprFor h st q period).2.subjects.map SubjectProof.claim := List.mem_map_of_mem hs
  have hlength : (lnprFor h st q period).2.subjects.length =
      ((lnprFor h st q period).2.subjects.map SubjectProof.claim).length := by rw [List.length_map]
  simp only at hclaims
  rcases hclaims with hc | ⟨_, hc⟩
  · rw [hc, List.length_map] at hlength
    refine ⟨hlength ▸ hrows, fun s hs => ?_, hproof⟩
    obtain ⟨r, hr, hclaim⟩ := List.mem_map.mp (hc ▸ hmem hs)
    rw [← show r.subject = s.subject from congrArg Prod.fst hclaim]
    exact hsubjects r hr
  · rw [hc] at hlength
    refine ⟨hlength ▸ (by decide), fun s hs => ?_, hproof⟩
    have hclaim := List.mem_singleton.mp (hc ▸ hmem hs)
    rw [show s.subject = depositIndexBytes 0 from congrArg Prod.fst hclaim]
    decide

/-- With complete provers a built record verifies on the store it was built from exactly when its
JOINs fit and the roots it was built for are the committed ones. -/
private theorem verifyLNPR_built (hs : Sound st) (hc : (roster st).count + maxRawStarksPerLNPR < 2 ^ 32)
    (hq : ∀ s, joinProofFor q s = [])
    (hval : ∀ index eb, index < 2 ^ 40 → ∃ proof, ValsetComplete h period index eb proof)
    (hfold : FoldComplete h (rootsAfterFallback st period) fold) :
    (verifyLNPR h st (lnprFor h st q period).2 false).2 = .ok () ↔
      (joinExtras st q period).length ≤ joinRoom st period ∧ rootsAfterFallback st period = lastObjectRoots st := by
  have hwf : (roster st).WF := hs.wf (by omega)
  have hknown := (bitsOrCarry_sync st period).1
  have hnext : nextDepositIndex (bitsOrCarry st period).1 =
      nextDepositIndex (bitsOrCarry (syncObjectRoots st) period).1 := by
    rw [nextDepositIndex_eq, nextDepositIndex_eq, (bitsOrCarry_sync st period).2]
  have hroom : (nextDepositIndex (bitsOrCarry st period).1).toNat + maxRawStarksPerLNPR < 2 ^ 32 := by
    rw [next_bitsOrCarry hs, nextDepositIndex_eq, hwf.next_eq]
    exact hc
  have hnodup := bitsOrCarry_nodup hs hwf period
  rw [joinRoom, ← hknown]
  rw [← hknown] at hnodup
  rw [hnext] at hroom
  generalize hp : bitsOrCarry (syncObjectRoots st) period = p at hknown hnext hnodup hroom
  rw [rootsAfterFallback, hp] at hfold ⊢
  obtain ⟨hf, hdummy⟩ := hfold.accepted
  have hpick : foldProofFromLNPR (lnprFor h st q period).2 = some fold := by
    rw [lnprFor_complete hp hfold]
    exact foldProof_attachFold hq hval bareRows_bare hf
  have hne : (lnprFor h st q period).2.subjects.length ≠ 0 := by
    intro hl
    rw [foldProofFromLNPR, List.length_eq_zero_iff.mp hl] at hpick
    cases hpick
  have hunique : checkLNPRUniqueness st (lnprFor h st q period).2 = .ok () :=
    (checkLNPRUniqueness_eq_ok hne).mpr (lnprFor_nodup hp hnodup)
  have haggregate : verifyAggregate h (some fold) (lastObjectRoots st) = .ok () ↔
      lastObjectRoots p.1 = lastObjectRoots st := by
    have hpad (st : Store) : padRoots (lastObjectRoots st) = lastObjectRoots st := padTo_of_length (padTo_length _ _)
    rw [verifyAggregate, failIf_bind_eq_ok, hfold.verifies, hpad, hpad]
    exact ⟨fun he => he.2.symm, fun he => ⟨not_lt.mpr hfold.small, he.symm⟩⟩
  rw [verifyLNPR_eq_ok hne, hpick, lnprFor_period, ← hknown, hnext]
  simp only [Option.isSome_some, if_true]
  rw [verifyRows_record hp hroom hq hval hfold, haggregate]
  exact ⟨fun hv => ⟨hv.2.2, hv.2.1⟩, fun hv => ⟨hunique, hv.2, hv.1⟩⟩

end Record

/-- A reachable state, a queue of valid requests, and complete provers. -/
structure HonestProposer (h : Host) (st : Store) (q : Queue) (period : UInt64) : Prop where
  reachable : Reachable h st
  valid : ∀ tx ∈ q.pendingMembershipTxs, validPending tx = true
  valset : ∀ index eb, index < 2 ^ 40 → ∃ proof, ValsetComplete h period index eb proof
  fold : ∃ proof, FoldComplete h (rootsAfterFallback st period) proof

/-- Deposit indices are left for the JOINs, and the rows fit the length fields of the record. -/
structure WithinLimits (st : Store) (q : Queue) (period : UInt64) : Prop where
  indices : (roster st).count + maxRawStarksPerLNPR < 2 ^ 32
  rows : (listedRows st q period).length < 2 ^ 16
  subjects : ∀ r ∈ listedRows st q period, r.subject.length < 2 ^ 8

/-- A node accepts its own proposal on the state it was prepared on exactly when the queued JOINs
fit beside the aggregate and the roster fall-back leaves the object roots as committed. -/
theorem prepared_passes_check_iff (h : Host) (bin : Option SsleBin) (live : Int64) (inner : Option InnerAnswer)
    (st : Store) (q : Queue) (req : PrepareRequest) {txs : List Bytes} (hinner : innerTxs inner req.txs = .ok txs)
    (hp : HonestProposer h st (notedQueue st q req.txs txs) (periodFromHeight live req.height))
    (hl : WithinLimits st (notedQueue st q req.txs txs) (periodFromHeight live req.height)) (requireLNPR : Bool) :
    ∃ p, wrapPrepareProposal h bin live inner st q req = .ok p ∧
      ((checkLNPR h requireLNPR live st req.height p.txs).2 = .ok () ↔
        (joinExtras st (notedQueue st q req.txs txs) (periodFromHeight live req.height)).length ≤
            joinRoom st (periodFromHeight live req.height) ∧
          rootsAfterFallback st (periodFromHeight live req.height) = lastObjectRoots st) := by
  obtain ⟨p, hok, hslot⟩ := wrapPrepareProposal_ok h live st bin q hinner
  obtain ⟨proof, hfold⟩ := hp.fold
  have hq := joinProofFor_eq_nil hp.valid
  have hfits := lnprFor_fits hq hp.valset hfold hl.rows hl.subjects
  refine ⟨p, hok, ?_⟩
  rw [checkLNPR_inSlot h live st hslot hfits (lnprFor_period ..) requireLNPR]
  exact verifyLNPR_built hp.reachable.sound hl.indices hq hp.valset hfold

def soloStore : Store := genesisStore ∅ soloGenesis

def joinTx (b : UInt8) : Bytes := encodeJoin ⟨0, keyOf b, 5, []⟩

/-- A queue in RAM only. -/
def ramQueue (txs : List Bytes) : Queue := ⟨txs, false, ∅⟩

/-- Eight JOINs beside one validator. -/
def eightJoins : List Bytes := [1, 2, 3, 4, 5, 6, 7, 8].map joinTx

/-- The only validator has left by a block of period 1. -/
def desertedStore : Store :=
  run (opStep honestHost) soloStore
    [.applyLNPR (lnprFor honestHost soloStore (ramQueue [encodeLeave ⟨1, keyOf 0xa1⟩]) 1).2]

/-- An honest node's request at a height, with no inner handler and no tickets. -/
def prepareAt (st : Store) (txs : List Bytes) (height : Int64) : Except String Prepared :=
  wrapPrepareProposal honestHost none 600 none st (ramQueue txs) ⟨height, [], []⟩

private theorem honestProposer {st : Store} {txs : List Bytes} {period : UInt64} (hr : Reachable honestHost st)
    (hvalid : (ramQueue txs).pendingMembershipTxs.all validPending = true)
    (hplain : PlainRoots (rootsAfterFallback st period)) : HonestProposer honestHost st (ramQueue txs) period where
  reachable := hr
  valid := List.all_eq_true.mp hvalid
  valset index eb hi := ⟨_, honestHost_valset _ index eb hi⟩
  fold := ⟨_, honestHost_fold hplain⟩

/-- The eighth JOIN is one raw proof too many, and once the only validator has left the aggregate
is made for the roster the fall-back brings back. -/
theorem honest_proposals_rejected :
    (HonestProposer honestHost soloStore (ramQueue eightJoins) 0 ∧
      (prepareAt soloStore eightJoins 1).map (fun p => (checkLNPR honestHost true 600 soloStore 1 p.txs).2) =
        .ok (.error "leanval: too many raw STARKs per slot (aggregate or cap)")) ∧
    (HonestProposer honestHost desertedStore (ramQueue []) 1 ∧
      (prepareAt desertedStore [] 600).map (fun p => (checkLNPR honestHost true 600 desertedStore 600 p.txs).2) =
        .ok (.error "leanval: fold public inputs != bitfield root")) := by
  have hcrowd : (ramQueue eightJoins).pendingMembershipTxs.all validPending = true ∧
      PlainRoots (rootsAfterFallback soloStore 0) ∧
      (prepareAt soloStore eightJoins 1).map (fun p => (checkLNPR honestHost true 600 soloStore 1 p.txs).2) =
        .ok (.error "leanval: too many raw STARKs per slot (aggregate or cap)") := by
    decide +kernel
  have hdeserted : (ramQueue []).pendingMembershipTxs.all validPending = true ∧
      PlainRoots (rootsAfterFallback desertedStore 1) ∧
      (prepareAt desertedStore [] 600).map (fun p => (checkLNPR honestHost true 600 desertedStore 600 p.txs).2) =
        .ok (.error "leanval: fold public inputs != bitfield root") := by
    decide +kernel
  obtain ⟨hvalid, hplain, hcheck⟩ := hcrowd
  obtain ⟨hvalid', hplain', hcheck'⟩ := hdeserted
  exact ⟨⟨honestProposer ⟨soloGenesis, _, [], rfl, rfl⟩ hvalid hplain, hcheck⟩,
    ⟨honestProposer ⟨soloGenesis, _, _, rfl, rfl⟩ hvalid' hplain', hcheck'⟩⟩

private theorem seven_facts :
    ((ramQueue (eightJoins.take 7)).pendingMembershipTxs.all validPending = true ∧
      PlainRoots (rootsAfterFallback soloStore 0)) ∧
    ((roster soloStore).count + maxRawStarksPerLNPR < 2 ^ 32 ∧
      (listedRows soloStore (ramQueue (eightJoins.take 7)) 0).length < 2 ^ 16 ∧
      ∀ r ∈ listedRows soloStore (ramQueue (eightJoins.take 7)) 0, r.subject.length < 2 ^ 8) ∧
    (joinExtras soloStore (ramQueue (eightJoins.take 7)) 0).length ≤ joinRoom soloStore 0 ∧
      rootsAfterFallback soloStore 0 = lastObjectRoots soloStore := by
  decide +kernel

/-- Seven JOINs pass. -/
theorem seven_joins_pass :
    ∃ p, prepareAt soloStore (eightJoins.take 7) 1 = .ok p ∧
      (checkLNPR honestHost true 600 soloStore 1 p.txs).2 = .ok () := by
  obtain ⟨⟨hvalid, hplain⟩, ⟨hindices, hrows, hsubjects⟩, hpass⟩ := seven_facts
  obtain ⟨p, hok, hiff⟩ := prepared_passes_check_iff honestHost none 600 none soloStore
    (ramQueue (eightJoins.take 7)) ⟨1, [], []⟩ rfl (honestProposer ⟨soloGenesis, _, [], rfl, rfl⟩ hvalid hplain)
    ⟨hindices, hrows, hsubjects⟩ true
  exact ⟨p, hok, hiff.mpr hpass⟩

end Terpz.Leanval.Keeper
