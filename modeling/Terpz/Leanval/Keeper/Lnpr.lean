import Terpz.Leanval.Keeper.Bonded
import Terpz.Leanval.Keeper.Proofs

/-! The LNPR gate, its application, and the other writers of membership.
Verification itself may write: with no bit set it carries an earlier period's rows. -/
namespace Terpz.Leanval.Keeper
open Lib Lib.PrefixStore

def rejectEmptyReplace (st : Store) (blob : LNPRBlob) : Except String Unit :=
  if blob.subjects.length > 0 then .ok ()
  else failIf (hasBondedOrPrior st blob.period) (errProof "empty LNPR replace")

def checkLNPRUniqueness (st : Store) (blob : LNPRBlob) : Except String Unit := do
  rejectEmptyReplace st blob
  failIf (¬ (blob.subjects.map (·.subject)).Nodup) (errProof "duplicate subject")

/-- A positive row for a subject outside the roster the verifier knows. -/
def isExtra (known : List Bytes) (s : SubjectProof) : Bool :=
  !known.contains s.subject && decide (s.weight > 0) && decide (known.length > 0)

section Rows
variable (h : Host) (period : UInt64) (roots : Bytes) (fold : Option Bytes) (known : List Bytes)

/-- One turn of the row loop: the raw-proof count and the next JOIN number after it. -/
def verifyRow (i raw : Nat) (extraIdx : UInt64) (s : SubjectProof) : Except String (Nat × UInt64) := do
  let dummy := containsBytes s.proof dummyMagic
  let extra := isExtra known s
  failIf (dummy ∧ fold.isSome) (errProof "Dummy DSTW in an aggregate must fail the batch")
  failIf (dummy ∧ extra) (errProof "Dummy DSTW rejected on JOIN extra")
  let counted := decide (s.proof.length > 0) && !isFoldProof s.proof
  let raw := if counted then raw + 1 else raw
  failIf (counted ∧ raw > maxRawStarksPerLNPR) (errProof "too many raw STARKs per slot (aggregate or cap)")
  if extra then do
    failIf (s.proof.length = 0 ∨ isFoldProof s.proof) (errProof "unprovable extra subject")
    failIf dummy (errProof "Dummy DSTW rejected on JOIN extra")
    failIf (!hasStwoMagic s.proof) (errProof "JOIN extra requires named STWO (prover_id=2)")
    failIf (s.proof.length > maxProofBytes) (errProof "proof too large")
    match verifySubjectProof h period extraIdx s roots with
    | .error e => .error ("leanval: JOIN extra STWO period=" ++ toString period ++ " deposit=" ++
        toString extraIdx ++ " row=" ++ toString i ++ " w=" ++ toString s.weight ++ ": " ++ e)
    | .ok _ => .ok (raw, extraIdx + 1)
  else if fold.isSome then .ok (raw, extraIdx)
  else do
    failIf (s.proof.length > maxProofBytes) (errProof "proof too large")
    verifySubjectProof h period (UInt64.ofNat i) s roots
    .ok (raw, extraIdx)

def verifyRows : Nat → Nat → UInt64 → List SubjectProof → Except String Unit
  | _, _, _, [] => .ok ()
  | i, raw, extraIdx, s :: rest => do
    let (raw, extraIdx) ← verifyRow h period roots fold known i raw extraIdx s
    verifyRows (i + 1) raw extraIdx rest

end Rows

def verifyAggregate (h : Host) (fold : Option Bytes) (roots : Bytes) : Except String Unit :=
  match fold with
  | some proof => do
    failIf (proof.length > maxProofBytes) (errProof "proof too large")
    verifySameStatementFold h proof (foldPairStrings roots)
  | none => failIf (!h.allowDummy) (errProof "STWO FOLD required (bitfield root, not Dummy-N)")

/-- The object roots are read before the roster fall-back runs, the next index after it. -/
def verifyLNPR (h : Host) (st : Store) (blob : LNPRBlob) (skipCrypto : Bool) : Store × Except String Unit :=
  match checkLNPRUniqueness st blob with
  | .error e => (st, .error e)
  | .ok _ =>
    if skipCrypto || blob.subjects.length == 0 then (st, .ok ())
    else
      let roots := lastObjectRoots st
      let fold := foldProofFromLNPR blob
      match verifyAggregate h fold roots with
      | .error e => (st, .error e)
      | .ok _ =>
        let (st, known) := bitsOrCarry st blob.period
        (st, verifyRows h blob.period roots fold (known.map (·.subject)) 0 (if fold.isSome then 1 else 0)
          (nextDepositIndex st).toUInt64 blob.subjects)

/-- A record with rows is unique when it lists no subject twice. -/
theorem checkLNPRUniqueness_eq_ok {st : Store} {blob : LNPRBlob} (hne : blob.subjects.length ≠ 0) :
    checkLNPRUniqueness st blob = .ok () ↔ (blob.subjects.map (·.subject)).Nodup := by
  have hrows : rejectEmptyReplace st blob = .ok () := if_pos (Nat.pos_of_ne_zero hne)
  rw [checkLNPRUniqueness, hrows]
  exact failIf_eq_ok.trans not_not

/-- A record with rows is accepted by its uniqueness check, its aggregate and its row loop. -/
theorem verifyLNPR_eq_ok {h : Host} {st : Store} {blob : LNPRBlob} (hne : blob.subjects.length ≠ 0) :
    (verifyLNPR h st blob false).2 = .ok () ↔ checkLNPRUniqueness st blob = .ok () ∧
      verifyAggregate h (foldProofFromLNPR blob) (lastObjectRoots st) = .ok () ∧
      verifyRows h blob.period (lastObjectRoots st) (foldProofFromLNPR blob)
        ((bitsOrCarry st blob.period).2.map (·.subject)) 0 (if (foldProofFromLNPR blob).isSome then 1 else 0)
        (nextDepositIndex (bitsOrCarry st blob.period).1).toUInt64 blob.subjects = .ok () := by
  have hlen : ¬ (false || blob.subjects.length == 0) = true := by simpa using hne
  unfold verifyLNPR
  cases checkLNPRUniqueness st blob with
  | error e => simp
  | ok _ =>
    simp only [if_neg hlen]
    cases verifyAggregate h (foldProofFromLNPR blob) (lastObjectRoots st) with
    | error e => simp
    | ok _ => simp

def applyJoin (st : Store) (b : JoinBlob) : Except String Store := do
  validateJoin b
  pure (acceptProof (set st (pendingJoinKey b.period b.subject) (putI64 b.weight)) b.period b.subject b.weight)

/-- The balance byte becomes an explicit zero, which later admissions keep. -/
def clearMember (st : Store) (subject : Bytes) : Store :=
  match depositIndexOf st subject with
  | some idx => setEB (clearBit st idx) idx 0
  | none => st

/-- Only the row of this period is deleted. -/
def leaveMember (st : Store) (period : UInt64) (subject : Bytes) : Store :=
  clearMember (delete (set st (pendingLeaveKey period subject) [1]) (bondedKey period subject)) subject

def applyLeave (st : Store) (b : LeaveBlob) : Except String Store := do
  validateLeave b
  pure (leaveMember st b.period b.subject)

/-- The store effect of one accepted row; a failed leave is ignored. -/
def applyRow (period : UInt64) (st : Store) (s : SubjectProof) : Store :=
  if s.weight ≤ 0 then
    match depositIndexOf st s.subject with
    | some _ =>
      match applyLeave st ⟨period, s.subject⟩ with
      | .ok st => st
      | .error _ => st
    | none => st
  else
    let st :=
      match depositIndexOf st s.subject with
      | some _ => admitMember st s.subject s.weight
      | none => if s.subject.length > 0 then acceptProof st period s.subject s.weight else st
    delete (delete st (pendingJoinKey period s.subject)) (pendingJoinKey 0 s.subject)

def applyLNPR (h : Host) (st : Store) (blob : LNPRBlob) : Store × Except String Unit :=
  match verifyLNPR h st blob false with
  | (st, .error e) => (st, .error e)
  | (st, .ok _) => (syncObjectRoots (blob.subjects.foldl (applyRow blob.period) st), .ok ())

structure GenesisSubject where
  pubKey : Bytes
  weight : Int64
  deriving DecidableEq, Repr

structure GenesisState where
  ownsValset : Bool
  genesisSubjects : List GenesisSubject
  blocksPerPeriod : Int64
  deriving DecidableEq, Repr

def GenesisState.validate (gs : GenesisState) : Except String Unit :=
  failIf (gs.ownsValset ∧ gs.genesisSubjects.length = 0) "leanval: leanval_owns_valset requires genesis_subjects"

def setOwnsValset (st : Store) (v : Bool) : Store := set st ownsValsetKey [if v then 1 else 0]

def ownsValset (st : Store) : Bool := (get st ownsValsetKey).headD 0 != 0

def seedSubject (st : Store) (s : GenesisSubject) : Store :=
  if s.pubKey.length = 0 then st
  else if s.weight > 0 then acceptProof st 0 s.pubKey s.weight
  else putSubject st 0 s.pubKey 0

def genesisStore (st : Store) (gs : GenesisState) : Store :=
  let n := if gs.blocksPerPeriod ≤ 0 then blocksPerPeriod else gs.blocksPerPeriod
  let st := setOwnsValset (set st periodParamKey (putI64 n)) gs.ownsValset
  syncObjectRoots (gs.genesisSubjects.foldl seedSubject st)

/-- An invalid genesis state panics; here it is an error. -/
def initGenesis (st : Store) (gs : GenesisState) : Except String Store := do
  gs.validate
  pure (genesisStore st gs)

end Terpz.Leanval.Keeper
