import Terpz.Lib.Checks
import Terpz.Aggregate.Completeness

/-! Same-statement aggregation: composing leaves into a blob, and verifying a blob against
leaves. The verifier recomputes the proof and compares only counts, ids, commitment and roots. -/
namespace Terpz.Aggregate
open Lib

def circuitTypeStwo : UInt8 := 2

def curveTypeM31 : UInt8 := 5

structure PeriodObjectRoots where
  period : UInt64
  bitfield : Bytes32
  objectRoot : Bytes32

structure SameStatementLeaf where
  roots : PeriodObjectRoots

structure FriWire where
  roots : List Bytes32
  nQueries : UInt8

structure AggregateBlob where
  proverId : UInt8
  curveId : UInt8
  nLeaves : UInt16
  period : UInt64
  bitfieldOr : Bytes32
  objectRoot : Bytes32
  composedCommit : Bytes32
  evals : List UInt32
  fri : FriWire

inductive AggError where
  | empty
  | dummyChecksum
  | mixedStatement
  | blockedStwoHost
  | badMagic
  | truncated
  | friFail
  deriving DecidableEq, Repr

/-- An error that is returned, or a panic. -/
inductive Failure where
  | error (e : AggError)
  | panicked
  deriving DecidableEq, Repr

def orPanic {α : Type} : Option α → Except Failure α
  | some a => .ok a
  | none => .error .panicked

def leafTuple (l : SameStatementLeaf) : LeafTuple := (l.roots.period, l.roots.bitfield, l.roots.objectRoot)

def orBits (a b : Bytes32) : Bytes32 :=
  ⟨List.zipWith (· ||| ·) a.val b.val, by rw [List.length_zipWith, a.2, b.2, Nat.min_self]⟩

/-- The loop over the leaves: each is of the statement, and its bits are merged. -/
def mergeBits (period : UInt64) (objectRoot : Bytes32) : Bytes32 → List SameStatementLeaf → Except Failure Bytes32
  | acc, [] => .ok acc
  | acc, leaf :: rest =>
    if leaf.roots.period ≠ period ∨ leaf.roots.objectRoot ≠ objectRoot then .error (.error .mixedStatement)
    else mergeBits period objectRoot (orBits acc leaf.roots.bitfield) rest

/-- The blob of the leaves of one statement and their proof. -/
def blobOf (period : UInt64) (objectRoot bitfieldOr : Bytes32) (leaves : List SameStatementLeaf) (proof : FriProof) :
    AggregateBlob where
  proverId := circuitTypeStwo
  curveId := curveTypeM31
  nLeaves := UInt16.ofNat leaves.length
  period := period
  bitfieldOr := bitfieldOr
  objectRoot := objectRoot
  composedCommit := merkleCommit (composeEvals (leaves.map leafTuple))
  evals := composedCoeffs (leaves.map leafTuple)
  fri := ⟨proof.layerRoots, UInt8.ofNat proof.queries.length⟩

def composeSameStatement (leaves : List SameStatementLeaf) : Except Failure AggregateBlob :=
  match leaves with
  | [] => .error (.error .empty)
  | first :: _ => do
    failIf (leaves.length < 2) (.error .empty)
    let period := first.roots.period
    let objectRoot := first.roots.objectRoot
    let bitfieldOr ← mergeBits period objectRoot zero32 leaves
    let proof ← orPanic (prove (composeEvals (leaves.map leafTuple)))
    pure (blobOf period objectRoot bitfieldOr leaves proof)

def verifyAggregate (blob : AggregateBlob) (leaves : List SameStatementLeaf) : Except Failure Unit := do
  failIf (leaves.length ≠ blob.nLeaves.toNat) (.error .friFail)
  failIf (blob.proverId ≠ circuitTypeStwo ∨ blob.curveId ≠ curveTypeM31) (.error .badMagic)
  let ev := composeEvals (leaves.map leafTuple)
  failIf (merkleCommit ev ≠ blob.composedCommit) (.error .friFail)
  let proof ← orPanic (prove ev)
  let accepted ← orPanic (verify ev proof)
  failIf (accepted = false) (.error .friFail)
  failIf (proof.layerRoots ≠ blob.fri.roots) (.error .friFail)

/-- The bits of all leaves together. -/
def mergedBits (leaves : List SameStatementLeaf) : Bytes32 :=
  leaves.foldl (fun acc leaf => orBits acc leaf.roots.bitfield) zero32

/-- One period and one object root. -/
def SameStatement (leaves : List SameStatementLeaf) : Prop :=
  ∀ a ∈ leaves, ∀ b ∈ leaves, a.roots.period = b.roots.period ∧ a.roots.objectRoot = b.roots.objectRoot

/-- What the verifier looks at: count, ids, commitment and layer roots are those of the leaves. -/
structure Matches (blob : AggregateBlob) (leaves : List SameStatementLeaf) : Prop where
  nLeaves : leaves.length = blob.nLeaves.toNat
  proverId : blob.proverId = circuitTypeStwo
  curveId : blob.curveId = curveTypeM31
  composedCommit : merkleCommit (composeEvals (leaves.map leafTuple)) = blob.composedCommit
  friRoots : ∃ proof, prove (composeEvals (leaves.map leafTuple)) = some proof ∧ proof.layerRoots = blob.fri.roots

section Spec
variable {leaves : List SameStatementLeaf}

/-- The composed codeword of any leaves is proved, and its proof accepted. -/
theorem composed_proof (leaves : List SameStatementLeaf) :
    ∃ proof, prove (composeEvals (leaves.map leafTuple)) = some proof ∧
      verify (composeEvals (leaves.map leafTuple)) proof = some true := by
  refine prove_verifies ?_ (composeEvals_codeword _)
  rw [List.length_map, composedCoeffs_length]
  decide

private theorem orPanic_eq_ok {α : Type} {o : Option α} {a : α} : orPanic o = .ok a ↔ o = some a := by
  cases o <;> simp [orPanic]

private theorem mergeBits_eq_ok {period : UInt64} {objectRoot acc bits : Bytes32} :
    mergeBits period objectRoot acc leaves = .ok bits ↔
      (∀ leaf ∈ leaves, leaf.roots.period = period ∧ leaf.roots.objectRoot = objectRoot) ∧
        bits = leaves.foldl (fun acc leaf => orBits acc leaf.roots.bitfield) acc := by
  induction leaves generalizing acc with
  | nil => simp [mergeBits, eq_comm]
  | cons leaf rest ih =>
    rw [mergeBits]
    by_cases hm : leaf.roots.period ≠ period ∨ leaf.roots.objectRoot ≠ objectRoot
    · rw [if_pos hm]
      simp only [reduceCtorEq, List.mem_cons, forall_eq_or_imp, false_iff]
      rintro ⟨⟨hleaf, _⟩, _⟩
      exact hm.elim (fun h => h hleaf.1) (fun h => h hleaf.2)
    · rw [if_neg hm, ih]
      rw [not_or, not_not, not_not] at hm
      simp only [List.mem_cons, forall_eq_or_imp, List.foldl_cons, hm, true_and, and_true]

theorem verifyAggregate_eq_ok {blob : AggregateBlob} :
    verifyAggregate blob leaves = .ok () ↔ Matches blob leaves := by
  obtain ⟨proof, hprove, hverify⟩ := composed_proof leaves
  have hm : Matches blob leaves ↔ leaves.length = blob.nLeaves.toNat ∧ blob.proverId = circuitTypeStwo ∧
      blob.curveId = curveTypeM31 ∧ merkleCommit (composeEvals (leaves.map leafTuple)) = blob.composedCommit ∧
      proof.layerRoots = blob.fri.roots := by
    constructor
    · rintro ⟨hn, hp, hc, hcommit, proof', hprove', hroots⟩
      obtain rfl := Option.some.inj (hprove.symm.trans hprove')
      exact ⟨hn, hp, hc, hcommit, hroots⟩
    · rintro ⟨hn, hp, hc, hcommit, hroots⟩
      exact ⟨hn, hp, hc, hcommit, proof, hprove, hroots⟩
  unfold verifyAggregate
  simp only [hm, hprove, hverify, orPanic, bind_eq_ok, failIf_eq_ok, Except.ok.injEq, exists_const,
    exists_eq_left', not_or, not_not, Bool.true_eq_false, not_false_eq_true, true_and, and_assoc]

theorem composeSameStatement_eq_ok {blob : AggregateBlob} : composeSameStatement leaves = .ok blob ↔
    2 ≤ leaves.length ∧ ∃ period objectRoot proof,
      (∀ leaf ∈ leaves, leaf.roots.period = period ∧ leaf.roots.objectRoot = objectRoot) ∧
      prove (composeEvals (leaves.map leafTuple)) = some proof ∧
      blob = blobOf period objectRoot (mergedBits leaves) leaves proof := by
  cases leaves with
  | nil => simp [composeSameStatement]
  | cons first rest =>
    unfold composeSameStatement
    simp only [bind_eq_ok, failIf_eq_ok, mergeBits_eq_ok, orPanic_eq_ok, Nat.not_lt, exists_const]
    refine and_congr_right (fun _ => ?_)
    constructor
    · rintro ⟨bits, ⟨hsame, rfl⟩, proof, hp, hb⟩
      exact ⟨_, _, proof, hsame, hp, (Except.ok.inj hb).symm⟩
    · rintro ⟨period, objectRoot, proof, hsame, hp, rfl⟩
      obtain ⟨rfl, rfl⟩ := hsame first List.mem_cons_self
      exact ⟨_, ⟨hsame, rfl⟩, proof, hp, rfl⟩

end Spec

theorem SameStatement.head {leaves : List SameStatementLeaf} (hs : SameStatement leaves) (h : leaves ≠ []) :
    ∃ period objectRoot, ∀ leaf ∈ leaves, leaf.roots.period = period ∧ leaf.roots.objectRoot = objectRoot := by
  obtain ⟨first, hfirst⟩ := List.exists_mem_of_ne_nil leaves h
  exact ⟨_, _, fun leaf hl => hs leaf hl first hfirst⟩

/-- Two or more leaves of one statement compose. -/
theorem composes {leaves : List SameStatementLeaf} (h2 : 2 ≤ leaves.length) (hs : SameStatement leaves) :
    ∃ blob, composeSameStatement leaves = .ok blob := by
  have hne : leaves ≠ [] := by
    rintro rfl
    simp at h2
  obtain ⟨period, objectRoot, hall⟩ := hs.head hne
  obtain ⟨proof, hprove, _⟩ := composed_proof leaves
  exact ⟨_, composeSameStatement_eq_ok.mpr ⟨h2, period, objectRoot, proof, hall, hprove, rfl⟩⟩

private theorem count_toNat {n : Nat} (hn : n ≤ 65535) : (UInt16.ofNat n).toNat = n := by
  rw [UInt16.toNat_ofNat']
  omega

/-- A composed blob verifies against any list of as many leaves with the same composed evaluations. -/
theorem composed_accepts {A B : List SameStatementLeaf} (hn : A.length ≤ 65535) (hlen : A.length = B.length)
    {blob : AggregateBlob} (hblob : composeSameStatement A = .ok blob)
    (hev : composeEvals (A.map leafTuple) = composeEvals (B.map leafTuple)) : verifyAggregate blob B = .ok () := by
  obtain ⟨_, _, _, proof, _, hprove, rfl⟩ := composeSameStatement_eq_ok.mp hblob
  have hcommit := congrArg merkleCommit hev.symm
  rw [hev] at hprove
  exact verifyAggregate_eq_ok.mpr
    ⟨hlen.symm.trans (count_toNat hn).symm, rfl, rfl, hcommit, proof, hprove, rfl⟩

/-- For every list of between 2 and 65535 leaves of one statement the proof of the composed
codeword exists and verifies, and the composed blob verifies against the leaves. -/
theorem composed_blob_verifies (leaves : List SameStatementLeaf) (h2 : 2 ≤ leaves.length)
    (hn : leaves.length ≤ 65535) (hs : SameStatement leaves) :
    (∃ proof, prove (composeEvals (leaves.map leafTuple)) = some proof ∧
      verify (composeEvals (leaves.map leafTuple)) proof = some true) ∧
    ∃ blob, composeSameStatement leaves = .ok blob ∧ verifyAggregate blob leaves = .ok () := by
  obtain ⟨blob, hblob⟩ := composes h2 hs
  exact ⟨composed_proof leaves, blob, hblob, composed_accepts hn rfl hblob rfl⟩

/-- A leaf whose arrays start with one given byte. -/
def sampleLeaf (period : UInt64) (bits rootByte : UInt8) : SameStatementLeaf :=
  ⟨period, ⟨bits :: List.replicate 31 0, rfl⟩, ⟨rootByte :: List.replicate 31 0, rfl⟩⟩

theorem composed_blob_verifies_three :
    ∃ blob, composeSameStatement [sampleLeaf 7 1 9, sampleLeaf 7 2 9, sampleLeaf 7 4 9] = .ok blob ∧
      verifyAggregate blob [sampleLeaf 7 1 9, sampleLeaf 7 2 9, sampleLeaf 7 4 9] = .ok () := by
  refine (composed_blob_verifies [sampleLeaf 7 1 9, sampleLeaf 7 2 9, sampleLeaf 7 4 9] (by decide) (by decide) ?_).2
  simp [SameStatement, sampleLeaf]

section Acceptance

/-- Equal in all fields but the number of queries. -/
structure Agrees (b b' : AggregateBlob) : Prop where
  proverId : b.proverId = b'.proverId
  curveId : b.curveId = b'.curveId
  nLeaves : b.nLeaves = b'.nLeaves
  period : b.period = b'.period
  bitfieldOr : b.bitfieldOr = b'.bitfieldOr
  objectRoot : b.objectRoot = b'.objectRoot
  composedCommit : b.composedCommit = b'.composedCommit
  evals : b.evals = b'.evals
  friRoots : b.fri.roots = b'.fri.roots

/-- What the verifier does not look at: the leaves are two or more of the blob's statement, and
the merged bits and the coefficients are theirs. -/
structure Stated (blob : AggregateBlob) (leaves : List SameStatementLeaf) : Prop where
  two : 2 ≤ leaves.length
  statement : ∀ leaf ∈ leaves, leaf.roots.period = blob.period ∧ leaf.roots.objectRoot = blob.objectRoot
  bitfieldOr : blob.bitfieldOr = mergedBits leaves
  evals : blob.evals = composedCoeffs (leaves.map leafTuple)

/-- Composition produces a blob, up to its number of queries, exactly when the fields that are
compared and those that are not are both right. -/
theorem composed_iff_stated {blob : AggregateBlob} {leaves : List SameStatementLeaf} (hn : leaves.length ≤ 65535) :
    (∃ b, composeSameStatement leaves = .ok b ∧ Agrees b blob) ↔ Matches blob leaves ∧ Stated blob leaves := by
  have hcount := count_toNat hn
  constructor
  · rintro ⟨b, hb, ha⟩
    obtain ⟨h2, period, objectRoot, proof, hsame, hprove, rfl⟩ := composeSameStatement_eq_ok.mp hb
    obtain rfl : period = blob.period := ha.period
    obtain rfl : objectRoot = blob.objectRoot := ha.objectRoot
    refine ⟨⟨?_, ha.proverId.symm, ha.curveId.symm, ha.composedCommit, proof, hprove, ha.friRoots⟩,
      h2, hsame, ha.bitfieldOr.symm, ha.evals.symm⟩
    rw [← ha.nLeaves]
    exact hcount.symm
  · rintro ⟨hm, hst⟩
    obtain ⟨proof, hprove, hroots⟩ := hm.friRoots
    refine ⟨_, composeSameStatement_eq_ok.mpr ⟨hst.two, _, _, proof, hst.statement, hprove, rfl⟩, ?_⟩
    exact {
      proverId := hm.proverId.symm
      curveId := hm.curveId.symm
      nLeaves := UInt16.toNat_inj.mp (hcount.trans hm.nLeaves)
      period := rfl
      bitfieldOr := hst.bitfieldOr.symm
      objectRoot := rfl
      composedCommit := hm.composedCommit
      evals := hst.evals.symm
      friRoots := hroots }

/-- Verification accepts what composition produces and nothing else, exactly for the blobs that,
once the compared fields match, are right in the other fields as well. -/
theorem verified_iff_composed_iff (blob : AggregateBlob) (leaves : List SameStatementLeaf)
    (hn : leaves.length ≤ 65535) :
    (verifyAggregate blob leaves = .ok () ↔ ∃ b, composeSameStatement leaves = .ok b ∧ Agrees b blob) ↔
      (Matches blob leaves → Stated blob leaves) := by
  rw [verifyAggregate_eq_ok, composed_iff_stated hn]
  exact iff_self_and

theorem verified_iff_composed_pair :
    ∃ blob, composeSameStatement [sampleLeaf 7 1 9, sampleLeaf 7 2 9] = .ok blob ∧
      (verifyAggregate blob [sampleLeaf 7 1 9, sampleLeaf 7 2 9] = .ok () ↔
        ∃ b, composeSameStatement [sampleLeaf 7 1 9, sampleLeaf 7 2 9] = .ok b ∧ Agrees b blob) := by
  have hs : SameStatement [sampleLeaf 7 1 9, sampleLeaf 7 2 9] := by simp [SameStatement, sampleLeaf]
  obtain ⟨blob, hblob⟩ := composes (by decide) hs
  refine ⟨blob, hblob, (verified_iff_composed_iff blob _ (by decide)).mpr (fun _ => ?_)⟩
  obtain ⟨h2, _, _, _, hsame, _, rfl⟩ := composeSameStatement_eq_ok.mp hblob
  exact ⟨h2, hsame, rfl, rfl⟩

/-- Period, merged bits, object root and coefficients can be changed at will, and leaves of two
periods, which do not compose, still have a blob that verifies. -/
theorem tampered_blobs_verify :
    (∃ blob, composeSameStatement [sampleLeaf 7 1 9, sampleLeaf 7 2 9] = .ok blob ∧
      blob.period ≠ 8 ∧ blob.bitfieldOr ≠ zero32 ∧ blob.objectRoot ≠ zero32 ∧ blob.evals ≠ [] ∧
      verifyAggregate { blob with period := 8 } [sampleLeaf 7 1 9, sampleLeaf 7 2 9] = .ok () ∧
      verifyAggregate { blob with bitfieldOr := zero32 } [sampleLeaf 7 1 9, sampleLeaf 7 2 9] = .ok () ∧
      verifyAggregate { blob with objectRoot := zero32 } [sampleLeaf 7 1 9, sampleLeaf 7 2 9] = .ok () ∧
      verifyAggregate { blob with evals := [] } [sampleLeaf 7 1 9, sampleLeaf 7 2 9] = .ok ()) ∧
    composeSameStatement [sampleLeaf 7 1 9, sampleLeaf 8 1 9] = .error (.error .mixedStatement) ∧
    ∃ blob, verifyAggregate blob [sampleLeaf 7 1 9, sampleLeaf 8 1 9] = .ok () := by
  refine ⟨?_, ?_, ?_⟩
  · obtain ⟨proof, hprove, _⟩ := composed_proof [sampleLeaf 7 1 9, sampleLeaf 7 2 9]
    refine ⟨blobOf 7 (sampleLeaf 7 1 9).roots.objectRoot (mergedBits [sampleLeaf 7 1 9, sampleLeaf 7 2 9])
      [sampleLeaf 7 1 9, sampleLeaf 7 2 9] proof, ?_, show (7 : UInt64) ≠ 8 by decide,
      show mergedBits [sampleLeaf 7 1 9, sampleLeaf 7 2 9] ≠ zero32 by decide,
      show (sampleLeaf 7 1 9).roots.objectRoot ≠ zero32 by decide, ?_, ?_, ?_, ?_, ?_⟩
    · refine composeSameStatement_eq_ok.mpr ⟨by decide, _, _, proof, ?_, hprove, rfl⟩
      simp [sampleLeaf]
    · exact List.ne_nil_of_length_pos (by rw [blobOf, composedCoeffs_length]; decide)
    all_goals exact verifyAggregate_eq_ok.mpr ⟨rfl, rfl, rfl, rfl, proof, hprove, rfl⟩
  · simp [composeSameStatement, mergeBits, sampleLeaf, failIf, bind, Except.bind]
  · obtain ⟨proof, hprove, _⟩ := composed_proof [sampleLeaf 7 1 9, sampleLeaf 8 1 9]
    exact ⟨blobOf 7 zero32 zero32 [sampleLeaf 7 1 9, sampleLeaf 8 1 9] proof,
      verifyAggregate_eq_ok.mpr ⟨rfl, rfl, rfl, rfl, proof, hprove, rfl⟩⟩

end Acceptance
end Terpz.Aggregate
