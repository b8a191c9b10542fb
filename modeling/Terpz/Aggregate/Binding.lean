import Mathlib.Data.Nat.ModEq
import Terpz.Aggregate.Blob

/-! What the composed commitment fixes: the four summed coefficients, unless two strings hashed
at the same place of the two trees collide. The leaves behind the sums stay open. -/
namespace Terpz.Aggregate
open Lib Lib.BigEndian Lib.Folding
open F2 (ofWord)

/-- The strings hashed for a commitment: the values, then the nodes level by level. -/
def commitInputs (ev : List F2) : List Bytes :=
  ev.map feltInput ++ (PerfectTree.nodes nodeHash ev.length (ev.map feltBytes)).map (fun p => nodeInput p.1 p.2)

/-- Two different strings hashed at the same place, with one digest. -/
def ShaCollision (ev ev' : List F2) : Prop :=
  ∃ k : Nat, ∃ x y : Bytes, (commitInputs ev)[k]? = some x ∧ (commitInputs ev')[k]? = some y ∧ x ≠ y ∧
    sha256 x = sha256 y

theorem not_shaCollision_self (ev : List F2) : ¬ ShaCollision ev ev := by
  rintro ⟨k, x, y, hx, hy, hne, _⟩
  exact hne (Option.some.inj (hx.symm.trans hy))

section Commitment

theorem nodeInput_injective {l r l' r' : Bytes32} (h : nodeInput l r = nodeInput l' r') : l = l' ∧ r = r' := by
  obtain ⟨hl, hr⟩ := List.append_inj' h (r.2.trans r'.2.symm)
  exact ⟨Subtype.ext (List.append_cancel_left hl), Subtype.ext hr⟩

private theorem leBytes_word_injective {a b : UInt32} (h : leBytes 4 a.toNat = leBytes 4 b.toNat) : a = b :=
  UInt32.toNat_inj.mp (beBytes_inj a.toNat_lt b.toNat_lt (List.reverse_injective h))

theorem feltInput_injective {v w : F2} (h : feltInput v = feltInput w) : v = w := by
  obtain ⟨a, b⟩ := v
  obtain ⟨c, d⟩ := w
  obtain ⟨ha, hb⟩ := List.append_inj' h (by simp [leBytes])
  obtain rfl : a = c := leBytes_word_injective (List.append_cancel_left ha)
  obtain rfl : b = d := leBytes_word_injective hb
  rfl

variable {d : Nat} {ev ev' : List F2}

/-- Equal digests of the values: the values are equal, or two of them collide. -/
private theorem values_eq_or_collision (h : ev.map feltBytes = ev'.map feltBytes) : ev = ev' ∨ ShaCollision ev ev' := by
  rcases eq_or_collision_of_map_eq h with heq | ⟨i, v, w, hv, hw, hne, hvw⟩
  · exact .inl heq
  · have hget {l : List F2} {u : F2} (hu : l[i]? = some u) : (commitInputs l)[i]? = some (feltInput u) := by
      obtain ⟨hlt, _⟩ := List.getElem?_eq_some_iff.mp hu
      rw [commitInputs, List.getElem?_append_left (by rwa [List.length_map]), List.getElem?_map, hu]
      rfl
    exact .inr ⟨i, _, _, hget hv, hget hw, fun he => hne (feltInput_injective he), congrArg Subtype.val hvw⟩

/-- Equal commitments to equally many values: the values are equal, or two hashed strings collide. -/
theorem evals_eq_or_collision (hl : ev.length = 2 ^ d) (hl' : ev'.length = 2 ^ d)
    (h : merkleCommit ev = merkleCommit ev') : ev = ev' ∨ ShaCollision ev ev' := by
  have hfuel : d ≤ 2 ^ d := Nat.lt_two_pow_self.le
  have hm : (ev.map feltBytes).length = 2 ^ d := by rw [List.length_map, hl]
  have hm' : (ev'.map feltBytes).length = 2 ^ d := by rw [List.length_map, hl']
  obtain ⟨root, hroot, _⟩ := PerfectTree.opening nodeHash hfuel hm
  obtain ⟨root', hroot', _⟩ := PerfectTree.opening nodeHash hfuel hm'
  rw [merkleCommit, merkleCommit, merkleRoot_eq hl, merkleRoot_eq hl', hroot, hroot'] at h
  obtain rfl : root = root' := h
  rcases PerfectTree.leaves_eq_or_collision hfuel hm hm' (hroot.trans hroot'.symm) with
    heq | ⟨k, x, y, hx, hy, hne, hxy⟩
  · exact values_eq_or_collision heq
  · have hget {l : List F2} (hlen : l.length = 2 ^ d) {p : Bytes32 × Bytes32}
        (hp : (PerfectTree.nodes nodeHash (2 ^ d) (l.map feltBytes))[k]? = some p) :
        (commitInputs l)[2 ^ d + k]? = some (nodeInput p.1 p.2) := by
      rw [commitInputs, List.getElem?_append_right (by rw [List.length_map]; omega), List.length_map, hlen,
        Nat.add_sub_cancel_left, List.getElem?_map, hp]
      rfl
    refine .inr ⟨2 ^ d + k, _, _, hget hl hx, hget hl' hy, ?_, congrArg Subtype.val hxy⟩
    intro he
    obtain ⟨h1, h2⟩ := nodeInput_injective he
    exact hne (Prod.ext h1 h2)

end Commitment

section Coefficients
variable {A B : List LeafTuple}

/-- The evaluations depend on the leaves through the sums alone. -/
theorem composeEvals_of_coeffs (h : composedCoeffs A = composedCoeffs B) : composeEvals A = composeEvals B := by
  have hA := composeEvals_codeword A
  have hB := composeEvals_codeword B
  rw [← h] at hB
  refine List.ext_getElem? (fun i => ?_)
  by_cases hi : i < 2 ^ 4
  · have hv : (composeEvals A)[i]? = some _ := List.getElem?_eq_getElem (hA.length ▸ hi)
    have hw : (composeEvals B)[i]? = some _ := List.getElem?_eq_getElem (hB.length ▸ hi)
    rw [hv, hw, F2.val_inj (hA.canonical _ (List.mem_of_getElem? hv)) (hB.canonical _ (List.mem_of_getElem? hw))
      ((hA.value i _ hv).trans (hB.value i _ hw).symm)]
  · rw [List.getElem?_eq_none (by rw [hA.length]; omega), List.getElem?_eq_none (by rw [hB.length]; omega)]

/-- Sixteen values fix the four sums. -/
theorem composedCoeffs_of_evals (h : composeEvals A = composeEvals B) : composedCoeffs A = composedCoeffs B := by
  have hA := composeEvals_codeword A
  have hB := composeEvals_codeword B
  rw [← h] at hB
  have hat (k : Nat) (hk : k < 2 ^ 4) :
      polyEval ((composedCoeffs A).map ofWord) (omega16.val ^ k) =
        polyEval ((composedCoeffs B).map ofWord) (omega16.val ^ k) := by
    have hv : (composeEvals A)[k]? = some _ := List.getElem?_eq_getElem (hA.length ▸ hk)
    have := (hA.value k _ hv).symm.trans (hB.value k _ hv)
    rwa [Nat.sub_self, pow_zero, one_mul] at this
  have hi : omega16.val ^ 4 * omega16.val ^ 4 = -1 := by rw [← pow_add, ← omega16_pow_eight]
  have h12 : omega16.val ^ 12 = -omega16.val ^ 4 := by
    rw [show 12 = 8 + 4 from rfl, pow_add, omega16_pow_eight, neg_one_mul]
  have h0 := hat 0 (by decide)
  have h8 := hat 8 (by decide)
  have h12' := hat 12 (by decide)
  rw [pow_zero] at h0
  rw [omega16_pow_eight] at h8
  rw [h12] at h12'
  have hmap := coeffs_eq_of_fourth_roots half_spec.2 hi (by rw [List.length_map, composedCoeffs_length])
    (by rw [List.length_map, composedCoeffs_length]) h0 h8 (hat 4 (by decide)) h12'
  rcases eq_or_collision_of_map_eq hmap with heq | ⟨k, x, y, hx, hy, hne, hxy⟩
  · exact heq
  · exact absurd (M31.toFp_inj (composedCoeffs_canonical A x (List.mem_of_getElem? hx))
      (composedCoeffs_canonical B y (List.mem_of_getElem? hy)) (QuadraticAlgebra.ext_iff.mp hxy).1) hne

end Coefficients

/-! What a leaf at a position contributes to each of the four sums. -/

def periodPart (leaf : SameStatementLeaf) (i : Nat) : Nat :=
  (M31.red (leaf.roots.period + UInt64.ofNat i <<< 8)).toNat

def lowBitsPart (leaf : SameStatementLeaf) (_ : Nat) : Nat := leNat (leaf.roots.bitfield.val.take 4)

def rootPart (leaf : SameStatementLeaf) (_ : Nat) : Nat := leNat (leaf.roots.objectRoot.val.take 4)

def highBitsPart (leaf : SameStatementLeaf) (_ : Nat) : Nat :=
  leNat ((leaf.roots.bitfield.val.drop 4).take 4) % M31.modulus ^^^
    leNat ((leaf.roots.objectRoot.val.drop 4).take 4) % M31.modulus

def sumOver (part : SameStatementLeaf → Nat → Nat) (leaves : List SameStatementLeaf) : Nat :=
  (leaves.zipIdx.map (fun l => part l.1 l.2)).sum

/-- The four sums agree modulo 2^31 - 1. -/
def SameSums (A B : List SameStatementLeaf) : Prop :=
  ∀ part ∈ [periodPart, lowBitsPart, rootPart, highBitsPart], sumOver part A ≡ sumOver part B [MOD M31.modulus]

instance (A B : List SameStatementLeaf) : Decidable (SameSums A B) :=
  inferInstanceAs (Decidable (∀ part ∈ [periodPart, lowBitsPart, rootPart, highBitsPart], _))

section Sums
open M31

private theorem highBits_word (leaf : SameStatementLeaf) (i : Nat) :
    (pack4 ((leaf.roots.bitfield.val.drop 4).take 4) ^^^ pack4 ((leaf.roots.objectRoot.val.drop 4).take 4)).toNat =
      highBitsPart leaf i := by
  rw [UInt32.toNat_xor, pack4_toNat, pack4_toNat, List.take_take, List.take_take, Nat.min_self]
  rfl

private theorem toFp_pack4 (b : Bytes) : toFp (pack4 (b.take 4)) = (leNat (b.take 4) : Fp) := by
  rw [toFp, pack4_toNat, List.take_take, Nat.min_self, ZMod.natCast_mod]

private theorem sums_loop (ps : List (SameStatementLeaf × Nat)) (a b c d : UInt32) :
    (ps.foldl (fun acc l => List.zipWith add acc (tupleCoeffs (leafTuple l.1, l.2))) [a, b, c, d]).map toFp =
      [toFp a + ((ps.map (fun l => periodPart l.1 l.2)).sum : Nat),
       toFp b + ((ps.map (fun l => lowBitsPart l.1 l.2)).sum : Nat),
       toFp c + ((ps.map (fun l => rootPart l.1 l.2)).sum : Nat),
       toFp d + ((ps.map (fun l => highBitsPart l.1 l.2)).sum : Nat)] := by
  induction ps generalizing a b c d with
  | nil => simp
  | cons l ps ih =>
    rw [List.foldl_cons]
    refine (ih _ _ _ _).trans ?_
    simp only [(add_spec _ _).2, List.map_cons, List.sum_cons, Nat.cast_add, ← add_assoc]
    simp only [leafTuple, toFp_pack4]
    simp only [toFp, highBits_word l.1 l.2]
    rfl

/-- The composed coefficients are the four sums, reduced. -/
theorem composedCoeffs_sums (leaves : List SameStatementLeaf) :
    (composedCoeffs (leaves.map leafTuple)).map toFp =
      [periodPart, lowBitsPart, rootPart, highBitsPart].map (fun part => (sumOver part leaves : Fp)) := by
  have hzip : (leaves.map leafTuple).zipIdx = leaves.zipIdx.map (fun l => (leafTuple l.1, l.2)) := List.zipIdx_map ..
  rw [composedCoeffs, hzip, List.foldl_map]
  refine (sums_loop leaves.zipIdx 0 0 0 0).trans ?_
  simp only [toFp, UInt32.toNat_zero, Nat.cast_zero, zero_add]
  rfl

theorem composedCoeffs_eq_iff {A B : List SameStatementLeaf} :
    composedCoeffs (A.map leafTuple) = composedCoeffs (B.map leafTuple) ↔ SameSums A B := by
  have hmap : (composedCoeffs (A.map leafTuple)).map toFp = (composedCoeffs (B.map leafTuple)).map toFp ↔
      SameSums A B := by
    rw [composedCoeffs_sums, composedCoeffs_sums, List.map_inj_left]
    simp only [ZMod.natCast_eq_natCast_iff]
    rfl
  rw [← hmap]
  refine ⟨congrArg _, fun h => ?_⟩
  rcases eq_or_collision_of_map_eq h with heq | ⟨k, x, y, hx, hy, hne, hxy⟩
  · exact heq
  · exact absurd (toFp_inj (composedCoeffs_canonical _ x (List.mem_of_getElem? hx))
      (composedCoeffs_canonical _ y (List.mem_of_getElem? hy)) hxy) hne

end Sums

/-- One period, one object root and the same bitfields in order. -/
def SameContent (A B : List SameStatementLeaf) : Prop :=
  (∀ a ∈ A, ∀ b ∈ B, a.roots.period = b.roots.period ∧ a.roots.objectRoot = b.roots.objectRoot) ∧
    A.map (·.roots.bitfield) = B.map (·.roots.bitfield)

/-- A blob composed from `A` binds `B`, up to collisions, exactly when equal sums already mean
equal leaves. -/
theorem commitment_binds_iff {A B : List SameStatementLeaf} (hn : A.length ≤ 65535) (hlen : A.length = B.length)
    {blob : AggregateBlob} (hblob : composeSameStatement A = .ok blob) :
    (verifyAggregate blob B = .ok () → SameContent A B ∨
      ShaCollision (composeEvals (A.map leafTuple)) (composeEvals (B.map leafTuple))) ↔
    (SameSums A B → SameContent A B) := by
  rw [← composedCoeffs_eq_iff]
  constructor
  · intro hbind hcoeffs
    have hev := composeEvals_of_coeffs hcoeffs
    rcases hbind (composed_accepts hn hlen hblob hev) with hsame | hcol
    · exact hsame
    · rw [hev] at hcol
      exact absurd hcol (not_shaCollision_self _)
  · intro hsep hok
    obtain ⟨_, _, _, proof, _, _, rfl⟩ := composeSameStatement_eq_ok.mp hblob
    have hcommit : merkleCommit (composeEvals (A.map leafTuple)) = merkleCommit (composeEvals (B.map leafTuple)) :=
      (verifyAggregate_eq_ok.mp hok).composedCommit.symm
    have hlength (leaves : List LeafTuple) := (composeEvals_codeword leaves).length
    rcases evals_eq_or_collision (hlength _) (hlength _) hcommit with hev | hcol
    · exact .inl (hsep (composedCoeffs_of_evals hev))
    · exact .inr hcol

theorem commitment_binds_pair :
    ∃ blob, composeSameStatement [sampleLeaf 7 1 9, sampleLeaf 7 2 9] = .ok blob ∧
      (verifyAggregate blob [sampleLeaf 7 1 9, sampleLeaf 7 4 9] = .ok () →
        SameContent [sampleLeaf 7 1 9, sampleLeaf 7 2 9] [sampleLeaf 7 1 9, sampleLeaf 7 4 9] ∨
        ShaCollision (composeEvals ([sampleLeaf 7 1 9, sampleLeaf 7 2 9].map leafTuple))
          (composeEvals ([sampleLeaf 7 1 9, sampleLeaf 7 4 9].map leafTuple))) := by
  have hs : SameStatement [sampleLeaf 7 1 9, sampleLeaf 7 2 9] := by simp [SameStatement, sampleLeaf]
  have hne : ¬ SameSums [sampleLeaf 7 1 9, sampleLeaf 7 2 9] [sampleLeaf 7 1 9, sampleLeaf 7 4 9] := by decide
  have hlen : [sampleLeaf 7 1 9, sampleLeaf 7 2 9].length = [sampleLeaf 7 1 9, sampleLeaf 7 4 9].length := rfl
  obtain ⟨blob, hblob⟩ := composes (by decide) hs
  refine ⟨blob, hblob, (commitment_binds_iff (by decide) hlen hblob).mpr ?_⟩
  intro he
  exact absurd he hne

/-- A leaf of period 7 whose only bit is that of index 64. -/
def lateLeaf : SameStatementLeaf :=
  ⟨7, ⟨List.replicate 8 0 ++ 1 :: List.replicate 23 0, rfl⟩, (sampleLeaf 7 0 9).roots.objectRoot⟩

/-- Swapped leaves, and a bit beyond the first eight bytes, leave the commitment as it is: the
verifier accepts other leaves with no collision to blame. -/
theorem commitment_misses_leaves :
    (∃ blob, composeSameStatement [sampleLeaf 7 1 9, sampleLeaf 7 2 9] = .ok blob ∧
      verifyAggregate blob [sampleLeaf 7 2 9, sampleLeaf 7 1 9] = .ok () ∧
      ¬ SameContent [sampleLeaf 7 1 9, sampleLeaf 7 2 9] [sampleLeaf 7 2 9, sampleLeaf 7 1 9] ∧
      ¬ ShaCollision (composeEvals ([sampleLeaf 7 1 9, sampleLeaf 7 2 9].map leafTuple))
        (composeEvals ([sampleLeaf 7 2 9, sampleLeaf 7 1 9].map leafTuple))) ∧
    (∃ blob, composeSameStatement [sampleLeaf 7 1 9, sampleLeaf 7 0 9] = .ok blob ∧
      verifyAggregate blob [sampleLeaf 7 1 9, lateLeaf] = .ok () ∧
      ¬ SameContent [sampleLeaf 7 1 9, sampleLeaf 7 0 9] [sampleLeaf 7 1 9, lateLeaf] ∧
      ¬ ShaCollision (composeEvals ([sampleLeaf 7 1 9, sampleLeaf 7 0 9].map leafTuple))
        (composeEvals ([sampleLeaf 7 1 9, lateLeaf].map leafTuple))) := by
  have hmissed {A B : List SameStatementLeaf} (h2 : 2 ≤ A.length) (hn : A.length ≤ 65535)
      (hlen : A.length = B.length) (hs : SameStatement A) (hbits : A.map (·.roots.bitfield) ≠ B.map (·.roots.bitfield))
      (hsums : SameSums A B) :
      ∃ blob, composeSameStatement A = .ok blob ∧ verifyAggregate blob B = .ok () ∧ ¬ SameContent A B ∧
        ¬ ShaCollision (composeEvals (A.map leafTuple)) (composeEvals (B.map leafTuple)) := by
    obtain ⟨blob, hblob⟩ := composes h2 hs
    have hev := composeEvals_of_coeffs (composedCoeffs_eq_iff.mpr hsums)
    refine ⟨blob, hblob, composed_accepts hn hlen hblob hev, fun h => hbits h.2, ?_⟩
    rw [hev]
    exact not_shaCollision_self _
  refine ⟨hmissed (by decide) (by decide) rfl ?_ (by decide) (by decide),
    hmissed (by decide) (by decide) rfl ?_ (by decide) (by decide)⟩
  · simp [SameStatement, sampleLeaf]
  · simp [SameStatement, sampleLeaf]

end Terpz.Aggregate
