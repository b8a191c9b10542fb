import Terpz.Aggregate.Blob

/-! Composition as a sum of polynomials: the composed codeword is the values of the summed
polynomial, and a second list adds what its leaves give at their positions after the first. -/
namespace Terpz.Aggregate
open Lib Lib.Folding
open F2 (ofWord)

/-- What the leaves add to the evaluations when the first of them stands at position `start`. -/
def composeEvalsFrom (start : Nat) (leaves : List LeafTuple) : List F2 :=
  (leaves.zipIdx start).foldl addLeaf (List.replicate domain F2.zero)

/-- What the leaves add to the coefficients when the first of them stands at position `start`. -/
def composedCoeffsFrom (start : Nat) (leaves : List LeafTuple) : List UInt32 :=
  (leaves.zipIdx start).foldl (fun acc leaf => List.zipWith M31.add acc (tupleCoeffs leaf)) [0, 0, 0, 0]

section Append

private theorem M31.add_add (a b c : UInt32) : M31.add (M31.add a b) c = M31.add a (M31.add b c) := by
  refine M31.toFp_inj (M31.add_spec _ _).1 (M31.add_spec _ _).1 ?_
  simp only [(M31.add_spec _ _).2]
  ring

private theorem M31.add_word_zero {a : UInt32} (ha : M31.Canonical a) : M31.add a 0 = a := by
  refine M31.toFp_inj (M31.add_spec _ _).1 ha ?_
  rw [(M31.add_spec _ _).2, M31.toFp, M31.toFp, UInt32.toNat_zero, Nat.cast_zero, add_zero]

private theorem F2.add_add (z w v : F2) : (z.add w).add v = z.add (w.add v) := by
  simp only [F2.add, M31.add_add]

private theorem F2.add_word_zero {z : F2} (hz : z.Canonical) : z.add F2.zero = z := by
  rw [F2.add, F2.zero, M31.add_word_zero hz.1, M31.add_word_zero hz.2]

private theorem zipWith_add_zeros {α : Type} {add : α → α → α} {zero : α} {l : List α}
    (h : ∀ a ∈ l, add a zero = a) : List.zipWith add l (List.replicate l.length zero) = l := by
  induction l with
  | nil => rfl
  | cons a l ih =>
    rw [List.length_cons, List.replicate_succ, List.zipWith_cons_cons, h a List.mem_cons_self,
      ih (fun b hb => h b (List.mem_cons_of_mem _ hb))]

/-- A leaf can be added before or after another list of evaluations. -/
private theorem addLeaf_zipWith (ev ev' : List F2) (leaf : LeafTuple × Nat) :
    addLeaf (List.zipWith F2.add ev ev') leaf = List.zipWith F2.add ev (addLeaf ev' leaf) := by
  apply List.ext_getElem?
  intro k
  simp only [addLeaf, List.getElem?_mapIdx, List.getElem?_zipWith']
  cases ev[k]? with
  | none => rfl
  | some e =>
    cases ev'[k]? with
    | none => rfl
    | some e' => exact congrArg some (F2.add_add _ _ _)

private theorem zipWith_add_add (a b c : List UInt32) :
    List.zipWith M31.add (List.zipWith M31.add a b) c = List.zipWith M31.add a (List.zipWith M31.add b c) := by
  induction a generalizing b c with
  | nil => rfl
  | cons x a ih =>
    cases b with
    | nil => rfl
    | cons y b =>
      cases c with
      | nil => rfl
      | cons z c => rw [List.zipWith_cons_cons, List.zipWith_cons_cons, List.zipWith_cons_cons,
          List.zipWith_cons_cons, M31.add_add, ih]

/-- The second list adds its contribution at the positions after the first. -/
theorem composeEvals_append (A B : List LeafTuple) :
    composeEvals (A ++ B) = List.zipWith F2.add (composeEvals A) (composeEvalsFrom A.length B) := by
  have hword := composeEvals_codeword A
  have hzeros : List.zipWith F2.add (composeEvals A) (List.replicate domain F2.zero) = composeEvals A := by
    rw [show domain = (composeEvals A).length from hword.length.symm]
    exact zipWith_add_zeros (fun v hv => F2.add_word_zero (hword.canonical v hv))
  calc composeEvals (A ++ B)
      = ((B.zipIdx A.length).foldl addLeaf (composeEvals A)) := by
        rw [composeEvals, List.zipIdx_append, List.foldl_append, Nat.zero_add, composeEvals]
    _ = ((B.zipIdx A.length).foldl addLeaf
          (List.zipWith F2.add (composeEvals A) (List.replicate domain F2.zero))) := by rw [hzeros]
    _ = List.zipWith F2.add (composeEvals A) (composeEvalsFrom A.length B) :=
        List.foldl_hom (List.zipWith F2.add (composeEvals A)) (fun ev leaf => addLeaf_zipWith _ ev leaf)

theorem composedCoeffs_append (A B : List LeafTuple) :
    composedCoeffs (A ++ B) = List.zipWith M31.add (composedCoeffs A) (composedCoeffsFrom A.length B) := by
  have hzeros : List.zipWith M31.add (composedCoeffs A) [0, 0, 0, 0] = composedCoeffs A := by
    rw [show [0, 0, 0, 0] = List.replicate 4 (0 : UInt32) from rfl, ← composedCoeffs_length A]
    exact zipWith_add_zeros (fun a ha => M31.add_word_zero (composedCoeffs_canonical A a ha))
  calc composedCoeffs (A ++ B)
      = (B.zipIdx A.length).foldl (fun acc leaf => List.zipWith M31.add acc (tupleCoeffs leaf)) (composedCoeffs A) := by
        rw [composedCoeffs, List.zipIdx_append, List.foldl_append, Nat.zero_add, composedCoeffs]
    _ = (B.zipIdx A.length).foldl (fun acc leaf => List.zipWith M31.add acc (tupleCoeffs leaf))
          (List.zipWith M31.add (composedCoeffs A) [0, 0, 0, 0]) := by rw [hzeros]
    _ = List.zipWith M31.add (composedCoeffs A) (composedCoeffsFrom A.length B) :=
        List.foldl_hom (List.zipWith M31.add (composedCoeffs A)) (fun acc leaf => zipWith_add_add _ acc _)

end Append

section Values

/-- The `k`-th composed evaluation is the word that evaluating the composed coefficients gives. -/
theorem composeEvals_getElem? (leaves : List LeafTuple) {k : Nat} (hk : k < domain) :
    (composeEvals leaves)[k]? = some (leafEval (composedCoeffs leaves) (omega16.pow (UInt32.ofNat k))) ∧
      (leafEval (composedCoeffs leaves) (omega16.pow (UInt32.ofNat k))).val =
        polyEval ((composedCoeffs leaves).map ofWord) (omega16.val ^ k) := by
  have hword := composeEvals_codeword leaves
  have hlen : k < (composeEvals leaves).length := hword.length ▸ hk
  obtain ⟨hx, hvx⟩ := F2.pow_spec omega16_canonical (UInt32.ofNat k)
  have hpow : (UInt32.ofNat k).toNat = k := by
    rw [UInt32.toNat_ofNat', Nat.mod_eq_of_lt (hk.trans (by decide))]
  obtain ⟨hcan, hval⟩ := leafEval_polyEval hx (fun a ha => (composedCoeffs_canonical leaves a ha).le)
  rw [hvx, hpow] at hval
  refine ⟨?_, hval⟩
  rw [List.getElem?_eq_getElem hlen]
  refine congrArg some (F2.val_inj (hword.canonical _ (List.getElem_mem hlen)) hcan ?_)
  rw [hword.value k _ (List.getElem?_eq_getElem hlen), hval, Nat.sub_self, pow_zero, one_mul]

end Values

/-- The composed evaluations are the values of the polynomial with the composed coefficients at the
powers of the generator; the coefficients in a composed blob interpolate the codeword it commits to;
and a list appended to another adds the contribution its leaves make at their new positions. -/
theorem composition_sums_polynomials :
    (∀ leaves k, k < domain →
      (composeEvals leaves)[k]? = some (leafEval (composedCoeffs leaves) (omega16.pow (UInt32.ofNat k))) ∧
        (leafEval (composedCoeffs leaves) (omega16.pow (UInt32.ofNat k))).val =
          polyEval ((composedCoeffs leaves).map ofWord) (omega16.val ^ k)) ∧
    (∀ leaves blob, composeSameStatement leaves = .ok blob → ∃ ev, blob.composedCommit = merkleCommit ev ∧
      ev.length = domain ∧ ∀ k v, ev[k]? = some v → v.val = polyEval (blob.evals.map ofWord) (omega16.val ^ k)) ∧
    ∀ A B, composeEvals (A ++ B) = List.zipWith F2.add (composeEvals A) (composeEvalsFrom A.length B) ∧
      composedCoeffs (A ++ B) = List.zipWith M31.add (composedCoeffs A) (composedCoeffsFrom A.length B) := by
  refine ⟨fun leaves k hk => composeEvals_getElem? leaves hk, ?_,
    fun A B => ⟨composeEvals_append A B, composedCoeffs_append A B⟩⟩
  intro leaves blob hblob
  obtain ⟨_, _, _, _, _, _, rfl⟩ := composeSameStatement_eq_ok.mp hblob
  have hword := composeEvals_codeword (leaves.map leafTuple)
  refine ⟨_, rfl, hword.length, fun k v hv => ?_⟩
  rw [hword.value k v hv, Nat.sub_self, pow_zero, one_mul]
  rfl

/-- Two leaves of one statement compose, and the coefficients in their blob interpolate its codeword. -/
theorem pair_blob_interpolates : ∃ blob ev, composeSameStatement [sampleLeaf 7 1 9, sampleLeaf 7 2 9] = .ok blob ∧
    blob.composedCommit = merkleCommit ev ∧
      ∀ k v, ev[k]? = some v → v.val = polyEval (blob.evals.map ofWord) (omega16.val ^ k) := by
  obtain ⟨blob, hblob⟩ := composes (by decide) (show SameStatement [sampleLeaf 7 1 9, sampleLeaf 7 2 9] by
    simp [SameStatement, sampleLeaf])
  obtain ⟨ev, hcommit, _, hev⟩ := composition_sums_polynomials.2.1 _ blob hblob
  exact ⟨blob, ev, hblob, hcommit, hev⟩

/-- Two equal leaves do not compose to twice the one: the second position is in the constant term. -/
theorem equal_leaves_not_doubled :
    let leaf := leafTuple (sampleLeaf 7 1 9)
    composedCoeffs ([leaf] ++ [leaf]) ≠ List.zipWith M31.add (composedCoeffs [leaf]) (composedCoeffs [leaf]) ∧
      composeEvals ([leaf] ++ [leaf]) ≠ List.zipWith F2.add (composeEvals [leaf]) (composeEvals [leaf]) := by
  decide +kernel

end Terpz.Aggregate
