import Terpz.Aggregate.Codeword

/-! The verifier accepts the prover's proof of any codeword whose polynomial is short enough to
be constant once two values are left. -/
namespace Terpz.Aggregate
open Lib Lib.Folding
open F2 (K)

section Merkle

theorem isPowerOfTwo_two_pow (d : Nat) : isPowerOfTwo (2 ^ d) = true := by
  rw [isPowerOfTwo, Nat.and_two_pow_sub_one_eq_mod, Nat.mod_self]
  simp

theorem padLevel_of_powerOfTwo {level : List Bytes32} (h : isPowerOfTwo level.length = true) (fuel : Nat) :
    padLevel fuel level = level := by
  cases fuel with
  | zero => rfl
  | succ fuel => rw [padLevel, if_pos h]

variable {d : Nat} {vals : List F2}

/-- A power of two of values is hashed without padding. -/
theorem merkleRoot_eq (h : vals.length = 2 ^ d) : merkleRoot vals =
    ((((PerfectTree.layers nodeHash (2 ^ d) (vals.map feltBytes)).getLast?).bind List.head?).getD zero32,
      PerfectTree.layers nodeHash (2 ^ d) (vals.map feltBytes)) := by
  have hlen : (vals.map feltBytes).length = 2 ^ d := by rw [List.length_map, h]
  have hpos : 0 < 2 ^ d := Nat.two_pow_pos d
  unfold merkleRoot
  simp only [hlen, if_neg (Nat.ne_of_gt hpos)]
  rw [padLevel_of_powerOfTwo (hlen ▸ isPowerOfTwo_two_pow d), hlen]

/-- Every value opens against the commitment. -/
theorem merkle_opening (h : vals.length = 2 ^ d) {i : Nat} {v : F2} (hv : vals[i]? = some v) :
    ∃ path, merkleOpen (merkleRoot vals).2 i = some path ∧ merkleCheck v i path (merkleCommit vals) = true := by
  have hfuel : d ≤ 2 ^ d := Nat.lt_two_pow_self.le
  have hlen : (vals.map feltBytes).length = 2 ^ d := by rw [List.length_map, h]
  obtain ⟨root, hroot, hopen⟩ := PerfectTree.opening nodeHash hfuel hlen
  obtain ⟨path, hpath, hclimb⟩ := hopen i (feltBytes v) (by rw [List.getElem?_map, hv]; rfl)
  have hne : (PerfectTree.layers nodeHash (2 ^ d) (vals.map feltBytes)).length ≠ 0 :=
    fun h0 => PerfectTree.layers_ne_nil _ _ _ (List.length_eq_zero_iff.mp h0)
  refine ⟨path, ?_, ?_⟩
  · rw [merkleRoot_eq h, merkleOpen, if_neg hne, hpath]
  · rw [merkleCheck, merkleCommit, merkleRoot_eq h, hclimb, hroot]
    exact beq_self_eq_true root

end Merkle

section Query

/-- Any position opens, with a path that checks. -/
private theorem layer_opened {d : Nat} {cur : List F2} (hlen : cur.length = 2 ^ d) (i : Nat) :
    ∃ v path, cur[i % 2 ^ d]? = some v ∧ merkleOpen (merkleRoot cur).2 (i % 2 ^ d) = some path ∧
      merkleCheck v (i % 2 ^ d) path (merkleCommit cur) = true := by
  have hi : i % 2 ^ d < cur.length := (Nat.mod_lt i (Nat.two_pow_pos d)).trans_eq hlen.symm
  obtain ⟨path, hopen, hcheck⟩ := merkle_opening hlen (List.getElem?_eq_getElem hi)
  exact ⟨_, path, List.getElem?_eq_getElem hi, hopen, hcheck⟩

theorem foldLoop_single {cur : List F2} (h : cur.length = 1) (fuel : Nat) (roots : List Bytes32) (li : Nat) :
    foldLoop fuel roots cur li = [] := by
  cases fuel with
  | zero => rfl
  | succ fuel => rw [foldLoop, if_neg (by omega)]

/-- A polynomial of at most half the domain stays so under folding. -/
private theorem foldCoeffs_short (β : K) {c : List K} {d : Nat} (hc : c.length ≤ 2 ^ d) :
    (foldCoeffs β c).length ≤ 2 ^ (d - 1) := by
  rw [foldCoeffs_length]
  cases d with
  | zero =>
    rw [pow_zero] at hc
    exact Nat.div_le_of_le_mul (by omega)
  | succ d =>
    have hp : 2 ^ (d + 1) = 2 * 2 ^ d := by ring
    rw [Nat.add_sub_cancel]
    omega

/-- Two equal values fold to the last codeword in either order, since the point is one both times. -/
private theorem last_fold {c : List K} {cur : List F2} (h : Codeword c 1 cur) (hc : c.length ≤ 1) (beta : F2)
    {v0 v1 : F2} (h0 : v0 ∈ cur) (h1 : v1 ∈ cur) (k : Nat) :
    (foldLayer cur beta)[0]? =
      some (foldAt (omega16.pow (UInt32.ofNat (domain / 2 * (k % max (2 / 2) 1)))) beta v0 v1) := by
  obtain ⟨w0, w1, hw0, hw1, hfold⟩ := foldLayer_getElem? (d := 0) (by decide) h.length beta (i := 0) (by decide)
  have hzero : domain / 2 * (k % max (2 / 2) 1) = 2 ^ (4 - (0 + 1)) * 0 := by
    rw [show max (2 / 2) 1 = 1 from rfl, Nat.mod_one]
    rfl
  rw [hfold, h.flat hc h0 (List.mem_of_getElem? hw0), h.flat hc h1 (List.mem_of_getElem? hw1), hzero]

/-- The fold that the verifier compares: only of the last two values. -/
def LastFold (pre : List Bytes32) (cur : List F2) (fin : F2) (n : Nat) : Prop :=
  n / 2 = 1 → ∀ v0 ∈ cur, ∀ v1 ∈ cur, ∀ k, foldAt (omega16.pow (UInt32.ofNat (domain / n * (k % max (n / 2) 1))))
    (fsBeta (pre ++ [merkleCommit cur]) pre.length) v0 v1 = fin

/-- One layer in front of an accepted query: it is opened, and accepted if its fold is. -/
private theorem query_step {d : Nat} {cur : List F2} (hlen : cur.length = 2 ^ (d + 1)) {pre : List Bytes32}
    {rest : List (List F2)} {fin : F2} (hlast : LastFold pre cur fin (2 ^ (d + 1))) {idx : Nat} {ql : List FriLayer}
    (hql : queryLayers rest (idx % max (2 ^ (d + 1) / 2) 1) = some ql)
    (hacc : verifyLayers (pre ++ (cur :: rest).map merkleCommit) fin ql (pre.length + 1)
      (idx % max (2 ^ (d + 1) / 2) 1) (2 ^ (d + 1) / 2) = some true) :
    ∃ ql, queryLayers (cur :: rest) idx = some ql ∧
      verifyLayers (pre ++ (cur :: rest).map merkleCommit) fin ql pre.length idx (2 ^ (d + 1)) = some true := by
  have hpow : 2 ^ (d + 1) = 2 * 2 ^ d := by ring
  have hpos : 0 < 2 ^ d := Nat.two_pow_pos d
  obtain ⟨v0, p0, hv0, hopen0, hcheck0⟩ := layer_opened hlen idx
  obtain ⟨v1, p1, hv1, hopen1, hcheck1⟩ := layer_opened hlen (idx % 2 ^ (d + 1) + 2 ^ (d + 1) / 2)
  refine ⟨(v0, v1, p0, p1) :: ql, ?_, ?_⟩
  · rw [queryLayers, if_neg (by omega), if_neg (by omega)]
    simp only [hlen, hopen0, hopen1, hv0, hv1, hql, Option.bind_eq_bind, Option.bind_some]
  · have hroot : (pre ++ (cur :: rest).map merkleCommit)[pre.length]? = some (merkleCommit cur) := by simp
    have htake : (pre ++ (cur :: rest).map merkleCommit).take (pre.length + 1) = pre ++ [merkleCommit cur] := by
      simp [List.take_append]
    have hfold : ¬ (2 ^ (d + 1) / 2 = 1 ∧ foldAt (omega16.pow (UInt32.ofNat
        (domain / 2 ^ (d + 1) * (idx % 2 ^ (d + 1) % max (2 ^ (d + 1) / 2) 1))))
        (fsBeta (pre ++ [merkleCommit cur]) pre.length) v0 v1 ≠ fin) := fun hn =>
      hn.2 (hlast hn.1 v0 (List.mem_of_getElem? hv0) v1 (List.mem_of_getElem? hv1) _)
    rw [verifyLayers, hroot]
    simp only [htake, hcheck0, hcheck1, Bool.not_true, Bool.false_eq_true, if_false, if_neg hfold, hacc]
    exact if_neg (by omega)

/-- From a codeword on, the query is built and its layers are accepted. The roots before it are
`pre`; the polynomial is at most half as long as the domain. -/
theorem query_accepted {d fuel : Nat} (hd : d ≤ 4) (hf : d ≤ fuel) {c : List K} (hc : c.length ≤ 2 ^ (d - 1))
    {cur : List F2} (h : Codeword c d cur) (pre : List Bytes32) :
    ∃ fin, (cur :: foldLoop fuel (pre ++ [merkleCommit cur]) cur pre.length).getLast? = some [fin] ∧
      ∀ idx, ∃ ql, queryLayers (cur :: foldLoop fuel (pre ++ [merkleCommit cur]) cur pre.length) idx = some ql ∧
        verifyLayers (pre ++ (cur :: foldLoop fuel (pre ++ [merkleCommit cur]) cur pre.length).map merkleCommit) fin ql
          pre.length idx (2 ^ d) = some true := by
  induction d generalizing fuel c cur pre with
  | zero =>
    obtain ⟨fin, rfl⟩ := List.length_eq_one_iff.mp h.length
    rw [foldLoop_single rfl]
    exact ⟨fin, rfl, fun idx => ⟨[], rfl, rfl⟩⟩
  | succ d ih =>
    obtain ⟨fuel, rfl⟩ : ∃ k, fuel = k + 1 := ⟨fuel - 1, by omega⟩
    have hpow : 2 ^ (d + 1) = 2 * 2 ^ d := by ring
    have hpos : 0 < 2 ^ d := Nat.two_pow_pos d
    have hlen := h.length
    have hword := h.fold hd (fsBeta_canonical (pre ++ [merkleCommit cur]) pre.length)
    generalize hnext : foldLayer cur (fsBeta (pre ++ [merkleCommit cur]) pre.length) = next at hword
    obtain ⟨fin, hfin, hquery⟩ := ih (by omega) (Nat.le_of_succ_le_succ hf) (foldCoeffs_short _ hc) hword
      (pre ++ [merkleCommit cur])
    rw [List.length_append, List.length_singleton] at hfin hquery
    have hloop : foldLoop (fuel + 1) (pre ++ [merkleCommit cur]) cur pre.length =
        next :: foldLoop fuel (pre ++ [merkleCommit cur] ++ [merkleCommit next]) next (pre.length + 1) := by
      rw [foldLoop, if_pos (by omega)]
      simp only [hnext]
    have hlast : LastFold pre cur fin (2 ^ (d + 1)) := by
      intro hn v0 h0 v1 h1 k
      obtain rfl : d = 0 := Nat.pow_right_injective (Nat.le_refl 2) (show 2 ^ d = 2 ^ 0 by omega)
      rw [foldLoop_single hword.length] at hfin
      have hsingle : next = [fin] := Option.some.inj hfin
      have hfold := last_fold h hc (fsBeta (pre ++ [merkleCommit cur]) pre.length) h0 h1 k
      rw [hnext, hsingle] at hfold
      exact (Option.some.inj hfold).symm
    rw [hloop]
    refine ⟨fin, by rw [List.getLast?_cons_of_ne_nil (List.cons_ne_nil _ _), hfin], ?_⟩
    intro idx
    obtain ⟨ql, hql, hacc⟩ := hquery (idx % max (2 ^ (d + 1) / 2) 1)
    refine query_step hlen hlast hql ?_
    rw [show 2 ^ (d + 1) / 2 = 2 ^ d by omega] at hacc ⊢
    rwa [List.map_cons, ← List.singleton_append, ← List.append_assoc]

end Query

section Run

private theorem queries_accepted {roots : List Bytes32} {fin : F2} {layersEv : List (List F2)}
    (h : ∀ idx, ∃ ql, queryLayers layersEv idx = some ql ∧ verifyLayers roots fin ql 0 idx domain = some true)
    (qs : List Nat) : ∃ queries, qs.mapM (queryAt layersEv) = some queries ∧ queries.length = qs.length ∧
      verifyQueries roots fin queries qs = some true := by
  induction qs with
  | nil => exact ⟨[], rfl, rfl, rfl⟩
  | cons q qs ih =>
    obtain ⟨queries, hmap, hlen, hacc⟩ := ih
    obtain ⟨ql, hql, hlayers⟩ := h q
    refine ⟨⟨q, ql⟩ :: queries, ?_, by rw [List.length_cons, hlen, List.length_cons], ?_⟩
    · rw [List.mapM_cons, queryAt, hql, hmap]
      rfl
    · rw [verifyQueries, if_neg (not_not.mpr rfl)]
      simp only [hlayers, hacc]

/-- Every codeword of a polynomial with at most eight coefficients is proved and the proof is accepted. -/
theorem prove_verifies {c : List K} (hc : c.length ≤ 8) {ev : List F2} (h : Codeword c 4 ev) :
    ∃ proof, prove ev = some proof ∧ verify ev proof = some true := by
  have hlen : ev.length = domain := h.length
  have hfuel : 4 ≤ ev.length := by
    rw [hlen]
    decide
  obtain ⟨fin, hlast, hquery⟩ := query_accepted (Nat.le_refl 4) hfuel hc h []
  simp only [List.nil_append, List.length_nil] at hlast hquery
  obtain ⟨queries, hmap, hcount, hacc⟩ := queries_accepted hquery (fsQueries (merkleCommit ev) 4)
  refine ⟨⟨(ev :: foldLoop ev.length [merkleCommit ev] ev 0).map merkleCommit, queries, fin⟩, ?_, ?_⟩
  · rw [prove, if_neg (not_not.mpr hlen)]
    simp only [hmap, hlast, Option.bind_eq_bind, Option.bind_some, List.head?_cons]
  · have hfour : queries.length = 4 := by
      rw [hcount, fsQueries, List.length_map, List.length_range]
    rw [verify]
    simp only [List.map_cons]
    rw [if_neg (not_not.mpr hlen), if_neg (not_not.mpr rfl), if_neg (not_not.mpr hfour)]
    exact hacc

end Run
end Terpz.Aggregate
