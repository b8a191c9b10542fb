import Terpz.Aggregate.Blob

/-! The chain of folds behind an accepted proof. The verifier walks the layers of a query but
compares only the last fold, and folds a pair in the order it was opened. -/
namespace Terpz.Aggregate
open Lib

/-- The fold of a pair opened at `pos` in a layer of `n` values: the value at the lower position
comes first, as when the whole layer is folded. -/
def foldOpened (beta : F2) (n pos : Nat) (layer : FriLayer) : F2 :=
  let x := omega16.pow (UInt32.ofNat (domain / n * (pos % (n / 2))))
  if pos < n / 2 then foldAt x beta layer.1 layer.2.1 else foldAt x beta layer.2.1 layer.1

/-- The layers of a query from layer `lvl` of `2 ^ d` values on: none is missing, and each pair
folds to the value opened next, the last one to the final value. -/
structure FoldChain (layerRoots : List Bytes32) (finalValue : F2) (lvl d idx : Nat) (layers : List FriLayer) :
    Prop where
  complete : layers.length = d
  folds : ∀ i layer, layers[i]? = some layer →
    foldOpened (fsBeta (layerRoots.take (lvl + i + 1)) (lvl + i)) (2 ^ (d - i)) (idx % 2 ^ (d - i)) layer =
      (layers[i + 1]?.map Prod.fst).getD finalValue

/-- What the verifier does not look at: that all four layers are there, that the first three folds
are the values opened next, and that a last pair opened at the upper position folds alike in
either order. -/
structure Linked (layerRoots : List Bytes32) (q : FriQuery) : Prop where
  complete : q.layers.length = 4
  linked : ∀ i layer next, q.layers[i]? = some layer → q.layers[i + 1]? = some next →
    foldOpened (fsBeta (layerRoots.take (i + 1)) i) (2 ^ (4 - i)) (q.index % 2 ^ (4 - i)) layer = next.1
  upper : q.index % 2 = 1 → ∀ layer, q.layers[3]? = some layer →
    foldAt (omega16.pow 0) (fsBeta (layerRoots.take 4) 3) layer.1 layer.2.1 =
      foldAt (omega16.pow 0) (fsBeta (layerRoots.take 4) 3) layer.2.1 layer.1

section Accepted
variable {layerRoots : List Bytes32} {finalValue : F2}

/-- One layer of an accepted query: if it has two values, their fold in the opened order is the
final value, and the layers after it are accepted. -/
theorem verifyLayers_cons {layer : FriLayer} {rest : List FriLayer} {lvl idx n : Nat}
    (h : verifyLayers layerRoots finalValue (layer :: rest) lvl idx n = some true) :
    (n = 2 → foldAt (omega16.pow 0) (fsBeta (layerRoots.take (lvl + 1)) lvl) layer.1 layer.2.1 = finalValue) ∧
      verifyLayers layerRoots finalValue rest (lvl + 1) (idx % max (n / 2) 1) (n / 2) = some true := by
  obtain ⟨v0, v1, p0, p1⟩ := layer
  rw [verifyLayers] at h
  split at h
  · cases h
  · by_cases hn : n = 0
    · rw [if_pos hn] at h
      cases h
    · rw [if_neg hn] at h
      simp only at h
      split at h
      · cases h
      · split at h
        · cases h
        · split at h
          · cases h
          · rename_i hfold
            refine ⟨?_, h⟩
            rintro rfl
            rw [not_and, not_not] at hfold
            have hzero : domain / 2 * (idx % 2 % max (2 / 2) 1) = 0 := by
              rw [show max (2 / 2) 1 = 1 from rfl, Nat.mod_one, Nat.mul_zero]
            have := hfold rfl
            rwa [hzero] at this

theorem verifyQueries_layers {queries : List FriQuery} {expect : List Nat}
    (h : verifyQueries layerRoots finalValue queries expect = some true) :
    ∀ q ∈ queries, verifyLayers layerRoots finalValue q.layers 0 q.index domain = some true := by
  induction queries generalizing expect with
  | nil => simp
  | cons q qs ih =>
    cases expect with
    | nil => cases h
    | cons e es =>
      rw [verifyQueries] at h
      split at h
      · cases h
      · split at h
        · rename_i hq
          intro r hr
          rcases List.mem_cons.mp hr with rfl | hr
          · exact hq
          · exact ih h r hr
        · rename_i hstop
          exact absurd h hstop

theorem verify_layers {ev : List F2} {proof : FriProof} (h : verify ev proof = some true) :
    ∀ q ∈ proof.queries, verifyLayers proof.layerRoots proof.finalValue q.layers 0 q.index domain = some true := by
  rw [verify] at h
  split at h
  · cases h
  · split at h
    · cases h
    · split at h
      · cases h
      · split at h
        · cases h
        · exact verifyQueries_layers h

/-- The one fold of four that is compared. -/
private theorem last_compared {q : FriQuery}
    (h : verifyLayers layerRoots finalValue q.layers 0 q.index domain = some true) {l0 l1 l2 l3 : FriLayer}
    (hl : q.layers = [l0, l1, l2, l3]) :
    foldAt (omega16.pow 0) (fsBeta (layerRoots.take 4) 3) l3.1 l3.2.1 = finalValue := by
  rw [hl] at h
  have h1 := (verifyLayers_cons h).2
  have h2 := (verifyLayers_cons h1).2
  have h3 := (verifyLayers_cons h2).2
  exact (verifyLayers_cons h3).1 rfl

/-- In the layer of two values the point is one, and only the order depends on the position. -/
private theorem foldOpened_two (beta : F2) (idx : Nat) (layer : FriLayer) : foldOpened beta 2 (idx % 2) layer =
    if idx % 2 = 1 then foldAt (omega16.pow 0) beta layer.2.1 layer.1
    else foldAt (omega16.pow 0) beta layer.1 layer.2.1 := by
  have hzero : UInt32.ofNat (domain / 2 * (idx % 2 % (2 / 2))) = 0 := by
    rw [show 2 / 2 = 1 from rfl, Nat.mod_one, Nat.mul_zero]
    rfl
  simp only [foldOpened, hzero]
  rcases Nat.mod_two_eq_zero_or_one idx with h | h
  · rw [if_pos (show idx % 2 < 2 / 2 by omega), if_neg (by omega)]
  · rw [if_neg (show ¬ idx % 2 < 2 / 2 by omega), if_pos h]

/-- For an accepted query the chain is whole exactly if the unchecked part is right. -/
theorem foldChain_iff_linked {q : FriQuery}
    (h : verifyLayers layerRoots finalValue q.layers 0 q.index domain = some true) :
    FoldChain layerRoots finalValue 0 4 q.index q.layers ↔ Linked layerRoots q := by
  constructor
  · rintro ⟨hlen, hfolds⟩
    refine ⟨hlen, ?_, ?_⟩
    · intro i layer next hi hnext
      have := hfolds i layer hi
      rwa [hnext, Nat.zero_add] at this
    · intro hodd layer hlayer
      obtain ⟨l0, l1, l2, l3, hl⟩ := List.length_eq_four.mp hlen
      have hlast := hfolds 3 layer hlayer
      obtain rfl : l3 = layer := by
        rw [hl] at hlayer
        exact Option.some.inj hlayer
      rw [last_compared h hl]
      rw [hl] at hlast
      exact (hlast.symm.trans ((foldOpened_two _ _ _).trans (if_pos hodd)))
  · rintro ⟨hlen, hlinked, hupper⟩
    refine ⟨hlen, ?_⟩
    intro i layer hi
    rw [Nat.zero_add]
    obtain ⟨l0, l1, l2, l3, hl⟩ := List.length_eq_four.mp hlen
    cases hnext : q.layers[i + 1]? with
    | some next => exact hlinked i layer next hi hnext
    | none =>
      -- only the last layer has none after it
      have hi4 : i = 3 := by
        have := (List.getElem?_eq_some_iff.mp hi).1
        have := List.getElem?_eq_none_iff.mp hnext
        omega
      subst hi4
      obtain rfl : l3 = layer := by
        rw [hl] at hi
        exact Option.some.inj hi
      have hlast := last_compared h hl
      refine (foldOpened_two _ _ _).trans ?_
      split
      · rename_i hodd
        exact (hupper hodd l3 hi).symm.trans hlast
      · exact hlast

end Accepted

section Honest
variable {layerRoots : List Bytes32} {finalValue : F2}

/-- A pair of a codeword's values folds to the value of the folded codeword. -/
theorem foldLayer_opened {d : Nat} (hd : d + 1 ≤ 4) {ev : List F2} (hlen : ev.length = 2 ^ (d + 1)) (beta : F2)
    {pos : Nat} (hpos : pos < 2 ^ (d + 1)) (layer : FriLayer) (h0 : ev[pos]? = some layer.1)
    (h1 : ev[(pos + 2 ^ (d + 1) / 2) % 2 ^ (d + 1)]? = some layer.2.1) :
    (foldLayer ev beta)[pos % 2 ^ d]? = some (foldOpened beta (2 ^ (d + 1)) pos layer) := by
  have hpow : 2 ^ (d + 1) = 2 * 2 ^ d := by ring
  have hhalf : 2 ^ (d + 1) / 2 = 2 ^ d := by omega
  have hdom : 2 ^ 4 / 2 ^ (d + 1) = 2 ^ (4 - (d + 1)) := Nat.pow_div hd (by decide)
  obtain ⟨w0, w1, hw0, hw1, hfold⟩ := foldLayer_getElem? hd hlen beta (Nat.mod_lt pos (Nat.two_pow_pos d))
  rw [hfold]
  simp only [foldOpened, show domain = 2 ^ 4 from rfl, hdom, hhalf]
  rw [hhalf] at h1
  by_cases hlow : pos < 2 ^ d
  · rw [Nat.mod_eq_of_lt hlow] at hw0 hw1
    rw [Nat.mod_eq_of_lt (by omega)] at h1
    rw [if_pos hlow, Option.some.inj (hw0.symm.trans h0), Option.some.inj (hw1.symm.trans h1)]
  · -- from the upper half the second value opened is the lower one
    have hmod : pos % 2 ^ d = pos - 2 ^ d := by
      rw [Nat.mod_eq_sub_mod (by omega), Nat.mod_eq_of_lt (by omega)]
    have hwrap : (pos + 2 ^ d) % 2 ^ (d + 1) = pos - 2 ^ d := by
      rw [Nat.mod_eq_sub_mod (by omega), Nat.mod_eq_of_lt (by omega)]
      omega
    rw [hmod] at hw0 hw1
    rw [Nat.sub_add_cancel (by omega)] at hw1
    rw [hwrap] at h1
    rw [if_neg hlow, Option.some.inj (hw0.symm.trans h1), Option.some.inj (hw1.symm.trans h0)]

/-- A layer in front of a chain that starts with the value it folds to. -/
theorem FoldChain.cons {lvl d idx : Nat} {layer : FriLayer} {rest : List FriLayer}
    (h : FoldChain layerRoots finalValue (lvl + 1) d (idx % 2 ^ d) rest)
    (hfold : foldOpened (fsBeta (layerRoots.take (lvl + 1)) lvl) (2 ^ (d + 1)) (idx % 2 ^ (d + 1)) layer =
      (rest.head?.map Prod.fst).getD finalValue) :
    FoldChain layerRoots finalValue lvl (d + 1) idx (layer :: rest) where
  complete := by rw [List.length_cons, h.complete]
  folds := by
    intro i l hi
    cases i with
    | zero =>
      obtain rfl : layer = l := Option.some.inj hi
      rw [List.getElem?_cons_succ, ← List.head?_eq_getElem?]
      exact hfold
    | succ i =>
      have hl := h.folds i l hi
      rwa [Nat.mod_mod_of_dvd _ (Nat.pow_dvd_pow 2 (Nat.sub_le d i)), Nat.add_assoc lvl 1 i, Nat.add_comm 1 i,
        ← Nat.add_sub_add_right d 1 i] at hl

/-- The prover's query starts with the codeword's own value and folds through to the last one. -/
theorem query_folds {d fuel : Nat} (hd : d ≤ 4) (hf : d ≤ fuel) {cur : List F2} (hlen : cur.length = 2 ^ d)
    (pre : List Bytes32) {fin : F2}
    (hfin : (cur :: foldLoop fuel (pre ++ [merkleCommit cur]) cur pre.length).getLast?.bind List.head? = some fin)
    {idx : Nat} {ql : List FriLayer}
    (hql : queryLayers (cur :: foldLoop fuel (pre ++ [merkleCommit cur]) cur pre.length) idx = some ql) :
    cur[idx % 2 ^ d]? = some ((ql.head?.map Prod.fst).getD fin) ∧
      FoldChain (pre ++ (cur :: foldLoop fuel (pre ++ [merkleCommit cur]) cur pre.length).map merkleCommit) fin
        pre.length d idx ql := by
  induction d generalizing fuel cur pre idx ql with
  | zero =>
    obtain ⟨v, rfl⟩ := List.length_eq_one_iff.mp hlen
    rw [foldLoop_single rfl] at hfin hql
    obtain rfl : v = fin := Option.some.inj hfin
    obtain rfl : [] = ql := Option.some.inj hql
    refine ⟨by rw [pow_zero, Nat.mod_one]; rfl, rfl, ?_⟩
    intro i layer hi
    cases hi
  | succ d ih =>
    obtain ⟨fuel, rfl⟩ : ∃ k, fuel = k + 1 := ⟨fuel - 1, by omega⟩
    have hpow : 2 ^ (d + 1) = 2 * 2 ^ d := by ring
    have hpos : 0 < 2 ^ d := Nat.two_pow_pos d
    have hhalf : max (2 ^ (d + 1) / 2) 1 = 2 ^ d := by omega
    have hbig : cur.length > 1 := by omega
    rw [foldLoop, if_pos hbig] at hfin hql ⊢
    simp only at hfin hql ⊢
    generalize hnext : foldLayer cur (fsBeta (pre ++ [merkleCommit cur]) pre.length) = next at hfin hql ⊢
    have hnextLen : next.length = 2 ^ d := by
      rw [← hnext, foldLayer_length, hlen]
      omega
    rw [List.getLast?_cons_of_ne_nil (List.cons_ne_nil _ _)] at hfin
    rw [queryLayers, if_neg (by omega), if_neg (by omega), hlen] at hql
    simp only [hhalf, Option.bind_eq_bind, Option.bind_eq_some_iff] at hql
    obtain ⟨p0, _, p1, _, v0, h0, v1, h1, rest, hrest, hcons⟩ := hql
    obtain rfl := Option.some.inj hcons
    have ih' := @ih fuel (by omega) (by omega) next hnextLen (pre ++ [merkleCommit cur])
    rw [List.length_append, List.length_singleton] at ih'
    obtain ⟨hhead, hchain⟩ := ih' hfin hrest
    have hfold := foldLayer_opened hd hlen (fsBeta (pre ++ [merkleCommit cur]) pre.length)
      (Nat.mod_lt idx (Nat.two_pow_pos _)) (v0, v1, p0, p1) h0 h1
    rw [hnext, Nat.mod_mod_of_dvd _ (Nat.pow_dvd_pow 2 (Nat.le_succ d))] at hfold
    rw [Nat.mod_mod] at hhead
    refine ⟨h0, FoldChain.cons ?_ ?_⟩
    · rwa [List.map_cons, ← List.singleton_append, ← List.append_assoc]
    · rw [List.map_cons, List.take_append, List.take_of_length_le (by omega)]
      simp only [Nat.add_sub_cancel_left, List.take_succ_cons, List.take_zero]
      exact Option.some.inj (hfold.symm.trans hhead)

private theorem queryAt_mem {layersEv : List (List F2)} {qs : List Nat} {queries : List FriQuery}
    (h : qs.mapM (queryAt layersEv) = some queries) : ∀ q ∈ queries, queryLayers layersEv q.index = some q.layers := by
  induction qs generalizing queries with
  | nil =>
    obtain rfl : [] = queries := Option.some.inj h
    simp
  | cons i qs ih =>
    rw [List.mapM_cons] at h
    simp only [Option.bind_eq_bind, Option.bind_eq_some_iff] at h
    obtain ⟨q, hq, rest, hrest, hcons⟩ := h
    obtain rfl := Option.some.inj hcons
    obtain ⟨ql, hql, rfl⟩ := Option.map_eq_some_iff.mp hq
    intro r hr
    rcases List.mem_cons.mp hr with rfl | hr
    · exact hql
    · exact ih hrest r hr

/-- Whatever is proved, the prover's queries fold through. -/
theorem prove_folds {ev : List F2} {proof : FriProof} (h : prove ev = some proof) :
    ∀ q ∈ proof.queries, FoldChain proof.layerRoots proof.finalValue 0 4 q.index q.layers := by
  rw [prove] at h
  split at h
  · cases h
  · rename_i hlen
    rw [not_not] at hlen
    simp only [Option.bind_eq_bind, Option.bind_eq_some_iff] at h
    obtain ⟨queries, hqueries, fin, hfin, hproof⟩ := h
    obtain rfl := Option.some.inj hproof
    intro q hq
    have hfuel : 4 ≤ ev.length := by
      rw [hlen]
      decide
    exact (query_folds (Nat.le_refl 4) hfuel hlen [] (Option.bind_eq_some_iff.mpr hfin) (queryAt_mem hqueries q hq)).2

end Honest

/-- An accepted proof folds through at every query exactly if what the verifier does not look at
is right at every query. -/
theorem accepted_folds_iff (ev : List F2) (proof : FriProof) (hacc : verify ev proof = some true) :
    (∀ q ∈ proof.queries, FoldChain proof.layerRoots proof.finalValue 0 4 q.index q.layers) ↔
      ∀ q ∈ proof.queries, Linked proof.layerRoots q :=
  forall₂_congr fun q hq => foldChain_iff_linked (verify_layers hacc q hq)

/-- The proof of two composed leaves is accepted, and what is not looked at is right. -/
theorem accepted_folds_pair : ∃ proof, prove (composeEvals ([sampleLeaf 7 1 9, sampleLeaf 7 2 9].map leafTuple)) =
      some proof ∧ verify (composeEvals ([sampleLeaf 7 1 9, sampleLeaf 7 2 9].map leafTuple)) proof = some true ∧
    ∀ q ∈ proof.queries, Linked proof.layerRoots q := by
  obtain ⟨proof, hprove, hverify⟩ := composed_proof [sampleLeaf 7 1 9, sampleLeaf 7 2 9]
  exact ⟨proof, hprove, hverify, (accepted_folds_iff _ proof hverify).mp (prove_folds hprove)⟩

/-- A proof without any layers, with whatever final value. -/
def unlayered (ev : List F2) (finalValue : F2) : FriProof :=
  ⟨[merkleCommit ev], (fsQueries (merkleCommit ev) 4).map (fun i => ⟨i, []⟩), finalValue⟩

private theorem verifyQueries_unlayered (roots : List Bytes32) (fin : F2) (es : List Nat) :
    verifyQueries roots fin (es.map (fun i => ⟨i, []⟩)) es = some true := by
  induction es with
  | nil => rfl
  | cons e es ih =>
    rw [List.map_cons, verifyQueries, if_neg (not_not.mpr rfl)]
    exact ih

theorem unlayered_verifies {ev : List F2} (hlen : ev.length = domain) (finalValue : F2) :
    verify ev (unlayered ev finalValue) = some true := by
  have hfour : ((fsQueries (merkleCommit ev) 4).map (fun i => FriQuery.mk i [])).length = 4 := by
    rw [List.length_map, fsQueries, List.length_map, List.length_range]
  unfold verify unlayered
  simp only [hlen, hfour, ne_eq, not_true_eq_false, if_false]
  exact verifyQueries_unlayered _ _ _

/-- Sixteen zeros are accepted with the final value one and not a single fold. -/
theorem unlayered_zeros_accepted :
    verify (List.replicate 16 F2.zero) (unlayered (List.replicate 16 F2.zero) F2.one) = some true ∧
      ∃ q ∈ (unlayered (List.replicate 16 F2.zero) F2.one).queries, q.layers = [] ∧
        ¬ FoldChain (unlayered (List.replicate 16 F2.zero) F2.one).layerRoots F2.one 0 4 q.index q.layers := by
  have hne : (unlayered (List.replicate 16 F2.zero) F2.one).queries ≠ [] := by
    rw [unlayered, ne_eq, List.map_eq_nil_iff, fsQueries, List.map_eq_nil_iff]
    decide
  obtain ⟨q, hq⟩ := List.exists_mem_of_ne_nil _ hne
  have hnil : q.layers = [] := by
    obtain ⟨i, _, rfl⟩ := List.mem_map.mp hq
    rfl
  refine ⟨unlayered_verifies List.length_replicate _, q, hq, hnil, ?_⟩
  rintro ⟨hlen, _⟩
  rw [hnil] at hlen
  cases hlen

end Terpz.Aggregate
