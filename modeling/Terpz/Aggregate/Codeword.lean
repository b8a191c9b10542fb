import Terpz.Lib.Folding
import Terpz.Aggregate.Fri

/-! The composed evaluations are the values of the summed polynomial, and folding a codeword
gives the codeword of the folded polynomial. -/
namespace Terpz.Aggregate
open Lib Lib.BigEndian Lib.Folding
open F2 (K ofWord)

/-- The values of a polynomial on the subgroup of order `2 ^ d`, in canonical words. -/
structure Codeword (c : List K) (d : Nat) (ev : List F2) : Prop where
  length : ev.length = 2 ^ d
  canonical : ∀ v ∈ ev, v.Canonical
  value : ∀ i v, ev[i]? = some v → v.val = polyEval c (omega16.val ^ (2 ^ (4 - d) * i))

section Coefficients
open M31

theorem leNat_cons (v : UInt8) (l : Bytes) : leNat (v :: l) = v.toNat + 256 * leNat l := by
  rw [leNat, List.reverse_cons, beNat_append_singleton, leNat]
  omega

private theorem packByte {x : UInt32} {k : Nat} (hk : k < 4) (hx : x.toNat < 2 ^ (8 * k)) (v : UInt8) :
    (x ||| (v.toUInt32 <<< UInt32.ofNat (8 * k))).toNat = x.toNat + 2 ^ (8 * k) * v.toNat := by
  have hv := v.toNat_lt
  have hs : (UInt32.ofNat (8 * k)).toNat = 8 * k := by
    rw [UInt32.toNat_ofNat']
    omega
  have hshift : (v.toUInt32 <<< UInt32.ofNat (8 * k)).toNat = v.toNat <<< (8 * k) := by
    rw [UInt32.toNat_shiftLeft, hs, UInt8.toNat_toUInt32, Nat.mod_eq_of_lt (show 8 * k < 32 by omega),
      Nat.mod_eq_of_lt]
    rw [Nat.shiftLeft_eq]
    calc v.toNat * 2 ^ (8 * k) < 2 ^ 8 * 2 ^ (8 * k) := Nat.mul_lt_mul_of_pos_right hv (Nat.two_pow_pos _)
      _ = 2 ^ (8 + 8 * k) := (pow_add _ _ _).symm
      _ ≤ 2 ^ 32 := Nat.pow_le_pow_right (by decide) (by omega)
  rw [UInt32.toNat_or, hshift, Nat.or_comm, ← Nat.shiftLeft_add_eq_or_of_lt hx, Nat.shiftLeft_eq]
  ring

private theorem pack_loop {l : Bytes} {k : Nat} (hk : k + l.length ≤ 4) {x : UInt32} (hx : x.toNat < 2 ^ (8 * k)) :
    ((l.zipIdx k).foldl (fun x vi => x ||| (vi.1.toUInt32 <<< UInt32.ofNat (8 * vi.2))) x).toNat =
      x.toNat + 2 ^ (8 * k) * leNat l := by
  induction l generalizing k x with
  | nil => simp [leNat, beNat]
  | cons v l ih =>
    rw [List.length_cons] at hk
    have hbyte := packByte (by omega) hx v
    have hpow : 2 ^ (8 * (k + 1)) = 256 * 2 ^ (8 * k) := by
      rw [Nat.mul_succ, pow_add]
      ring
    have hnext : (x ||| (v.toUInt32 <<< UInt32.ofNat (8 * k))).toNat < 2 ^ (8 * (k + 1)) := by
      have hv := v.toNat_lt
      have : 2 ^ (8 * k) * v.toNat ≤ 2 ^ (8 * k) * 255 := Nat.mul_le_mul_left _ (by omega)
      omega
    rw [List.zipIdx_cons, List.foldl_cons, ih (by omega) hnext, hbyte, leNat_cons, hpow]
    ring

/-- Four bytes are read least significant first, and reduced. -/
theorem pack4_toNat (b : Bytes) : (pack4 b).toNat = leNat (b.take 4) % modulus := by
  have hlen : 0 + (b.take 4).length ≤ 4 := by rw [Nat.zero_add]; exact List.length_take_le ..
  have hx := pack_loop hlen (x := 0) (by decide)
  rw [pack4, red_toNat, UInt32.toNat_toUInt64, hx]
  · simp
  · rw [UInt32.toNat_toUInt64]
    exact (UInt32.toNat_lt _).trans (by decide)

private theorem pack4_canonical (b : Bytes) : Canonical (pack4 b) := by
  rw [Canonical, pack4_toNat]
  exact Nat.mod_lt _ (by decide)

/-- A coefficient may reach the modulus, or exceed it by one, but no more. -/
theorem tupleCoeffs_le (leaf : LeafTuple × Nat) {c : UInt32} (hc : c ∈ tupleCoeffs leaf) : c.toNat ≤ modulus + 1 := by
  simp only [tupleCoeffs, leafCoeffs, List.mem_cons, List.not_mem_nil, or_false] at hc
  rcases hc with rfl | rfl | rfl | rfl
  · exact red_le _
  · exact (pack4_canonical _).le
  · exact (pack4_canonical _).le
  · have hlt (b : Bytes) : (pack4 b).toNat < 2 ^ 31 := (pack4_canonical b).trans (by decide)
    rw [UInt32.toNat_xor]
    exact Nat.le_of_lt_succ ((Nat.xor_lt_two_pow (hlt _) (hlt _)).trans (by decide))

theorem tupleCoeffs_length (leaf : LeafTuple × Nat) : (tupleCoeffs leaf).length = 4 := rfl

end Coefficients

section Compose

private theorem leafEval_loop {x : F2} (hx : x.Canonical) {c : List UInt32} (hc : ∀ ci ∈ c, ci.toNat ≤ M31.modulus + 1)
    {s : F2 × F2} (hacc : s.1.Canonical) (hxp : s.2.Canonical) :
    (c.foldl (fun s ci => (s.1.add (s.2.scale ci), s.2.mul x)) s).1.Canonical ∧
      (c.foldl (fun s ci => (s.1.add (s.2.scale ci), s.2.mul x)) s).1.val =
        s.1.val + s.2.val * polyEval (c.map ofWord) x.val := by
  induction c generalizing s with
  | nil => exact ⟨hacc, by simp⟩
  | cons ci c ih =>
    obtain ⟨_, hscale⟩ := F2.scale_spec hxp (hc ci List.mem_cons_self)
    obtain ⟨hadd, hvadd⟩ := F2.add_spec s.1 (s.2.scale ci)
    obtain ⟨hmul, hvmul⟩ := F2.mul_spec hxp hx
    obtain ⟨hcan, hv⟩ := ih (fun d hd => hc d (List.mem_cons_of_mem _ hd))
      (s := (s.1.add (s.2.scale ci), s.2.mul x)) hadd hmul
    refine ⟨hcan, ?_⟩
    rw [List.foldl_cons, hv, hvadd, hscale, hvmul, List.map_cons, polyEval_cons]
    ring

/-- The loop over the coefficients evaluates the polynomial. -/
theorem leafEval_polyEval {x : F2} (hx : x.Canonical) {c : List UInt32} (hc : ∀ ci ∈ c, ci.toNat ≤ M31.modulus + 1) :
    (leafEval c x).Canonical ∧ (leafEval c x).val = polyEval (c.map ofWord) x.val := by
  obtain ⟨hcan, hv⟩ := leafEval_loop hx hc (s := (F2.zero, F2.one)) F2.zero_spec.1 F2.one_spec.1
  refine ⟨hcan, ?_⟩
  rw [leafEval, hv, F2.zero_spec.2, F2.one_spec.2, zero_add, one_mul]

theorem leafEval_spec {x : F2} (hx : x.Canonical) (leaf : LeafTuple × Nat) :
    (leafEval (tupleCoeffs leaf) x).val = polyEval ((tupleCoeffs leaf).map ofWord) x.val :=
  (leafEval_polyEval hx (fun _ => tupleCoeffs_le leaf)).2

theorem ofWord_add (a b : UInt32) : ofWord (M31.add a b) = ofWord a + ofWord b :=
  QuadraticAlgebra.ext (M31.add_spec a b).2 (add_zero 0).symm

private theorem map_ofWord_add (c d : List UInt32) :
    (List.zipWith M31.add c d).map ofWord = List.zipWith (· + ·) (c.map ofWord) (d.map ofWord) := by
  rw [List.map_zipWith, List.zipWith_map]
  simp only [ofWord_add]

/-- The sum of coefficients so far and the codeword so far. -/
private structure Composed (acc : List UInt32) (ev : List F2) : Prop where
  length : acc.length = 4
  canonical : ∀ a ∈ acc, M31.Canonical a
  codeword : Codeword (acc.map ofWord) 4 ev

private theorem composed_init : Composed [0, 0, 0, 0] (List.replicate domain F2.zero) where
  length := rfl
  canonical a ha := by
    simp only [List.mem_cons, List.not_mem_nil, or_false, or_self] at ha
    subst ha
    decide
  codeword := by
    refine ⟨List.length_replicate, ?_, ?_⟩
    · intro v hv
      rw [List.eq_of_mem_replicate hv]
      exact F2.zero_spec.1
    · intro i v hv
      have hzero : ofWord 0 = 0 := QuadraticAlgebra.ext Nat.cast_zero rfl
      rw [List.eq_of_mem_replicate (List.mem_of_getElem? hv), F2.zero_spec.2]
      simp [hzero]

private theorem Composed.step {acc : List UInt32} {ev : List F2} (h : Composed acc ev) (leaf : LeafTuple × Nat) :
    Composed (List.zipWith M31.add acc (tupleCoeffs leaf)) (addLeaf ev leaf) where
  length := by rw [List.length_zipWith, h.length, tupleCoeffs_length, Nat.min_self]
  canonical a ha := by
    obtain ⟨i, hi⟩ := List.mem_iff_getElem?.mp ha
    obtain ⟨x, y, _, _, rfl⟩ := List.getElem?_zipWith_eq_some.mp hi
    exact (M31.add_spec x y).1
  codeword := by
    refine ⟨by rw [addLeaf, List.length_mapIdx, h.codeword.length], ?_, ?_⟩
    · intro v hv
      obtain ⟨i, hi⟩ := List.mem_iff_getElem?.mp hv
      rw [addLeaf, List.getElem?_mapIdx] at hi
      obtain ⟨e, _, rfl⟩ := Option.map_eq_some_iff.mp hi
      exact (F2.add_spec _ _).1
    · intro i v hv
      rw [addLeaf, List.getElem?_mapIdx] at hv
      obtain ⟨e, he, rfl⟩ := Option.map_eq_some_iff.mp hv
      obtain ⟨hx, hvx⟩ := F2.pow_spec omega16_canonical (UInt32.ofNat i)
      have hi : i < 2 ^ 4 := h.codeword.length ▸ (List.getElem?_eq_some_iff.mp he).1
      have hpow : (UInt32.ofNat i).toNat = i := by
        rw [UInt32.toNat_ofNat']
        omega
      rw [(F2.add_spec _ _).2, leafEval_spec hx, hvx, hpow, h.codeword.value i e he, map_ofWord_add,
        polyEval_add (by simp [h.length, tupleCoeffs_length]), Nat.sub_self, pow_zero, one_mul]

private theorem composed_run (ps : List (LeafTuple × Nat)) {acc : List UInt32} {ev : List F2} (h : Composed acc ev) :
    Composed (ps.foldl (fun acc leaf => List.zipWith M31.add acc (tupleCoeffs leaf)) acc) (ps.foldl addLeaf ev) := by
  induction ps generalizing acc ev with
  | nil => exact h
  | cons p ps ih => exact ih (h.step p)

private theorem composed (leaves : List LeafTuple) : Composed (composedCoeffs leaves) (composeEvals leaves) :=
  composed_run leaves.zipIdx composed_init

/-- The composed evaluations are the values of the polynomial with the composed coefficients. -/
theorem composeEvals_codeword (leaves : List LeafTuple) :
    Codeword ((composedCoeffs leaves).map ofWord) 4 (composeEvals leaves) := (composed leaves).codeword

theorem composedCoeffs_length (leaves : List LeafTuple) : (composedCoeffs leaves).length = 4 := (composed leaves).length

theorem composedCoeffs_canonical (leaves : List LeafTuple) : ∀ a ∈ composedCoeffs leaves, M31.Canonical a :=
  (composed leaves).canonical

end Compose

section Fold

theorem fsBeta_canonical (roots : List Bytes32) (layer : Nat) : (fsBeta roots layer).Canonical := F2.new_canonical _ _

theorem foldAt_spec (e : UInt32) (v0 : F2) {beta v1 : F2} (hb : beta.Canonical) (h1 : v1.Canonical) :
    (foldAt (omega16.pow e) beta v0 v1).Canonical ∧ (foldAt (omega16.pow e) beta v0 v1).val =
      foldPair (ofWord (M31.inv 2)) (omega16.pow e).inv.val beta.val v0.val v1.val := by
  obtain ⟨hinv, _⟩ := omega16_pow_inv e
  obtain ⟨hsum, hvsum⟩ := F2.add_spec v0 v1
  obtain ⟨hdiff, hvdiff⟩ := F2.sub_spec v0 h1
  obtain ⟨hquot, hvquot⟩ := F2.mul_spec hdiff hinv
  obtain ⟨_, hvfe⟩ := F2.scale_spec hsum half_spec.1.le
  obtain ⟨hfo, hvfo⟩ := F2.scale_spec hquot half_spec.1.le
  obtain ⟨_, hvbeta⟩ := F2.mul_spec hb hfo
  obtain ⟨hcan, hv⟩ := F2.add_spec ((v0.add v1).scale (M31.inv 2))
    (beta.mul (((v0.sub v1).mul (omega16.pow e).inv).scale (M31.inv 2)))
  refine ⟨hcan, ?_⟩
  rw [foldAt, hv, hvfe, hvsum, hvbeta, hvfo, hvquot, hvdiff, foldPair]
  ring

/-- The generator's exponent at the layer of `2 ^ d` values. -/
theorem step_eq {d : Nat} (hd : d ≤ 4) : 1 <<< trailingZeros 64 (domain / 2 ^ d) = 2 ^ (4 - d) := by
  have : ∀ d ≤ 4, 1 <<< trailingZeros 64 (domain / 2 ^ d) = 2 ^ (4 - d) := by decide +kernel
  exact this d hd

theorem foldLayer_length (evals : List F2) (beta : F2) : (foldLayer evals beta).length = evals.length / 2 := by
  rw [foldLayer, List.length_map, List.length_range]

theorem foldLayer_getElem? {d : Nat} (hd : d + 1 ≤ 4) {ev : List F2} (hlen : ev.length = 2 ^ (d + 1)) (beta : F2)
    {i : Nat} (hi : i < 2 ^ d) : ∃ v0 v1, ev[i]? = some v0 ∧ ev[i + 2 ^ d]? = some v1 ∧
      (foldLayer ev beta)[i]? = some (foldAt (omega16.pow (UInt32.ofNat (2 ^ (4 - (d + 1)) * i))) beta v0 v1) := by
  have hpow : 2 ^ (d + 1) = 2 * 2 ^ d := by ring
  have hhalf : ev.length / 2 = 2 ^ d := by omega
  have hlo : i < ev.length := by omega
  have hhi : i + 2 ^ d < ev.length := by omega
  refine ⟨_, _, List.getElem?_eq_getElem hlo, List.getElem?_eq_getElem hhi, ?_⟩
  rw [foldLayer, List.getElem?_map, hhalf, List.getElem?_range hi, Option.map_some, hlen, step_eq hd,
    List.getD_eq_getElem _ _ hlo, List.getD_eq_getElem _ _ hhi]

/-- Folding halves a codeword and its polynomial. -/
theorem Codeword.fold {c : List K} {d : Nat} (hd : d + 1 ≤ 4) {ev : List F2} (h : Codeword c (d + 1) ev) {beta : F2}
    (hb : beta.Canonical) : Codeword (foldCoeffs beta.val c) d (foldLayer ev beta) := by
  have hpow : 2 ^ (d + 1) = 2 * 2 ^ d := by ring
  have hlen : (foldLayer ev beta).length = 2 ^ d := by
    rw [foldLayer_length, h.length]
    omega
  have hentry (i : Nat) (v : F2) (hv : (foldLayer ev beta)[i]? = some v) :
      v.Canonical ∧ v.val = polyEval (foldCoeffs beta.val c) (omega16.val ^ (2 ^ (4 - d) * i)) := by
    have hi : i < 2 ^ d := hlen ▸ (List.getElem?_eq_some_iff.mp hv).1
    obtain ⟨v0, v1, h0, h1, hfold⟩ := foldLayer_getElem? hd h.length beta hi
    obtain rfl := Option.some.inj (hv.symm.trans hfold)
    obtain ⟨hcan, hval⟩ := foldAt_spec (UInt32.ofNat (2 ^ (4 - (d + 1)) * i)) v0 hb
      (h.canonical v1 (List.mem_of_getElem? h1))
    refine ⟨hcan, ?_⟩
    -- the exponent of the lower point is below eight, and the upper point is its negative
    have hstep : 2 ^ (4 - (d + 1)) * 2 ^ d = 8 := by
      rw [← pow_add, show 4 - (d + 1) + d = 3 by omega]
      rfl
    have hsmall : 2 ^ (4 - (d + 1)) * i < 8 := hstep ▸ Nat.mul_lt_mul_of_pos_left hi (Nat.two_pow_pos _)
    have he : (UInt32.ofNat (2 ^ (4 - (d + 1)) * i)).toNat = 2 ^ (4 - (d + 1)) * i := by
      rw [UInt32.toNat_ofNat']
      omega
    have hinv := (omega16_pow_inv (UInt32.ofNat (2 ^ (4 - (d + 1)) * i))).2
    have hupper : omega16.val ^ (2 ^ (4 - (d + 1)) * (i + 2 ^ d)) = -omega16.val ^ (2 ^ (4 - (d + 1)) * i) := by
      rw [Nat.mul_add, hstep, pow_add, omega16_pow_eight, mul_neg_one]
    have hsquare : omega16.val ^ (2 ^ (4 - (d + 1)) * i) * omega16.val ^ (2 ^ (4 - (d + 1)) * i) =
        omega16.val ^ (2 ^ (4 - d) * i) := by
      rw [← pow_add, show 4 - d = 4 - (d + 1) + 1 by omega, pow_succ]
      ring
    rw [he] at hinv
    rw [hval, h.value i v0 h0, h.value _ v1 h1, hupper, foldPair_polyEval half_spec.2 hinv, hsquare]
  refine ⟨hlen, ?_, fun i v hv => (hentry i v hv).2⟩
  intro v hv
  obtain ⟨i, hi⟩ := List.mem_iff_getElem?.mp hv
  exact (hentry i v hi).1

/-- The codeword of a constant repeats one value. -/
theorem Codeword.flat {c : List K} {d : Nat} {ev : List F2} (h : Codeword c d ev) (hc : c.length ≤ 1) {v w : F2}
    (hv : v ∈ ev) (hw : w ∈ ev) : v = w := by
  obtain ⟨i, hi⟩ := List.mem_iff_getElem?.mp hv
  obtain ⟨j, hj⟩ := List.mem_iff_getElem?.mp hw
  exact F2.val_inj (h.canonical v hv) (h.canonical w hw)
    ((h.value i v hi).trans ((polyEval_const hc _ _).trans (h.value j w hj).symm))

end Fold
end Terpz.Aggregate
