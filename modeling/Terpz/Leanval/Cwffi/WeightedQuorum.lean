import Mathlib.Algebra.Order.BigOperators.Group.Finset
import Terpz.Leanval.Cwffi.Replica
import Terpz.Leanval.Ffi.Scheme

/-! The weight behind a committed block. The driver adds up the signers as the certificate lists them, the engine as
bits of its committee; a quorum is one of distinct seats. -/
namespace Terpz.Leanval.Cwffi
open Lib Ffi

/-- What a seat weighs; a seat outside the committee weighs nothing. -/
def seatWeight (weights : List UInt64) (i : UInt32) : Nat := ((weights[i.toNat]?).getD 0).toNat

/-- The weight of the distinct seats that a certificate lists. -/
def distinctWeight (c : LeanCert) (weights : List UInt64) : Nat :=
  ∑ i ∈ (c.signers.map (·.index)).toFinset, seatWeight weights i

/-- The weight of the listed seats, each as often as it is listed. -/
def listedWeight (c : LeanCert) (weights : List UInt64) : Nat :=
  (c.signers.map (fun s => seatWeight weights s.index)).sum

def committeeWeight (weights : List UInt64) : Nat := (weights.map UInt64.toNat).sum

/-- Strictly more than two thirds of the total. -/
def Quorum (weight total : Nat) : Prop := 2 * total < 3 * weight

instance (weight total : Nat) : Decidable (Quorum weight total) := inferInstanceAs (Decidable (_ < _))

/-- A certificate read to its end, for a committee that is not empty, whose repeated seats do not lift it over two
thirds. Another certificate is not weighed, and has to have the quorum by itself. -/
def Weighed (cert : Bytes) (weights : List UInt64) : Prop :=
  if (parseLeanCert cert).2 = none ∧ weights ≠ [] then
    ¬ (¬ Quorum (distinctWeight (parseLeanCert cert).1 weights) (committeeWeight weights) ∧
      Quorum (listedWeight (parseLeanCert cert).1 weights) (committeeWeight weights))
  else Quorum (distinctWeight (parseLeanCert cert).1 weights) (committeeWeight weights)

/-- A block call that gets as far as the weight of its certificate: the payload is the next block, and a fetched
certificate passes the verifier. -/
def Node.Admits {σ : Type} (n : Node σ) (epoch : UInt64) (payload cert : Bytes) (remote : Bool) : Prop :=
  ∃ p, decodePayload payload = .ok p ∧ (n.driver.next > 0 → p.height = n.driver.next) ∧
    (remote = true → remoteRefused n.driver.verifyCert (n.participantsAndWeights epoch).1
      (n.participantsAndWeights epoch).2 cert = false)

section Sums

/-- A sum of words that stays below 2^64 does not wrap. -/
theorem toNat_foldl_add {α : Type} (g : α → UInt64) {l : List α} {a : UInt64}
    (h : a.toNat + (l.map (fun x => (g x).toNat)).sum < 2 ^ 64) :
    (l.foldl (fun w x => w + g x) a).toNat = a.toNat + (l.map (fun x => (g x).toNat)).sum := by
  induction l generalizing a with
  | nil => rfl
  | cons x l ih =>
    rw [List.map_cons, List.sum_cons] at h ⊢
    have hadd : (a + g x).toNat = a.toNat + (g x).toNat := by
      rw [UInt64.toNat_add, Nat.mod_eq_of_lt (by omega)]
    rw [List.foldl_cons, ih (by omega), hadd]
    omega

private theorem sum_le_of_le {l : List Nat} {b : Nat} (h : ∀ x ∈ l, x ≤ b) : l.sum ≤ l.length * b := by
  simpa using List.sum_le_card_nsmul l b h

/-- A committee as the store query gives it: weights from 1 to 255, and fewer than 2^32 of them. -/
structure Sized (weights : List UInt64) : Prop where
  low : ∀ w ∈ weights, 1 ≤ w.toNat
  high : ∀ w ∈ weights, w.toNat ≤ 255
  few : weights.length < 2 ^ 32

theorem sized_of_query {q : StoreQuery} {epoch : UInt64} (h : (bondedParticipantsWeights q epoch).2.length < 2 ^ 32) :
    Sized (bondedParticipantsWeights q epoch).2 := by
  have heb : ∀ i, ∀ w ∈ ebByIdx (subspacePairs (q subspacePath [ebPrefix])) i, w.toNat ≤ 255 := by
    intro i
    refine overwrite_satisfies (P := fun o : Option UInt64 => ∀ w ∈ o, w.toNat ≤ 255) ?_ ?_ i
    · intro e he
      obtain ⟨⟨j, v⟩, hv, rfl⟩ := List.mem_map.mp he
      obtain ⟨p, -, hp⟩ := List.mem_filterMap.mp hv
      intro w hw
      obtain rfl := Option.some.inj hw
      unfold ebEntry at hp
      split at hp
      · split at hp
        · cases hp
          rename_i b _ _ _ _
          have hb := b.toNat_lt
          rw [UInt8.toNat_toUInt64]
          omega
        · cases hp
      · cases hp
    · intro _ w hw
      cases hw
  have hweight : ∀ w ∈ (bondedParticipantsWeights q epoch).2, 1 ≤ w.toNat ∧ w.toNat ≤ 255 := by
    intro w hw
    obtain ⟨i, -, rfl⟩ := List.mem_map.mp hw
    unfold weightOf
    split
    · decide
    · split
      · decide
      · rename_i e he
        split
        · rename_i hpos
          exact ⟨UInt64.lt_iff_toNat_lt.mp hpos, heb _ e he⟩
        · decide
  exact ⟨fun w hw => (hweight w hw).1, fun w hw => (hweight w hw).2, h⟩

variable {weights : List UInt64}

theorem seatWeight_le (h : Sized weights) (i : UInt32) : seatWeight weights i ≤ 255 := by
  unfold seatWeight
  cases hw : weights[i.toNat]? with
  | none => decide
  | some w => exact h.high w (List.mem_of_getElem? hw)

theorem committeeWeight_lt (h : Sized weights) : committeeWeight weights < 2 ^ 40 := by
  have hsum : committeeWeight weights ≤ (weights.map UInt64.toNat).length * 255 := by
    refine sum_le_of_le (fun x hx => ?_)
    obtain ⟨w, hw, rfl⟩ := List.mem_map.mp hx
    exact h.high w hw
  rw [List.length_map] at hsum
  have hfew := h.few
  omega

theorem committeeWeight_pos (h : Sized weights) : 0 < committeeWeight weights ↔ weights ≠ [] := by
  cases weights with
  | nil => simp [committeeWeight]
  | cons w ws =>
    have hw := h.low w List.mem_cons_self
    simp only [committeeWeight, List.map_cons, List.sum_cons, ne_eq, List.cons_ne_nil, not_false_eq_true, iff_true]
    omega

theorem totalWeight_toNat (h : Sized weights) : (totalWeight weights).toNat = committeeWeight weights := by
  have hlt := committeeWeight_lt h
  refine (toNat_foldl_add id ?_).trans (Nat.zero_add _)
  show 0 + committeeWeight weights < 2 ^ 64
  omega

theorem listedWeight_lt {c : LeanCert} (h : Sized weights) (hc : c.signers.length ≤ 4096) :
    listedWeight c weights < 2 ^ 40 := by
  have hsum : listedWeight c weights ≤ (c.signers.map (fun s => seatWeight weights s.index)).length * 255 := by
    refine sum_le_of_le (fun x hx => ?_)
    obtain ⟨s, -, rfl⟩ := List.mem_map.mp hx
    exact seatWeight_le h _
  rw [List.length_map] at hsum
  omega

theorem signedWeight_toNat {c : LeanCert} (h : Sized weights) (hc : c.signers.length ≤ 4096) :
    (signedWeight c weights).toNat = listedWeight c weights := by
  have hlt := listedWeight_lt h hc
  refine (toNat_foldl_add (fun s : CertSigner => (weights[s.index.toNat]?).getD 0) ?_).trans (Nat.zero_add _)
  show 0 + listedWeight c weights < 2 ^ 64
  omega

/-- Within these sizes the words do not wrap. -/
theorem meetsWeight_iff {signed total : UInt64} (hs : signed.toNat < 2 ^ 40) (ht : total.toNat < 2 ^ 40) :
    meetsWeight signed total = true ↔ 0 < total.toNat ∧ Quorum signed.toNat total.toNat := by
  have h3 : (signed * 3).toNat = signed.toNat * 3 := by
    rw [UInt64.toNat_mul, show (3 : UInt64).toNat = 3 from rfl, Nat.mod_eq_of_lt (by omega)]
  have h2 : (total * 2).toNat = total.toNat * 2 := by
    rw [UInt64.toNat_mul, show (2 : UInt64).toNat = 2 from rfl, Nat.mod_eq_of_lt (by omega)]
  simp only [meetsWeight, Bool.and_eq_true, decide_eq_true_eq, gt_iff_lt, UInt64.lt_iff_toNat_lt, h3, h2, Quorum,
    show (0 : UInt64).toNat = 0 from rfl]
  omega

/-- And the engine's saturating product is the driver's. -/
theorem meetsWeight_eq {signed total : UInt64} (hs : signed.toNat < 2 ^ 40) (ht : total.toNat < 2 ^ 40) :
    Ffi.meetsWeight signed total = meetsWeight signed total := by
  have hmul : ∀ {a b : UInt64}, a.toNat < 2 ^ 40 → b.toNat ≤ 3 → Ffi.saturatingMul a b = a * b := by
    intro a b ha hb
    have hprod : a.toNat * b.toNat ≤ a.toNat * 3 := Nat.mul_le_mul_left _ hb
    apply UInt64.toNat_inj.mp
    rw [Ffi.saturatingMul, UInt64.toNat_ofNat', UInt64.toNat_mul, Nat.min_eq_left (by omega)]
  rw [Ffi.meetsWeight, meetsWeight, hmul hs (by decide), hmul ht (by decide)]

end Sums

section Decision
variable {σ : Type} {app : EngineApp σ} {n : Node σ} {now : Int} {epoch : UInt64} {digest payload cert : Bytes}
  {remote : Bool}

theorem reaches_iff : (∃ req, req ∈ requests (n.finalizeWith app now epoch digest payload cert remote).2) ↔
    n.Admits epoch payload cert remote ∧
      underweight (parseLeanCert cert).1 (parseLeanCert cert).2 (n.participantsAndWeights epoch).2 = false := by
  constructor
  · rintro ⟨req, hreq⟩
    obtain ⟨dec, hdec, -⟩ := mem_requests_finalizeWith.mp hreq
    obtain ⟨hp, hheight, -, hcommittee, hparse, hremote, hweight⟩ := decision_eq_some hdec
    rw [Node.Admits, ← hcommittee, ← hparse]
    exact ⟨⟨dec.payload, hp, hheight, hremote⟩, hweight⟩
  · rintro ⟨⟨p, hp, hheight, hremote⟩, hweight⟩
    have hrefused : (remote && remoteRefused n.driver.verifyCert (n.participantsAndWeights epoch).1
        (n.participantsAndWeights epoch).2 cert) = false := by
      cases remote with
      | false => rfl
      | true => exact hremote rfl
    have hdec : n.decision epoch digest payload cert remote ≠ none := by
      unfold Node.decision
      simp only [hp]
      rw [if_neg, if_neg, if_neg, if_neg]
      · exact Option.some_ne_none _
      · exact Bool.eq_false_iff.mp hweight
      · exact Bool.eq_false_iff.mp hrefused
      · exact fun h => h.2 (hheight h.1)
      · exact fun h => absurd h.2 (by rw [hheight h.1]; exact Int64.lt_irrefl)
    obtain ⟨dec, hdec⟩ := Option.ne_none_iff_exists'.mp hdec
    exact ⟨_, mem_requests_finalizeWith.mpr ⟨dec, hdec, rfl⟩⟩

variable {weights : List UInt64}

theorem underweight_iff (h : Sized weights) (hsig : (parseLeanCert cert).1.signers ≠ []) :
    underweight (parseLeanCert cert).1 (parseLeanCert cert).2 weights = false ↔
      ((parseLeanCert cert).2 = none ∧ weights ≠ [] →
        Quorum (listedWeight (parseLeanCert cert).1 weights) (committeeWeight weights)) := by
  have hfew := (header_of_signers hsig).1.few
  have hsigned := signedWeight_toNat h hfew
  have htotal := totalWeight_toNat h
  have hpos : totalWeight weights > 0 ↔ weights ≠ [] := by
    rw [← committeeWeight_pos h, ← htotal]
    exact UInt64.lt_iff_toNat_lt
  have hmeets : meetsWeight (signedWeight (parseLeanCert cert).1 weights) (totalWeight weights) = true ↔
      weights ≠ [] ∧ Quorum (listedWeight (parseLeanCert cert).1 weights) (committeeWeight weights) := by
    rw [meetsWeight_iff (hsigned ▸ listedWeight_lt h hfew) (htotal ▸ committeeWeight_lt h), hsigned, htotal,
      committeeWeight_pos h]
  have hlisted : (parseLeanCert cert).1.signers.length > 0 := List.length_pos_iff.mpr hsig
  unfold underweight
  rw [← Bool.not_eq_true]
  simp only [Bool.and_eq_true, Bool.not_eq_true', Option.isNone_iff_eq_none, decide_eq_true_eq, hlisted, and_true, hpos,
    ← Bool.not_eq_true, hmeets]
  constructor
  · intro h hchecked
    by_contra hno
    exact h ⟨hchecked, fun hm => hno hm.2⟩
  · rintro h ⟨hchecked, hno⟩
    exact hno ⟨hchecked.2, h hchecked⟩

/-- The engine weighs a certificate as the driver weighs the list of its seats. -/
theorem certificateMeetsWeight_iff (h : Sized weights) {participants : List Bytes} {f : Finalization} {raw : Bytes}
    (hfew : (f.leanCert raw).signers.length ≤ 4096) (hne : weights ≠ []) :
    WeightedScheme.certificateMeetsWeight ⟨participants, weights, totalWeight weights⟩ f.certificate = true ↔
      Quorum (listedWeight (f.leanCert raw) weights) (committeeWeight weights) := by
  have hsigned : WeightedScheme.signedWeight ⟨participants, weights, totalWeight weights⟩ f.certificate.signers.iter =
      signedWeight (f.leanCert raw) weights := by
    rw [← f.certSigners_index, WeightedScheme.signedWeight, List.map_map, List.foldl_map]
    rfl
  have hlisted : (signedWeight (f.leanCert raw) weights).toNat < 2 ^ 40 := by
    rw [signedWeight_toNat h hfew]
    exact listedWeight_lt h hfew
  have htotal : (totalWeight weights).toNat < 2 ^ 40 := by
    rw [totalWeight_toNat h]
    exact committeeWeight_lt h
  have hpos := (committeeWeight_pos h).mpr hne
  rw [WeightedScheme.certificateMeetsWeight, hsigned, meetsWeight_eq hlisted htotal, meetsWeight_iff hlisted htotal,
    signedWeight_toNat h hfew, totalWeight_toNat h]
  exact and_iff_right hpos

/-- What the engine encodes lists every seat once, so the driver weighs it as it should. -/
theorem weighed_of_encoded (cw : Commonware) (f : Finalization)
    (hsig : (parseLeanCert (cw.encodeLcert f)).1.signers ≠ []) (hne : weights ≠ []) :
    Weighed (cw.encodeLcert f) weights := by
  have hread : (parseLeanCert (cw.encodeLcert f)).2 = none := by
    obtain ⟨raw, hparse⟩ := parse_encoded cw f hsig
    rw [hparse]
  have honce : distinctWeight (parseLeanCert (cw.encodeLcert f)).1 weights =
      listedWeight (parseLeanCert (cw.encodeLcert f)).1 weights := by
    obtain ⟨raw, hparse⟩ := parse_encoded cw f hsig
    rw [hparse]
    have hnodup : ((f.leanCert raw).signers.map (·.index)).Nodup :=
      f.certSigners_index ▸ f.certificate.signers.iter_nodup
    rw [distinctWeight, List.sum_toFinset _ hnodup, List.map_map]
    rfl
  rw [Weighed, if_pos ⟨hread, hne⟩, honce]
  exact fun h => h.1 h.2

end Decision

/-- In every state and for every certificate with signers, a block reaches the application only on the weight of
distinct seats exactly if the certificate is weighed. A certificate the engine encoded reaches it exactly if
the engine's scheme finds the weight. -/
theorem weighted_quorum_at_commit_iff {σ : Type} (app : EngineApp σ) (n : Node σ) (now : Int) (epoch : UInt64)
    (digest payload cert : Bytes) (remote : Bool) {q : StoreQuery} {e : UInt64}
    (hw : n.participantsAndWeights epoch = bondedParticipantsWeights q e)
    (hlen : (n.participantsAndWeights epoch).2.length < 2 ^ 32) (hsig : (parseLeanCert cert).1.signers ≠ []) :
    (((∃ req, req ∈ requests (n.finalizeWith app now epoch digest payload cert remote).2) →
        Quorum (distinctWeight (parseLeanCert cert).1 (n.participantsAndWeights epoch).2)
          (committeeWeight (n.participantsAndWeights epoch).2)) ↔
      (n.Admits epoch payload cert remote → Weighed cert (n.participantsAndWeights epoch).2)) ∧
    ∀ (cw : Commonware) (f : Finalization) (participants : List Bytes) (s : WeightedScheme), cert = cw.encodeLcert f →
      participants.length = (n.participantsAndWeights epoch).2.length →
      WeightedScheme.wrap participants (n.participantsAndWeights epoch).2 = .ok s → n.Admits epoch payload cert remote →
      ((∃ req, req ∈ requests (n.finalizeWith app now epoch digest payload cert remote).2) ↔
        s.certificateMeetsWeight f.certificate = true) := by
  have hsized : Sized (n.participantsAndWeights epoch).2 := by
    rw [hw] at hlen ⊢
    exact sized_of_query hlen
  constructor
  · rw [reaches_iff, underweight_iff hsized hsig]
    unfold Weighed
    by_cases hchecked : (parseLeanCert cert).2 = none ∧ (n.participantsAndWeights epoch).2 ≠ []
    · rw [if_pos hchecked]
      constructor
      · rintro h hadmits ⟨hno, hlisted⟩
        exact hno (h ⟨hadmits, fun _ => hlisted⟩)
      · rintro h ⟨hadmits, hlisted⟩
        by_contra hno
        exact h hadmits ⟨hno, hlisted hchecked⟩
    · rw [if_neg hchecked]
      constructor
      · intro h hadmits
        exact h ⟨hadmits, fun hc => absurd hc hchecked⟩
      · rintro h ⟨hadmits, -⟩
        exact h hadmits
  · rintro cw f participants s rfl hn hs hadmits
    obtain ⟨raw, hparse⟩ := parse_encoded cw f hsig
    obtain ⟨hne, rfl⟩ := WeightedScheme.of_wrap hs hn
    have hfew := (header_of_signers hsig).1.few
    rw [reaches_iff, underweight_iff hsized hsig]
    rw [hparse] at hfew ⊢
    rw [certificateMeetsWeight_iff hsized hfew hne]
    constructor
    · rintro ⟨-, hquorum⟩
      exact hquorum ⟨rfl, hne⟩
    · intro hquorum
      exact ⟨hadmits, fun _ => hquorum⟩

/-- A finalization of the empty block by the first three of four seats. -/
def quadFinalization : Finalization :=
  ⟨⟨0, 1, 0, sha256 emptyBlock, sha256_length _⟩, ⟨⟨[true, true, true, false], by decide⟩,
    List.replicate 3 (some (List.replicate 64 0x51))⟩⟩

def flatEncode (f : Finalization) : Bytes :=
  putU64 f.proposal.epoch ++ putU64 f.proposal.view ++ putU64 f.proposal.parent ++ f.proposal.payload ++
    f.certificate.signers.bits.map (fun b => if b then 1 else 0) ++ f.certificate.signatures.flatMap (·.getD [])

def sortedKeys (keys : List Bytes) : Option (List Bytes) :=
  if keys.Nodup then some (keys.insertionSort (· ≤ ·)) else none

/-- A library in which this is the one finalization that was ever signed. -/
def quadCommonware : Commonware where
  encode := flatEncode
  decode n b := if n = 4 ∧ b = flatEncode quadFinalization then some quadFinalization else none
  validKey _ := true
  orderedSet := sortedKeys
  verifyCertificate _ f := f == quadFinalization

def quadWeights : List UInt64 := ((quadNode [1]).participantsAndWeights 0).2

/-- The blocks that the quad node hands over for a certificate of the empty block. -/
def quadReached (cert : Bytes) : List RequestFinalizeBlock :=
  requests ((quadNode [1]).finalizeWith (idleApp Store) 100 0 (sha256 emptyBlock) emptyBlock cert false).2

private theorem quad_emitted :
    (quadNode [1]).participantsAndWeights 0 = bondedParticipantsWeights (subspaceQuery quadStore) 0 ∧
    (parseLeanCert (quadCommonware.encodeLcert quadFinalization)).1.signers ≠ [] ∧
    quadWeights = [10, 10, 10, 10] ∧ quadReached (quadCommonware.encodeLcert quadFinalization) ≠ [] := by
  decide +kernel

private theorem quad_weighed : Weighed (quadCommonware.encodeLcert quadFinalization) quadWeights := by
  have hne : quadWeights ≠ [] := by
    rw [quad_emitted.2.2.1]
    exact List.cons_ne_nil _ _
  exact weighed_of_encoded quadCommonware quadFinalization quad_emitted.2.1 hne

/-- The certificate that the engine encodes for three of four seats has the quorum for the driver and for the engine. -/
theorem three_of_four_seats_reach :
    (∃ req, req ∈ quadReached (quadCommonware.encodeLcert quadFinalization)) ∧
    Quorum (distinctWeight (parseLeanCert (quadCommonware.encodeLcert quadFinalization)).1 quadWeights)
      (committeeWeight quadWeights) ∧
    WeightedScheme.certificateMeetsWeight ⟨[[1], [2], [3], [4]], quadWeights, 40⟩ quadFinalization.certificate =
        true := by
  obtain ⟨hquery, hsig, hweights, hreached⟩ := quad_emitted
  have hlen : quadWeights.length < 2 ^ 32 := by
    rw [hweights]
    decide
  have hreq := List.exists_mem_of_ne_nil _ hreached
  have hadmits := (reaches_iff.mp hreq).1
  obtain ⟨hquorum, hengine⟩ := weighted_quorum_at_commit_iff (idleApp Store) (quadNode [1]) 100 0 (sha256 emptyBlock)
    emptyBlock (quadCommonware.encodeLcert quadFinalization) false hquery hlen hsig
  refine ⟨hreq, hquorum.mpr (fun _ => quad_weighed) hreq, ?_⟩
  refine (hengine quadCommonware quadFinalization [[1], [2], [3], [4]] _ rfl ?_ ?_ hadmits).mp hreq
  · exact (congrArg List.length hweights).symm
  · show WeightedScheme.wrap _ quadWeights = _
    rw [hweights]
    rfl

/-- A seat listed three times passes for three seats, and a certificate cut short is not weighed at all. -/
theorem repeated_seat_reaches :
    (quadReached (quadCert [0, 0, 0]) ≠ [] ∧
      ¬ Quorum (distinctWeight (parseLeanCert (quadCert [0, 0, 0])).1 quadWeights) (committeeWeight quadWeights)) ∧
    (quadReached ((quadCert [0]).dropLast ++ [1]) ≠ [] ∧
      (parseLeanCert ((quadCert [0]).dropLast ++ [1])).1.signers ≠ [] ∧
      ¬ Quorum (distinctWeight (parseLeanCert ((quadCert [0]).dropLast ++ [1])).1 quadWeights)
        (committeeWeight quadWeights)) := by
  decide +kernel

end Terpz.Leanval.Cwffi
