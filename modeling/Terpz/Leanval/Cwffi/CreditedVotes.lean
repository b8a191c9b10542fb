import Terpz.Leanval.Cwffi.WeightedQuorum

/-! The votes credited on catch-up. The engine verifies the finalization at the end of an LCERT and skips the header
before it; the driver credits what the header says. -/
namespace Terpz.Leanval.Cwffi
open Lib Lib.BigEndian Ffi

/-- A certificate as the driver reads it names the round, the digest and the signers of a finalization. -/
structure SameVotes (c : LeanCert) (f : Finalization) : Prop where
  epoch : c.epoch = f.proposal.epoch
  view : c.view = f.proposal.view
  digest : c.digest = f.proposal.payload
  signers : c.signers.map (·.index) = f.certificate.signers.iter

/-- The bytes start with the header that the encoder writes for a finalization of at most 4096 signers, whatever
stands in the signature slots and after the header. -/
def HeaderOf (f : Finalization) (b : Bytes) : Prop :=
  ∃ signers rest, signers.map (·.index) = f.certificate.signers.iter ∧ signers.length ≤ 4096 ∧
    (∀ s ∈ signers, s.signature.length = 64) ∧ 4 ≤ rest.length ∧
    b = lcertHeader ⟨f.proposal.epoch, f.proposal.view, f.proposal.payload, signers, []⟩ ++ rest

section Verified
variable {cw : Commonware} {s : WeightedScheme} {f : Finalization} {raw tail : Bytes}

theorem verifyFinalizationBytes_decoded (h : cw.decode s.participants.length raw = some f) :
    cw.verifyFinalizationBytes s raw = if cw.verify s f then some f else none := by
  rw [Commonware.verifyFinalizationBytes, h]

theorem verifyFinalizationBytes_wrapped (h : cw.decode s.participants.length raw = none)
    (ht : Commonware.lcertTail raw = some tail) :
    cw.verifyFinalizationBytes s raw = cw.verifyFinalizationBytes s tail := by
  rw [Commonware.verifyFinalizationBytes, h]
  simp only
  split
  · rename_i tail' ht'
    rw [ht] at ht'
    rw [Option.some.inj ht']
  · rename_i hnone
    rw [ht] at hnone
    cases hnone

/-- However many headers are skipped, the finalization returned was verified. -/
theorem verify_of_verifyFinalizationBytes (h : cw.verifyFinalizationBytes s raw = some f) : cw.verify s f = true := by
  fun_induction Commonware.verifyFinalizationBytes cw s raw with
  | case1 raw f' hdecode hverify =>
    obtain rfl := Option.some.inj h
    exact hverify
  | case2 => cases h
  | case3 raw hdecode tail htail ih => exact ih h
  | case4 => cases h

theorem signers_of_verify (h : cw.verify s f = true) : f.certificate.signers.iter ≠ [] := by
  intro hnil
  obtain ⟨hweight, -⟩ := Bool.and_eq_true_iff.mp h
  rw [WeightedScheme.certificateMeetsWeight, hnil] at hweight
  obtain ⟨-, hmore⟩ := Bool.and_eq_true_iff.mp hweight
  have hzero : Ffi.saturatingMul (s.signedWeight []) 3 = 0 := rfl
  rw [hzero, decide_eq_true_eq] at hmore
  exact absurd (UInt64.lt_iff_toNat_lt.mp hmore) (Nat.not_lt_zero _)

theorem signers_of_accepted {pks b : Bytes} {weights : List UInt64}
    (h : cw.acceptedFinalization pks weights b = some f) :
    f.certificate.signers.iter ≠ [] := by
  unfold Commonware.acceptedFinalization at h
  split at h
  · cases h
  · obtain ⟨keys, -, h⟩ := Option.bind_eq_some_iff.mp h
    obtain ⟨scheme, -, h⟩ := Option.bind_eq_some_iff.mp h
    exact signers_of_verify (verify_of_verifyFinalizationBytes h)

end Verified

/-- For every byte string that the engine accepts, the driver credits the finalization that was verified exactly if the
string starts with the header of that finalization. -/
theorem credited_votes_verified_iff (cw : Commonware) (pks : Bytes) (weights : List UInt64) (b : Bytes)
    (f : Finalization) (h : cw.acceptedFinalization pks weights b = some f) :
    SameVotes (parseLeanCert b).1 f ↔ HeaderOf f b := by
  constructor
  · intro hsame
    have hsig : (parseLeanCert b).1.signers ≠ [] := by
      intro hnil
      have hsigners := hsame.signers
      rw [hnil] at hsigners
      exact signers_of_accepted h hsigners.symm
    obtain ⟨hframed, rest, hrest, hb⟩ := header_of_signers hsig
    refine ⟨(parseLeanCert b).1.signers, rest, hsame.signers, hframed.few, hframed.signatures, hrest, ?_⟩
    rw [← hsame.epoch, ← hsame.view, ← hsame.digest]
    exact hb
  · rintro ⟨signers, rest, hindex, hfew, hsignatures, hrest, rfl⟩
    have hparse := parse_header (c := ⟨f.proposal.epoch, f.proposal.view, f.proposal.payload, signers, []⟩)
      ⟨f.proposal.payload_length, hfew, hsignatures⟩ hrest
    rw [hparse]
    split <;> exact ⟨rfl, rfl, rfl, hindex⟩

/-- What the encoder emits for a finalization of at most 4096 signers starts with its header. -/
theorem headerOf_encodeLcert (cw : Commonware) {f : Finalization} (h : f.certificate.signers.iter.length ≤ 4096) :
    HeaderOf f (cw.encodeLcert f) := by
  have hframed := f.leanCert_framed h (cw.encode f)
  refine ⟨f.certSigners, beBytes 4 (cw.encode f).length ++ cw.encode f, f.certSigners_index, hframed.few,
    hframed.signatures, ?_, encodeLcert_eq _⟩
  rw [List.length_append, beBytes_length]
  omega

def quadPks : Bytes := ((quadNode [1]).participantsAndWeights 0).1

def quadScheme : WeightedScheme :=
  ⟨(List.range 4).map (fun i => (quadPks.drop (i * 32)).take 32), quadWeights, 40⟩

/-- Another header before the one signed finalization: seat 3 in the place of seat 0, in another round. -/
def forgedCert : Bytes :=
  lcertHeader ⟨9, 9, List.replicate 32 0, [1, 2, 3].map (fun i => ⟨i, List.replicate 64 0x66⟩), []⟩ ++
    (beBytes 4 (flatEncode quadFinalization).length ++ flatEncode quadFinalization)

private theorem quad_verifier :
    (Commonware.parseParticipants quadPks).bind (fun keys => quadCommonware.verifier keys
      (if quadWeights.length = 0 then List.replicate keys.length 1 else quadWeights)) = some quadScheme ∧
    quadPks.length ≠ 0 ∧ quadCommonware.verify quadScheme quadFinalization = true ∧
    quadCommonware.decode quadScheme.participants.length (flatEncode quadFinalization) = some quadFinalization := by
  decide +kernel

/-- Any wrapper around the one finalization is accepted for it. -/
private theorem accepted_of_wrapper {b : Bytes} (hb : b.length ≠ 0)
    (hdecode : quadCommonware.decode quadScheme.participants.length b = none)
    (htail : Commonware.lcertTail b = some (flatEncode quadFinalization)) :
    quadCommonware.acceptedFinalization quadPks quadWeights b = some quadFinalization := by
  obtain ⟨hscheme, hpks, hverify, hfinal⟩ := quad_verifier
  obtain ⟨keys, hkeys, hscheme⟩ := Option.bind_eq_some_iff.mp hscheme
  rw [Commonware.acceptedFinalization, if_neg (by simp [hpks, hb]), hkeys, Option.bind_some, hscheme, Option.bind_some,
    verifyFinalizationBytes_wrapped hdecode htail, verifyFinalizationBytes_decoded hfinal, if_pos hverify]

private theorem quad_wrappers :
    (quadCommonware.encodeLcert quadFinalization).length ≠ 0 ∧
    quadCommonware.decode quadScheme.participants.length (quadCommonware.encodeLcert quadFinalization) = none ∧
    Commonware.lcertTail (quadCommonware.encodeLcert quadFinalization) = some (flatEncode quadFinalization) ∧
    forgedCert.length ≠ 0 ∧ quadCommonware.decode quadScheme.participants.length forgedCert = none ∧
    Commonware.lcertTail forgedCert = some (flatEncode quadFinalization) := by
  decide +kernel

/-- The encoder's own bytes are accepted, and credited as they were signed. -/
theorem emitted_votes_credited :
    quadCommonware.verifyFinalization quadPks quadWeights (quadCommonware.encodeLcert quadFinalization) = true ∧
    SameVotes (parseLeanCert (quadCommonware.encodeLcert quadFinalization)).1 quadFinalization := by
  obtain ⟨hne, hdecode, htail, -⟩ := quad_wrappers
  have haccepted := accepted_of_wrapper hne hdecode htail
  refine ⟨?_, (credited_votes_verified_iff quadCommonware quadPks quadWeights _ quadFinalization haccepted).mpr ?_⟩
  · rw [Commonware.verifyFinalization, haccepted]
    rfl
  · exact headerOf_encodeLcert quadCommonware (by decide)

/-- The engine accepts the forged header for the finalization of seats 0, 1 and 2; the driver credits seats 1, 2
and 3. -/
theorem forged_header_credited :
    quadCommonware.acceptedFinalization quadPks quadWeights forgedCert = some quadFinalization ∧
    quadFinalization.certificate.signers.iter = [0, 1, 2] ∧
    (parseLeanCert forgedCert).2 = none ∧ (parseLeanCert forgedCert).1.epoch = 9 ∧
    (parseLeanCert forgedCert).1.signers.map (·.index) = [1, 2, 3] ∧
    (lastCommitFromCert (parseLeanCert forgedCert).1 quadPks quadWeights).votes =
        [1, 2, 3].map (seatVote quadPks quadWeights) ∧
    ¬ SameVotes (parseLeanCert forgedCert).1 quadFinalization := by
  obtain ⟨-, -, -, hne, hdecode, htail⟩ := quad_wrappers
  refine ⟨accepted_of_wrapper hne hdecode htail, by decide, by decide +kernel, by decide +kernel, by decide +kernel,
    by decide +kernel, fun h => absurd h.epoch (by decide +kernel)⟩

end Terpz.Leanval.Cwffi
