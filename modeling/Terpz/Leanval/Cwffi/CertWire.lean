import Terpz.Leanval.Cwffi.Cert

/-! Reading an LCERT back: the parser on bytes laid out as the encoder lays them out, and the layout of all bytes in
which the parser finds signers. -/
namespace Terpz.Leanval.Cwffi
open Lib Lib.BigEndian

def signerSlot (s : CertSigner) : Bytes := putU32 s.index ++ Keeper.padTo 64 s.signature

/-- The wire before the length of the raw finalization. -/
def lcertHeader (c : LeanCert) : Bytes :=
  lcertMagic ++ lcertVersion ::
    (putU64 c.epoch ++ putU64 c.view ++ c.digest ++ beBytes 4 c.signers.length ++ c.signers.flatMap signerSlot)

theorem encodeLcert_eq (c : LeanCert) : encodeLcert c = lcertHeader c ++ (beBytes 4 c.raw.length ++ c.raw) := by
  simp only [encodeLcert, lcertHeader, List.append_assoc, List.cons_append]
  rfl

/-- Sizes as the wire has them. -/
structure LeanCert.Framed (c : LeanCert) : Prop where
  digest : c.digest.length = 32
  few : c.signers.length ≤ 4096
  signatures : ∀ s ∈ c.signers, s.signature.length = 64

section Slots

theorem signerSlot_length (s : CertSigner) : (signerSlot s).length = 68 := by
  rw [signerSlot, List.length_append, putU32_length, Keeper.padTo_length]

theorem slots_length (ss : List CertSigner) : (ss.flatMap signerSlot).length = ss.length * 68 := by
  induction ss with
  | nil => rfl
  | cons s ss ih => rw [List.flatMap_cons, List.length_append, signerSlot_length, ih, List.length_cons]; omega

theorem certSigners_length (n : Nat) (b : Bytes) : (certSigners n b).length = n := by
  induction n generalizing b with
  | zero => rfl
  | succ n ih => rw [certSigners, List.length_cons, ih]

theorem certSigners_slots {ss : List CertSigner} (h : ∀ s ∈ ss, s.signature.length = 64) (rest : Bytes) :
    certSigners ss.length (ss.flatMap signerSlot ++ rest) = ss := by
  induction ss with
  | nil => rfl
  | cons s ss ih =>
    obtain ⟨hs, hss⟩ := List.forall_mem_cons.mp h
    have hbytes : (s :: ss).flatMap signerSlot ++ rest =
        putU32 s.index ++ (s.signature ++ (ss.flatMap signerSlot ++ rest)) := by
      rw [List.flatMap_cons, signerSlot, Keeper.padTo_of_length hs, List.append_assoc, List.append_assoc]
    have hdrop : ((s :: ss).flatMap signerSlot ++ rest).drop 68 = ss.flatMap signerSlot ++ rest := by
      rw [List.flatMap_cons, List.append_assoc, List.drop_left' (signerSlot_length s)]
    rw [List.length_cons, certSigners, hdrop, ih hss, hbytes, List.take_left' (putU32_length _),
      List.drop_left' (putU32_length _), List.take_left' hs, getU32_putU32]

theorem certSigners_signature {n : Nat} {b : Bytes} (h : n * 68 ≤ b.length) :
    ∀ s ∈ certSigners n b, s.signature.length = 64 := by
  induction n generalizing b with
  | zero => exact fun _ hs => absurd hs List.not_mem_nil
  | succ n ih =>
    refine List.forall_mem_cons.mpr ⟨?_, ih ?_⟩
    · rw [List.length_take, List.length_drop]
      omega
    · rw [List.length_drop]
      omega

/-- Writing the signers again reproduces their bytes. -/
theorem slots_certSigners {n : Nat} {b : Bytes} (h : n * 68 ≤ b.length) :
    (certSigners n b).flatMap signerSlot = b.take (n * 68) := by
  induction n generalizing b with
  | zero => rw [certSigners, List.flatMap_nil, Nat.zero_mul, List.take_zero]
  | succ n ih =>
    have hsig : ((b.drop 4).take 64).length = 64 := by
      rw [List.length_take, List.length_drop]
      omega
    have hindex : putU32 (getU32 (b.take 4)) = b.take 4 := by
      have hlen : (b.take 4).length = 4 := by
        rw [List.length_take]
        omega
      rw [putU32_getU32 hlen.ge, List.take_take]
      rfl
    rw [certSigners, List.flatMap_cons, ih (by rw [List.length_drop]; omega), signerSlot, hindex,
      Keeper.padTo_of_length hsig, show (n + 1) * 68 = 4 + (64 + n * 68) by omega, List.take_add, List.take_add,
      List.drop_drop, List.append_assoc]

end Slots

theorem drop_lcertHeader {c : LeanCert} (h : c.digest.length = 32) (rest : Bytes) :
    (lcertHeader c ++ rest).drop 54 = beBytes 4 c.signers.length ++ (c.signers.flatMap signerSlot ++ rest) := by
  have hb : lcertHeader c ++ rest = (lcertMagic ++ lcertVersion :: (putU64 c.epoch ++ (putU64 c.view ++ c.digest))) ++
      (beBytes 4 c.signers.length ++ (c.signers.flatMap signerSlot ++ rest)) := by
    simp only [lcertHeader, List.append_assoc, List.cons_append]
  rw [hb, List.drop_left']
  simp [lcertMagic, h]

/-- The parser on the encoder's header: its fields come back, and the raw finalization is read if it is all there. -/
theorem parse_header {c : LeanCert} (h : c.Framed) {rest : Bytes} (hr : 4 ≤ rest.length) :
    parseLeanCert (lcertHeader c ++ rest) =
      if 4 + beNat (rest.take 4) > rest.length then
        ({ c with raw := [] }, some "lean-cw: truncated raw finalization")
      else ({ c with raw := (rest.drop 4).take (beNat (rest.take 4)) }, none) := by
  have hb : lcertHeader c ++ rest = lcertMagic ++ lcertVersion :: (putU64 c.epoch ++ (putU64 c.view ++ (c.digest ++
      (beBytes 4 c.signers.length ++ (c.signers.flatMap signerSlot ++ rest))))) := by
    simp only [lcertHeader, List.append_assoc, List.cons_append]
  have hlen : (lcertHeader c ++ rest).length = 58 + c.signers.length * 68 + rest.length := by
    simp only [hb, List.length_append, List.length_cons, putU64_length, h.digest, beBytes_length, slots_length,
      show lcertMagic.length = 5 from rfl]
    omega
  have h54 : (lcertHeader c ++ rest).drop 54 = beBytes 4 c.signers.length ++ (c.signers.flatMap signerSlot ++ rest) :=
    drop_lcertHeader h.digest rest
  have h6 : (lcertHeader c ++ rest).drop 6 = putU64 c.epoch ++ (putU64 c.view ++ (c.digest ++
      (beBytes 4 c.signers.length ++ (c.signers.flatMap signerSlot ++ rest)))) := by
    rw [hb]
    rfl
  have h14 : (lcertHeader c ++ rest).drop 14 = putU64 c.view ++ (c.digest ++
      (beBytes 4 c.signers.length ++ (c.signers.flatMap signerSlot ++ rest))) := by
    rw [show (14 : Nat) = 6 + 8 from rfl, ← List.drop_drop, h6, List.drop_left' (putU64_length _)]
  have h22 : (lcertHeader c ++ rest).drop 22 = c.digest ++
      (beBytes 4 c.signers.length ++ (c.signers.flatMap signerSlot ++ rest)) := by
    rw [show (22 : Nat) = 14 + 8 from rfl, ← List.drop_drop, h14, List.drop_left' (putU64_length _)]
  have h58 : (lcertHeader c ++ rest).drop 58 = c.signers.flatMap signerSlot ++ rest := by
    rw [show (58 : Nat) = 54 + 4 from rfl, ← List.drop_drop, h54, List.drop_left' (beBytes_length _ _)]
  have hcount : beNat (((lcertHeader c ++ rest).drop 54).take 4) = c.signers.length := by
    rw [h54, List.take_left' (beBytes_length _ _), beNat_beBytes, Nat.mod_eq_of_lt]
    exact lt_of_le_of_lt h.few (by decide)
  have hraw : (lcertHeader c ++ rest).drop (58 + c.signers.length * 68) = rest := by
    rw [← List.drop_drop, h58, List.drop_left' (slots_length _)]
  have hmagic : (lcertHeader c ++ rest).take 5 = lcertMagic := by
    rw [hb]
    rfl
  have hversion : (lcertHeader c ++ rest).getD 5 0 = lcertVersion := by
    rw [hb]
    rfl
  have hfew := h.few
  unfold parseLeanCert
  rw [if_neg (by omega), if_neg (not_not.mpr hmagic), if_neg (not_not.mpr hversion)]
  simp only [hcount, hlen, h6, h14, h22, h58, hraw, getU64_putU64_append, List.take_left' h.digest,
    certSigners_slots h.signatures]
  rw [if_neg (by omega), if_neg (by omega)]
  by_cases hshort : 4 + beNat (rest.take 4) > rest.length
  · rw [if_pos hshort, if_pos (by omega)]
  · rw [if_neg hshort, if_neg (by omega), ← List.drop_drop, hraw]

/-- What the encoder wrote comes back, with the raw finalization cut to the length that fits its field. -/
theorem parse_encodeLcert {c : LeanCert} (h : c.Framed) :
    parseLeanCert (encodeLcert c) = ({ c with raw := c.raw.take (c.raw.length % 256 ^ 4) }, none) := by
  have hle : c.raw.length % 256 ^ 4 ≤ c.raw.length := Nat.mod_le _ _
  rw [encodeLcert_eq, parse_header h (by simp)]
  simp only [List.take_left' (beBytes_length _ _), List.drop_left' (beBytes_length _ _), beNat_beBytes,
    List.length_append, beBytes_length]
  rw [if_neg (by omega)]

/-- What the parser has passed when it returns a signer, and what it returns. -/
private theorem parse_of_signers {b : Bytes} (h : (parseLeanCert b).1.signers ≠ []) :
    b.take 5 = lcertMagic ∧ b.getD 5 0 = lcertVersion ∧ beNat ((b.drop 54).take 4) ≤ 4096 ∧
    58 + beNat ((b.drop 54).take 4) * 68 + 4 ≤ b.length ∧
    ∃ raw, (parseLeanCert b).1 = ⟨getU64 (b.drop 6), getU64 (b.drop 14), (b.drop 22).take 32,
      certSigners (beNat ((b.drop 54).take 4)) (b.drop 58), raw⟩ := by
  unfold parseLeanCert at h ⊢
  by_cases hlen : b.length < 5 + 1 + 8 + 8 + 32 + 4
  · rw [if_pos hlen] at h
    exact absurd rfl h
  rw [if_neg hlen] at h ⊢
  by_cases hmagic : b.take 5 ≠ lcertMagic
  · rw [if_pos hmagic] at h
    exact absurd rfl h
  rw [if_neg hmagic] at h ⊢
  by_cases hversion : b.getD 5 0 ≠ lcertVersion
  · rw [if_pos hversion] at h
    exact absurd rfl h
  rw [if_neg hversion] at h ⊢
  dsimp only at h ⊢
  by_cases hfew : beNat ((b.drop 54).take 4) > 4096
  · rw [if_pos hfew] at h
    exact absurd rfl h
  rw [if_neg hfew] at h ⊢
  by_cases hslots : b.length < 58 + beNat ((b.drop 54).take 4) * (4 + 64) + 4
  · rw [if_pos hslots] at h
    exact absurd rfl h
  rw [if_neg hslots]
  refine ⟨not_not.mp hmagic, not_not.mp hversion, not_lt.mp hfew, not_lt.mp hslots, ?_⟩
  split
  · exact ⟨[], rfl⟩
  · exact ⟨_, rfl⟩

/-- Bytes in which the parser finds a signer start with the header of what it returns. -/
theorem header_of_signers {b : Bytes} (h : (parseLeanCert b).1.signers ≠ []) :
    (parseLeanCert b).1.Framed ∧ ∃ rest, 4 ≤ rest.length ∧ b = lcertHeader (parseLeanCert b).1 ++ rest := by
  obtain ⟨hmagic, hversion, hfew, hlen, raw, hc⟩ := parse_of_signers h
  rw [hc]
  generalize hn : beNat ((b.drop 54).take 4) = n at hfew hlen
  have hslots : n * 68 ≤ (b.drop 58).length := by
    rw [List.length_drop]
    omega
  refine ⟨⟨?_, ?_, certSigners_signature hslots⟩, b.drop (58 + n * 68), ?_, ?_⟩
  · rw [List.length_take, List.length_drop]
    omega
  · rw [certSigners_length]
    exact hfew
  · rw [List.length_drop]
    omega
  · have hcount : beBytes 4 n = (b.drop 54).take 4 := by
      rw [← hn]
      exact beBytes_beNat_of_length (by rw [List.length_take, List.length_drop]; omega)
    have h5 : b.drop 5 = lcertVersion :: b.drop 6 := by
      have hlt : 5 < b.length := by omega
      rw [List.drop_eq_getElem_cons hlt, ← hversion, List.getD_eq_getElem?_getD, List.getElem?_eq_getElem hlt]
      rfl
    -- the bytes are cut where the fields are, and each cut is what its field writes
    calc b = b.take 5 ++ b.drop 5 := (List.take_append_drop 5 b).symm
      _ = lcertMagic ++ lcertVersion :: (b.drop 6).take (8 + (8 + (32 + (4 + n * 68)))) ++ b.drop (58 + n * 68) := by
        rw [hmagic, h5, List.append_assoc, List.cons_append,
          show 58 + n * 68 = 6 + (8 + (8 + (32 + (4 + n * 68)))) by omega,
          ← List.drop_drop, List.take_append_drop]
      _ = _ := by
        rw [List.take_add, List.take_add, List.take_add, List.take_add]
        simp only [List.drop_drop, lcertHeader, certSigners_length, slots_certSigners hslots, hcount, List.append_assoc]
        rw [putU64_getU64 (by rw [List.length_drop]; omega), putU64_getU64 (by rw [List.length_drop]; omega)]

/-- The parser finds signers in an encoded certificate only when there are at most 4096. -/
theorem few_of_encoded_signers {c : LeanCert} (hd : c.digest.length = 32) (hle : c.signers.length ≤ 256 ^ 4)
    (h : (parseLeanCert (encodeLcert c)).1.signers ≠ []) : c.signers.length ≤ 4096 := by
  have hcount : beNat (((encodeLcert c).drop 54).take 4) = c.signers.length % 256 ^ 4 := by
    rw [encodeLcert_eq, drop_lcertHeader hd, List.take_left' (beBytes_length _ _), beNat_beBytes]
  obtain ⟨-, -, hfew, -, raw, hc⟩ := parse_of_signers h
  rw [hcount] at hfew hc
  rcases hle.lt_or_eq with hlt | heq
  · rwa [Nat.mod_eq_of_lt hlt] at hfew
  · rw [hc, heq, Nat.mod_self] at h
    exact absurd rfl h

end Terpz.Leanval.Cwffi
