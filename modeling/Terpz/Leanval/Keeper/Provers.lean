import Terpz.Leanval.ObjectRoots

/-! Complete external provers: what a proposer may expect of the fold and valset programs, and a
host whose programs meet it. -/
namespace Terpz.Leanval.Keeper
open Lib

/-- The fold program's proof for these roots verifies for them and for no others. -/
structure FoldComplete (h : Host) (roots proof : Bytes) : Prop where
  proved : proveSameStatementFold h (foldPairStrings roots) = .ok proof
  small : proof.length ≤ maxProofBytes
  verifies : ∀ roots', verifySameStatementFold h proof (foldPairStrings roots') = .ok () ↔
    padRoots roots' = padRoots roots

/-- The valset program's proof verifies for the inputs it was made for, and is not taken for an
aggregate. -/
structure ValsetComplete (h : Host) (period index : UInt64) (eb : UInt8) (proof : Bytes) : Prop where
  proved : proveValsetStwo h period index eb = .ok proof
  small : proof.length ≤ maxProofBytes
  notFold : isFoldProof proof = false
  verifies : verifyValsetStwo h proof period index eb = .ok ()

section Accepted
variable {h : Host}

theorem FoldComplete.accepted {roots proof : Bytes} (hf : FoldComplete h roots proof) :
    isFoldProof proof = true ∧ containsBytes proof dummyMagic = false := by
  have hv := (hf.verifies roots).mpr rfl
  unfold verifySameStatementFold at hv
  obtain ⟨hdummy, hv⟩ := failIf_bind_eq_ok.mp hv
  obtain ⟨_, hv⟩ := failIf_bind_eq_ok.mp hv
  obtain ⟨hmagic, hv⟩ := failIf_bind_eq_ok.mp hv
  obtain ⟨_, hv⟩ := failIf_bind_eq_ok.mp hv
  obtain ⟨hkind, _⟩ := failIf_bind_eq_ok.mp hv
  rw [not_or, not_lt, not_not] at hmagic
  rw [not_not] at hkind
  exact ⟨by simp [isFoldProof, hmagic, hkind], by simpa using hdummy⟩

theorem ValsetComplete.accepted {period index : UInt64} {eb : UInt8} {proof : Bytes}
    (hv : ValsetComplete h period index eb proof) :
    hasStwoMagic proof = true ∧ containsBytes proof dummyMagic = false := by
  have hok := hv.verifies
  unfold verifyValsetStwo at hok
  obtain ⟨hmagic, hok⟩ := failIf_bind_eq_ok.mp hok
  obtain ⟨hdummy, _⟩ := failIf_bind_eq_ok.mp hok
  rw [not_or, not_lt, not_not] at hmagic
  exact ⟨by simp [hasStwoMagic, hmagic], by simpa using hdummy⟩

end Accepted

section Hex

private theorem fromHexChar_digitChar : ∀ n < 16, fromHexChar (Nat.digitChar n) = some (UInt8.ofNat n) := by
  decide +kernel

private theorem digitChar_ne_x : ∀ n < 16, Nat.digitChar n ≠ 'x' := by decide

private theorem nibbles (x : UInt8) :
    UInt8.ofNat (x.toNat / 16) <<< 4 ||| UInt8.ofNat (x.toNat % 16) = x := by
  have h : ∀ n < 256, UInt8.ofNat (n / 16) <<< 4 ||| UInt8.ofNat (n % 16) = UInt8.ofNat n := by
    decide +kernel
  rw [h x.toNat x.toNat_lt, UInt8.ofNat_toNat]

theorem hexDecode_hexEncode (b : Bytes) : hexDecode (hexEncode b) = some b := by
  induction b with
  | nil => rfl
  | cons x b ih =>
    have hx := x.toNat_lt
    have hhi := fromHexChar_digitChar (x.toNat / 16) (by omega)
    have hlo := fromHexChar_digitChar (x.toNat % 16) (by omega)
    change (do
      let hi ← fromHexChar (Nat.digitChar (x.toNat / 16))
      let lo ← fromHexChar (Nat.digitChar (x.toNat % 16))
      let tail ← hexDecode (hexEncode b)
      pure ((hi <<< 4 ||| lo) :: tail)) = some (x :: b)
    rw [hhi, hlo, ih]
    change some ((UInt8.ofNat (x.toNat / 16) <<< 4 ||| UInt8.ofNat (x.toNat % 16)) :: b) = some (x :: b)
    rw [nibbles]

theorem trimHexPrefix_hexEncode (b : Bytes) : trimHexPrefix (hexEncode b) = hexEncode b := by
  cases b with
  | nil => rfl
  | cons x b =>
    have hlo := digitChar_ne_x (x.toNat % 16) (by omega)
    change trimHexPrefix (Nat.digitChar (x.toNat / 16) :: Nat.digitChar (x.toNat % 16) :: hexEncode b) = _
    unfold trimHexPrefix
    split
    · rename_i heq
      exact absurd (List.cons.inj (List.cons.inj heq).2).1 hlo
    · rfl

theorem parseRootHex_hexEncode {b : Bytes} (hb : b.length = 32) : parseRootHex (hexEncode b) = b := by
  rw [parseRootHex, trimHexPrefix_hexEncode, hexDecode_hexEncode]
  exact if_pos hb

theorem isHexRoot_hexEncode {b : Bytes} (hb : b.length = 32) : isHexRoot (hexEncode b) = true := by
  have hlen (b : Bytes) : (hexEncode b).length = 2 * b.length := by
    simp [hexEncode, List.length_flatMap, mul_comm]
  rw [isHexRoot, trimHexPrefix_hexEncode, hexDecode_hexEncode, hlen, hb]
  rfl

end Hex

/-- A byte of 0 or 1 for each of 64 bits. -/
def bitBytes (n : Nat) : Bytes := (List.range 64).map (fun i => if n.testBit i then 1 else 0)

def honestValset (period index : UInt64) (eb : UInt8) : Bytes :=
  stwoMagic ++ (bitBytes period.toNat ++ bitBytes index.toNat ++ bitBytes eb.toNat)

def foldHeader : Bytes := stwoMagic ++ [2, 5] ++ foldKind

def honestFold (bits dep eb : Hex) : Bytes :=
  foldHeader ++ (parseRootHex bits ++ (parseRootHex dep ++ parseRootHex eb))

/-- A node with both programs, whose proofs say what they are for, and no Dummy proofs. -/
def honestHost : Host where
  allowDummy := false
  verifier := none
  sudoProofInstanceVerify := none
  verifyStwoInProcess _ _ := .error "leanval: wasmvm Stwo host not linked"
  foldBin := some {
    verify := fun bits dep eb proof => failIf (proof ≠ honestFold bits dep eb) "stwo verify"
    prove := fun bits dep eb => .ok (honestFold bits dep eb) }
  valsetAir := .ok {
    verify := fun period index eb proof => failIf (proof ≠ honestValset period index eb) "stwo verify"
    prove := fun period index eb => .ok (honestValset period index eb) }

section Valset

private theorem bitBytes_length (n : Nat) : (bitBytes n).length = 64 := by simp [bitBytes]

private theorem mem_honestValset {period index : UInt64} {eb x : UInt8} (hx : x ∈ honestValset period index eb) :
    x ∈ stwoMagic ∨ x = 0 ∨ x = 1 := by
  have hbits {n : Nat} (h : x ∈ bitBytes n) : x = 0 ∨ x = 1 := by
    obtain ⟨i, _, rfl⟩ := List.mem_map.mp h
    split
    · exact .inr rfl
    · exact .inl rfl
  simp only [honestValset, List.mem_append] at hx
  rcases hx with hx | (hx | hx) | hx
  · exact .inl hx
  all_goals exact .inr (hbits hx)

/-- Bytes without a D hold no Dummy proof. -/
private theorem not_containsBytes_dummy {b : Bytes} (hb : 0x44 ∉ b) : containsBytes b dummyMagic = false := by
  rw [containsBytes, List.any_eq_false]
  intro t ht hp
  have hsub : t <:+ b := (List.mem_tails t b).mp ht
  exact hb (hsub.subset ((List.isPrefixOf_iff_prefix.mp hp).subset List.mem_cons_self))

theorem honestHost_valset (period index : UInt64) (eb : UInt8) (hi : index < 2 ^ 40) :
    ValsetComplete honestHost period index eb (honestValset period index eb) := by
  have hlen : (honestValset period index eb).length = 196 := by simp [honestValset, bitBytes_length, stwoMagic]
  have htake : (honestValset period index eb).take 4 = stwoMagic := List.take_left' rfl
  have hdummy : containsBytes (honestValset period index eb) dummyMagic = false := by
    apply not_containsBytes_dummy
    intro hx
    rcases mem_honestValset hx with hx | hx | hx
    · exact absurd hx (by decide)
    all_goals cases hx
  have hbound : ¬ index ≥ 2 ^ 40 := UInt64.not_le.mpr hi
  have hmagic : ¬ ((honestValset period index eb).length < 4 ∨ (honestValset period index eb).take 4 ≠ stwoMagic) := by
    rw [hlen, htake]
    decide
  refine ⟨?_, ?_, ?_, ?_⟩
  · have hrun : proveValsetStwo honestHost period index eb = (do
        failIf (index ≥ 2 ^ 40) "leanval: valset AIR deposit index exceeds 5 bytes"
        failIf ((honestValset period index eb).length < 4 ∨ (honestValset period index eb).take 4 ≠ stwoMagic)
          "leanval: valset prove did not emit STWO proof"
        pure (honestValset period index eb)) := rfl
    rw [hrun, failIf_bind, if_neg hbound, failIf_bind, if_neg hmagic]
    rfl
  · rw [hlen]
    decide
  · -- the kind would have to read FOLD, and no byte behind the magic is an F
    by_contra hf
    simp only [isFoldProof, Bool.not_eq_false, Bool.and_eq_true, beq_iff_eq] at hf
    have hx : (0x46 : UInt8) ∈ slice (honestValset period index eb) 6 10 := by
      rw [hf.2]
      exact List.mem_cons_self
    rcases mem_honestValset (List.mem_of_mem_drop (List.mem_of_mem_take hx)) with hx | hx | hx
    · exact absurd hx (by decide)
    all_goals cases hx
  · unfold verifyValsetStwo
    rw [failIf_bind, if_neg hmagic, failIf_bind, if_neg (by rw [hdummy]; exact Bool.false_ne_true)]
    simp only [honestHost]
    rw [failIf_bind, if_neg hbound]
    have hself : failIf (honestValset period index eb ≠ honestValset period index eb) "stwo verify" = .ok () :=
      failIf_eq_ok.mpr (not_not.mpr rfl)
    refine bind_eq_ok.mpr ⟨_, rfl, ?_⟩
    simp only [hself]

end Valset

section Fold

/-- The pair strings are three hex roots, and together they are the padded roots. -/
private theorem foldPairStrings_eq (roots : Bytes) :
    ∃ a b c, foldPairStrings roots = [a, b, c] ∧ (isHexRoot a = true ∧ isHexRoot b = true ∧ isHexRoot c = true) ∧
      ((parseRootHex a).length = 32 ∧ (parseRootHex b).length = 32 ∧ (parseRootHex c).length = 32) ∧
      honestFold a b c = foldHeader ++ padRoots roots := by
  have hlen : (padRoots roots).length = 96 := padTo_length _ _
  have ha : ((padRoots roots).take 32).length = 32 := by simp [hlen]
  have hb : (slice (padRoots roots) 32 64).length = 32 := by simp [slice, hlen]
  have hc : (slice (padRoots roots) 64 96).length = 32 := by simp [slice, hlen]
  have htail : slice (padRoots roots) 64 96 = ((padRoots roots).drop 32).drop 32 := by
    rw [slice, List.drop_drop, List.take_of_length_le (by simp [hlen])]
  refine ⟨_, _, _, rfl, ⟨isHexRoot_hexEncode ha, isHexRoot_hexEncode hb, isHexRoot_hexEncode hc⟩, ?_, ?_⟩
  · rw [parseRootHex_hexEncode ha, parseRootHex_hexEncode hb, parseRootHex_hexEncode hc]
    exact ⟨ha, hb, hc⟩
  · rw [honestFold, parseRootHex_hexEncode ha, parseRootHex_hexEncode hb, parseRootHex_hexEncode hc, htail, slice,
      List.take_append_drop, List.take_append_drop]

/-- A proof that verifies was made for the roots it is shown. -/
private theorem honestHost_binds {proof roots : Bytes}
    (hv : verifySameStatementFold honestHost proof (foldPairStrings roots) = .ok ()) :
    proof = foldHeader ++ padRoots roots := by
  obtain ⟨a, b, c, hpairs, _, _, hfold⟩ := foldPairStrings_eq roots
  rw [hpairs] at hv
  unfold verifySameStatementFold at hv
  iterate 9 replace hv := (failIf_bind_eq_ok.mp hv).2
  by_contra hne
  rw [← hfold] at hne
  simp [honestHost, failIf, hne] at hv

/-- Every check of the header passes on a proof for the roots it is shown. -/
private theorem honestFold_verifies {a b c : Hex} (hhex : isHexRoot a = true)
    (hla : (parseRootHex a).length = 32) (hlb : (parseRootHex b).length = 32) (hlc : (parseRootHex c).length = 32)
    (hdummy : containsBytes (honestFold a b c) dummyMagic = false)
    (hcostume : containsBytes (honestFold a b c) costume = false) :
    verifySameStatementFold honestHost (honestFold a b c) [a, b, c] = .ok () := by
  have hdrop : (honestFold a b c).drop 10 = parseRootHex a ++ (parseRootHex b ++ parseRootHex c) := List.drop_left' rfl
  have hbits : slice (honestFold a b c) 10 42 = parseRootHex a := by
    rw [slice, hdrop]
    exact List.take_left' hla
  have hdep : slice (honestFold a b c) 42 74 = parseRootHex b := by
    rw [slice, show 42 = 10 + 32 from rfl, ← List.drop_drop, hdrop, List.drop_left' hla]
    exact List.take_left' hlb
  have heb : slice (honestFold a b c) 74 106 = parseRootHex c := by
    rw [slice, show 74 = 10 + 32 + 32 from rfl, ← List.drop_drop, ← List.drop_drop, hdrop, List.drop_left' hla,
      List.drop_left' hlb, List.take_of_length_le hlc.le]
  have hlen : (honestFold a b c).length = 106 := by
    simp [honestFold, foldHeader, stwoMagic, foldKind, hla, hlb, hlc]
  have hmagic : (honestFold a b c).take 4 = stwoMagic := rfl
  have hid : (honestFold a b c).getD 4 0 = 2 ∧ (honestFold a b c).getD 5 0 = 5 := ⟨rfl, rfl⟩
  have hkind : slice (honestFold a b c) 6 10 = foldKind := rfl
  unfold verifySameStatementFold
  simp only [failIf_bind_eq_ok, hmagic, hid, hkind, hbits, hdep, heb]
  refine ⟨by simp [hdummy], by simp [hcostume], by simp [hlen], by simp, by simp, by simp [hhex], by simp, by simp,
    by simp, ?_⟩
  simp [honestHost, failIf]

/-- Roots whose aggregate spells neither a Dummy proof nor the costume. -/
abbrev PlainRoots (roots : Bytes) : Prop :=
  containsBytes (foldHeader ++ padRoots roots) dummyMagic = false ∧
  containsBytes (foldHeader ++ padRoots roots) costume = false

/-- Plain roots are proved and verified. -/
theorem honestHost_fold {roots : Bytes} (hplain : PlainRoots roots) :
    FoldComplete honestHost roots (foldHeader ++ padRoots roots) := by
  obtain ⟨hdummy, hcostume⟩ := hplain
  have hlen : (foldHeader ++ padRoots roots).length = 106 := by
    rw [List.length_append, padRoots, padTo_length]
    rfl
  have hmagic : (foldHeader ++ padRoots roots).take 4 = stwoMagic := rfl
  obtain ⟨a, b, c, hpairs, ⟨ha, hb, hc⟩, ⟨hla, hlb, hlc⟩, hfold⟩ := foldPairStrings_eq roots
  refine ⟨?_, ?_, ?_⟩
  · rw [hpairs]
    rw [← hfold] at hdummy hlen hmagic ⊢
    simp [proveSameStatementFold, honestHost, failIf_bind, ha, hb, hc, hdummy, hlen, hmagic]
    rfl
  · rw [hlen]
    decide
  · intro roots'
    constructor
    · intro hv
      exact (List.append_cancel_left (honestHost_binds hv)).symm
    · intro heq
      rw [show foldPairStrings roots' = foldPairStrings roots by rw [foldPairStrings, heq, foldPairStrings], hpairs]
      rw [← hfold] at hdummy hcostume ⊢
      exact honestFold_verifies ha hla hlb hlc hdummy hcostume

end Fold

end Terpz.Leanval.Keeper
