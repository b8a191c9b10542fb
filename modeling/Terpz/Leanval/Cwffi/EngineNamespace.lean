import Terpz.Leanval.Cwffi.CreditedVotes
import Terpz.Lib.Text

/-! The namespaces of votes. The engine signs and verifies under the namespace it is started with; the verifier that
catch-up asks has one of its own. -/
namespace Terpz.Leanval.Ffi
open Lib Lib.BigEndian Cwffi

/-- Every signer has its signature, of 64 bytes. -/
def Certificate.Whole (c : Certificate) : Prop :=
  c.signatures.length = c.signers.iter.length ∧ ∀ s ∈ c.signatures, ∃ b, s = some b ∧ b.length = 64

/-- The certificate has a seat for each participant, signers on more than two thirds of them, and for each signer a
signature of 64 bytes that verifies with its key. -/
structure Finalization.SignedBy (f : Finalization) (verifyVote : Bytes → Proposal → Bytes → Bool)
    (participants : List Bytes) : Prop where
  seats : f.certificate.signers.bits.length = participants.length
  paired : f.certificate.signatures.length = f.certificate.signers.iter.length
  quorum : 0 < participants.length → 2 * participants.length < 3 * f.certificate.signers.iter.length
  votes : ∀ vote ∈ f.certificate.signers.iter.zip f.certificate.signatures, ∃ pk sig,
    participants[vote.1.toNat]? = some pk ∧ vote.2 = some sig ∧ sig.length = 64 ∧ verifyVote pk f.proposal sig = true

/-- The consensus library with the namespaces of its votes, and what is assumed of it. A certificate that verifies is
signed; a vote verifies under the namespace it was signed under and no other; a set keeps the keys it is made of; what
is encoded is decoded again, with 64 bytes for a signature and at most one signature a seat. -/
structure Simplex where
  encode : Finalization → Bytes
  decode : Nat → Bytes → Option Finalization
  validKey : Bytes → Bool
  orderedSet : List Bytes → Option (List Bytes)
  /-- Namespace, key, proposal and signature of a vote to finalize. -/
  verifyVote : Bytes → Bytes → Proposal → Bytes → Bool
  verifyCertificate : Bytes → List Bytes → Finalization → Bool
  orderedSet_length : ∀ keys validators, orderedSet keys = some validators → validators.length = keys.length
  one_namespace : ∀ ns ns' pk p sig, verifyVote ns pk p sig = true → verifyVote ns' pk p sig = true → ns = ns'
  signed : ∀ ns participants f, verifyCertificate ns participants f = true → f.SignedBy (verifyVote ns) participants
  decode_encode : ∀ f, f.certificate.Whole → decode f.certificate.signers.bits.length (encode f) = some f
  encode_length : ∀ f, f.certificate.Whole → 64 * f.certificate.signers.iter.length ≤ (encode f).length
  decode_length : ∀ n b f, decode n b = some f → b.length ≤ 65 * n + 128

def applicationNamespace : Bytes := text "_LEAN_CW_SIMPLEX"

def consensusNamespace (ns : Bytes) : Bytes := ns ++ text "_CONSENSUS"

/-- What the engine is started with; the key is the public key of the node. -/
structure StartCfg where
  publicKey : Bytes
  participants : List Bytes
  weights : List UInt64
  ns : Bytes
  deriving DecidableEq

/-- The participants the callback names, if it names any, and else the configured ones. -/
def StartCfg.runParticipants (cfg : StartCfg) (callback : Option Bytes) : List Bytes :=
  match callback.bind Commonware.parseParticipants with
  | some (p :: ps) => p :: ps
  | _ => cfg.participants

def StartCfg.engineNamespace (cfg : StartCfg) : Bytes := if cfg.ns = [] then applicationNamespace else cfg.ns

/-- What `startEpoch` starts the engine with: the driver's weights if they come with as many bytes of keys, and else one
vote a key. -/
def startConfig (publicKey pks : Bytes) (driver : Bytes × List UInt64) : Option StartCfg :=
  (Commonware.parseParticipants pks).map (fun participants =>
    ⟨publicKey, participants, if driver.1.length = pks.length then driver.2 else List.replicate (pks.length / 32) 1,
      text "lean-terpz"⟩)

namespace Simplex
variable (cw : Simplex)

/-- The library as it is used under one namespace. -/
def under (ns : Bytes) : Commonware := ⟨cw.encode, cw.decode, cw.validKey, cw.orderedSet, cw.verifyCertificate ns⟩

/-- The namespace and the scheme that an engine runs with. -/
def runBlocking (cfg : StartCfg) (callback : Option Bytes) : Option (Bytes × WeightedScheme) :=
  let raw := cfg.runParticipants callback
  if raw.all cw.validKey = true then
    (cw.orderedSet (if raw = [] then [cfg.publicKey] else raw)).bind (fun validators =>
      if cfg.publicKey ∈ validators then
        (WeightedScheme.wrap validators cfg.weights).toOption.map (fun s => (consensusNamespace cfg.engineNamespace, s))
      else none)
  else none

/-- `VerifyFinalization`, with the namespace of `verify_finalization_bytes`. -/
def verifyFinalization (pks : Bytes) (weights : List UInt64) (cert : Bytes) : Bool :=
  (cw.under (consensusNamespace applicationNamespace)).verifyFinalization pks weights cert

def encodeLcert (f : Finalization) : Bytes := (cw.under (consensusNamespace applicationNamespace)).encodeLcert f

/-- A finalization that an engine reports: a quorum of votes that verified under its namespace. -/
def Reports (running : Bytes × WeightedScheme) (f : Finalization) : Prop :=
  cw.verifyCertificate running.1 running.2.participants f = true

section Certificates
variable {cw} {ns ns' : Bytes} {participants : List Bytes} {f : Finalization}

theorem whole_of_verifyCertificate (h : cw.verifyCertificate ns participants f = true) : f.certificate.Whole := by
  have hsigned := cw.signed _ _ _ h
  refine ⟨hsigned.paired, fun s hs => ?_⟩
  have hsnd : (f.certificate.signers.iter.zip f.certificate.signatures).map Prod.snd = f.certificate.signatures :=
    List.map_snd_zip hsigned.paired.le
  rw [← hsnd] at hs
  obtain ⟨vote, hvote, rfl⟩ := List.mem_map.mp hs
  obtain ⟨-, sig, -, hsig, hlen, -⟩ := hsigned.votes vote hvote
  exact ⟨sig, hsig, hlen⟩

/-- A certificate of a committee verifies under one namespace. -/
theorem namespace_unique (hne : 0 < participants.length) (h : cw.verifyCertificate ns participants f = true)
    (h' : cw.verifyCertificate ns' participants f = true) : ns = ns' := by
  have hsigned := cw.signed _ _ _ h
  have hpos : 0 < (f.certificate.signers.iter.zip f.certificate.signatures).length := by
    have hquorum := hsigned.quorum hne
    rw [List.length_zip, hsigned.paired, min_self]
    omega
  obtain ⟨vote, hvote⟩ := List.exists_mem_of_length_pos hpos
  obtain ⟨pk, sig, hpk, hsig, -, hverify⟩ := hsigned.votes vote hvote
  obtain ⟨pk', sig', hpk', hsig', -, hverify'⟩ := (cw.signed _ _ _ h').votes vote hvote
  obtain rfl := Option.some.inj (hpk.symm.trans hpk')
  obtain rfl := Option.some.inj (hsig.symm.trans hsig')
  exact cw.one_namespace _ _ _ _ _ hverify hverify'

end Certificates

section Wrapper
variable {cw} {ns : Bytes} {participants : List Bytes} {f : Finalization}

theorem encodeLcert_length (cw : Simplex) (f : Finalization) :
    (cw.encodeLcert f).length = 62 + f.certificate.signers.iter.length * 68 + (cw.encode f).length := by
  change (Cwffi.encodeLcert (f.leanCert (cw.encode f))).length = _
  rw [encodeLcert_eq, lcertHeader]
  simp only [List.length_append, List.length_cons, putU64_length, beBytes_length, slots_length,
    show lcertMagic.length = 5 from rfl, Finalization.leanCert, f.certSigners_length, f.proposal.payload_length]
  omega

/-- An LCERT is too long for a finalization by the same committee. -/
theorem decode_lcert (hne : 0 < participants.length) (h : cw.verifyCertificate ns participants f = true) :
    cw.decode participants.length (cw.encodeLcert f) = none := by
  cases hdecode : cw.decode participants.length (cw.encodeLcert f) with
  | none => rfl
  | some g =>
    have hshort := cw.decode_length _ _ _ hdecode
    have hlong := cw.encode_length f (whole_of_verifyCertificate h)
    have hquorum := (cw.signed _ _ _ h).quorum hne
    rw [encodeLcert_length] at hshort
    omega

theorem lcertTail_encodeLcert (hcount : f.certificate.signers.iter.length < 2 ^ 32) (hraw : cw.encode f ≠ []) :
    Commonware.lcertTail (cw.encodeLcert f) = some (cw.encode f) := by
  have hlen := encodeLcert_length cw f
  have hpos := List.length_pos_iff.mpr hraw
  have heq : cw.encodeLcert f = lcertHeader (f.leanCert (cw.encode f)) ++
      (beBytes 4 (cw.encode f).length ++ cw.encode f) := encodeLcert_eq _
  have h54 : (cw.encodeLcert f).drop 54 = beBytes 4 f.certificate.signers.iter.length ++
      (f.certSigners.flatMap signerSlot ++ (beBytes 4 (cw.encode f).length ++ cw.encode f)) := by
    rw [heq, drop_lcertHeader f.proposal.payload_length, ← f.certSigners_length]
    rfl
  have hn : beNat (((cw.encodeLcert f).drop 54).take 4) = f.certificate.signers.iter.length := by
    rw [h54, List.take_left' (beBytes_length _ _), beNat_beBytes, Nat.mod_eq_of_lt]
    exact hcount.trans_eq (by decide)
  have hmagic : (cw.encodeLcert f).take 5 = lcertMagic := by
    rw [heq]
    rfl
  have hskip : (cw.encodeLcert f).drop (5 + 1 + 8 + 8 + 32 + 4 + f.certificate.signers.iter.length * (4 + 64) + 4) =
      cw.encode f := by
    rw [show 5 + 1 + 8 + 8 + 32 + 4 + f.certificate.signers.iter.length * (4 + 64) + 4 =
        54 + (4 + (f.certSigners.length * 68 + 4)) by rw [f.certSigners_length]; omega,
      ← List.drop_drop, h54, ← List.drop_drop, List.drop_left' (beBytes_length _ _), ← List.drop_drop,
      List.drop_left' (slots_length _), List.drop_left' (beBytes_length _ _)]
  rw [Commonware.lcertTail, if_pos ⟨by omega, hmagic⟩, hn, if_pos (by omega), hskip]

end Wrapper

section Scheme
variable {cw} {cfg : StartCfg} {callback : Option Bytes} {running : Bytes × WeightedScheme}

private theorem wrap_ones {vs : List Bytes} (weights : List UInt64) (n : Nat) (hn : vs.length = n) :
    WeightedScheme.wrap vs (if weights.length = 0 then List.replicate n 1 else weights) =
      WeightedScheme.wrap vs weights := by
  cases weights with
  | nil =>
    subst hn
    cases vs <;> rfl
  | cons w ws => rfl

/-- The verifier builds the scheme that the engine runs with. -/
theorem verifier_of_running (hrun : cw.runBlocking cfg callback = some running)
    (hne : cfg.runParticipants callback ≠ []) (ns : Bytes) :
    running.1 = consensusNamespace cfg.engineNamespace ∧
      (cw.under ns).verifier (cfg.runParticipants callback) (if cfg.weights.length = 0 then
        List.replicate (cfg.runParticipants callback).length 1 else cfg.weights) = some running.2 := by
  unfold runBlocking at hrun
  dsimp only at hrun
  split at hrun
  · next hvalid =>
    obtain ⟨validators, hset, hrun⟩ := Option.bind_eq_some_iff.mp hrun
    split at hrun
    · obtain ⟨scheme, hscheme, rfl⟩ := Option.map_eq_some_iff.mp hrun
      have hlen := cw.orderedSet_length _ _ hset
      have hkeys : (cfg.runParticipants callback).all (cw.under ns).validKey = true := hvalid
      have hsame : (cw.under ns).orderedSet (cfg.runParticipants callback) = some validators := hset
      refine ⟨rfl, ?_⟩
      rw [Commonware.verifier, if_pos hkeys, hsame, Option.bind_some, wrap_ones _ _ hlen, hscheme]
    · cases hrun
  · cases hrun

private theorem participants_of_wrap {vs : List Bytes} {weights : List UInt64} {s : WeightedScheme}
    (h : WeightedScheme.wrap vs weights = .ok s) : s.participants = vs := by
  unfold WeightedScheme.wrap at h
  dsimp only at h
  split_ifs at h <;> cases h <;> rfl

private theorem participants_pos {ns : Bytes} {keys : List Bytes} {weights : List UInt64} {s : WeightedScheme}
    (h : (cw.under ns).verifier keys weights = some s) (hne : keys ≠ []) : 0 < s.participants.length := by
  unfold Commonware.verifier at h
  split at h
  · obtain ⟨vs, hset, hwrap⟩ := Option.bind_eq_some_iff.mp h
    have hvs : 0 < vs.length := by
      rw [cw.orderedSet_length _ _ hset]
      exact List.length_pos_iff.mpr hne
    cases hs : WeightedScheme.wrap vs weights with
    | error e =>
      rw [hs] at hwrap
      cases hwrap
    | ok t =>
      rw [hs] at hwrap
      cases hwrap
      rwa [participants_of_wrap hs]
  · cases h

section Reported
variable {pks : Bytes} {f : Finalization} (hne : cfg.runParticipants callback ≠ [])
  (hrun : cw.runBlocking cfg callback = some running) (hreports : cw.Reports running f)
include hne hrun hreports

/-- What an engine reports is signed under the namespace of the verifier only if that is its own. -/
theorem signed_reported_iff :
    cw.verifyCertificate (consensusNamespace applicationNamespace) running.2.participants f = true ↔
      cfg.engineNamespace = applicationNamespace := by
  obtain ⟨hns, hverifier⟩ := verifier_of_running hrun hne (consensusNamespace applicationNamespace)
  unfold Reports at hreports
  rw [hns] at hreports
  constructor
  · intro h
    exact List.append_cancel_right (namespace_unique (participants_pos hverifier hne) hreports h)
  · intro h
    rw [← h]
    exact hreports

/-- What the verifier says to the LCERT of a finalization that the engine reports. -/
theorem verify_reported (hpks : Commonware.parseParticipants pks = some (cfg.runParticipants callback))
    (hcount : f.certificate.signers.iter.length < 2 ^ 32) :
    cw.verifyFinalization pks cfg.weights (cw.encodeLcert f) = (running.2.certificateMeetsWeight f.certificate &&
      cw.verifyCertificate (consensusNamespace applicationNamespace) running.2.participants f) := by
  obtain ⟨hns, hverifier⟩ := verifier_of_running hrun hne (consensusNamespace applicationNamespace)
  have hpos := participants_pos hverifier hne
  unfold Reports at hreports
  rw [hns] at hreports
  have hwhole := whole_of_verifyCertificate hreports
  have hsigned := cw.signed _ _ _ hreports
  have hraw : cw.encode f ≠ [] := by
    intro hnil
    have hlong := cw.encode_length f hwhole
    have hquorum := hsigned.quorum hpos
    rw [hnil, List.length_nil] at hlong
    omega
  have hlen := encodeLcert_length cw f
  have hpksNe : pks.length ≠ 0 := by
    intro hnil
    obtain rfl := List.length_eq_zero_iff.mp hnil
    exact hne (Option.some.inj hpks).symm
  have hdecode : (cw.under (consensusNamespace applicationNamespace)).decode running.2.participants.length
      (cw.encode f) = some f := by
    rw [← hsigned.seats]
    exact cw.decode_encode f hwhole
  rw [verifyFinalization, Commonware.verifyFinalization, Commonware.acceptedFinalization, if_neg (by omega), hpks,
    Option.bind_some, hverifier, Option.bind_some,
    verifyFinalizationBytes_wrapped (decode_lcert hpos hreports) (lcertTail_encodeLcert hcount hraw),
    verifyFinalizationBytes_decoded hdecode, Bool.eq_iff_iff]
  exact Option.isSome_ite

end Reported

/-- Catch-up accepts what an engine reports if the engine runs under the namespace of the verifier and its own weight
test passes, and only then. -/
theorem catch_up_accepts_iff (cw : Simplex) (cfg : StartCfg) (callback : Option Bytes) 
    (running : Bytes × WeightedScheme) (pks : Bytes) (f : Finalization)
    (hpks : Commonware.parseParticipants pks = some (cfg.runParticipants callback))
    (hne : cfg.runParticipants callback ≠ []) (hrun : cw.runBlocking cfg callback = some running)
    (hreports : cw.Reports running f) (hcount : f.certificate.signers.iter.length < 2 ^ 32) :
    cw.verifyFinalization pks cfg.weights (cw.encodeLcert f) = true ↔
      cfg.engineNamespace = applicationNamespace ∧ running.2.certificateMeetsWeight f.certificate = true := by
  rw [verify_reported hne hrun hreports hpks hcount, Bool.and_eq_true, signed_reported_iff hne hrun hreports]
  exact and_comm

/-- No engine that `startEpoch` starts reports a finalization that catch-up accepts. -/
theorem started_engine_never_accepted {publicKey pks : Bytes} {driver : Bytes × List UInt64}
    {f : Finalization} (callback : Option Bytes) (hstart : startConfig publicKey pks driver = some cfg)
    (hpks : Commonware.parseParticipants pks = some (cfg.runParticipants callback))
    (hne : cfg.runParticipants callback ≠ []) (hrun : cw.runBlocking cfg callback = some running)
    (hreports : cw.Reports running f) (hcount : f.certificate.signers.iter.length < 2 ^ 32) :
    cw.verifyFinalization pks cfg.weights (cw.encodeLcert f) = false := by
  obtain ⟨participants, -, rfl⟩ := Option.map_eq_some_iff.mp hstart
  rw [verify_reported hne hrun hreports hpks hcount, Bool.and_eq_false_iff, Bool.eq_false_iff, Bool.eq_false_iff,
    ne_eq, ne_eq, signed_reported_iff hne hrun hreports]
  refine .inr (fun hns => ?_)
  have hother : text "lean-terpz" ≠ [] ∧ text "lean-terpz" ≠ applicationNamespace := by decide +kernel
  rw [StartCfg.engineNamespace, if_neg hother.1] at hns
  exact hother.2 hns

end Scheme

end Simplex

section Flat

private theorem iter_length_le (s : Signers) : s.iter.length ≤ s.bits.length := by
  rw [Signers.iter, List.length_map]
  exact (List.length_filter_le _ _).trans_eq List.length_range

/-- Signatures that follow one another. -/
def flatSignatures : Nat → Bytes → List (Option Bytes)
  | 0, _ => []
  | k + 1, b => some (b.take 64) :: flatSignatures k (b.drop 64)

private theorem flatSignatures_flatMap {sigs : List (Option Bytes)}
    (h : ∀ s ∈ sigs, ∃ b, s = some b ∧ b.length = 64) :
    flatSignatures sigs.length (sigs.flatMap (·.getD [])) = sigs ∧
      (sigs.flatMap (·.getD [])).length = 64 * sigs.length := by
  induction sigs with
  | nil => exact ⟨rfl, rfl⟩
  | cons s sigs ih =>
    obtain ⟨b, rfl, hb⟩ := h s List.mem_cons_self
    obtain ⟨hsigs, hlen⟩ := ih (fun s hs => h s (List.mem_cons_of_mem _ hs))
    rw [List.flatMap_cons, Option.getD_some, List.length_cons, flatSignatures, List.take_left' hb, List.drop_left' hb,
      hsigs, List.length_append, hlen, hb]
    exact ⟨rfl, by omega⟩

/-- The decoder for `flatEncode`. -/
def flatDecode (n : Nat) (b : Bytes) : Option Finalization :=
  let seats := ((b.drop 8).drop 8).drop 8
  if h : n ≤ 2 ^ 32 ∧ 32 ≤ seats.length ∧ b.length ≤ 65 * n + 128 then
    let signers : Signers := ⟨((seats.drop 32).take n).map (· == 1), by
      rw [List.length_map]
      exact (List.length_take_le _ _).trans h.1⟩
    some ⟨⟨getU64 b, getU64 (b.drop 8), getU64 ((b.drop 8).drop 8), seats.take 32, List.length_take_of_le h.2.1⟩,
      ⟨signers, flatSignatures signers.iter.length ((seats.drop 32).drop n)⟩⟩
  else none

private theorem map_bits (bits : List Bool) :
    (bits.map (fun b => if b then (1 : UInt8) else 0)).map (· == 1) = bits := by
  rw [List.map_map]
  refine (List.map_congr_left (fun b _ => ?_)).trans (List.map_id bits)
  cases b <;> rfl

private theorem flatEncode_length {f : Finalization} (h : f.certificate.Whole) :
    (flatEncode f).length = 56 + f.certificate.signers.bits.length + 64 * f.certificate.signers.iter.length := by
  simp only [flatEncode, List.length_append, putU64_length, f.proposal.payload_length, List.length_map,
    (flatSignatures_flatMap h.2).2, h.1]

private theorem flatDecode_flatEncode {f : Finalization} (h : f.certificate.Whole) :
    flatDecode f.certificate.signers.bits.length (flatEncode f) = some f := by
  have hlen := flatEncode_length h
  have hseats := iter_length_le f.certificate.signers
  have hsigs := (flatSignatures_flatMap h.2).1
  rw [h.1] at hsigs
  have hnum := f.certificate.signers.numbered
  have hbits : (f.certificate.signers.bits.map (fun b => if b then (1 : UInt8) else 0)).length =
    f.certificate.signers.bits.length := List.length_map _
  have hfits : 32 ≤ ((((flatEncode f).drop 8).drop 8).drop 8).length := by
    rw [List.length_drop, List.length_drop, List.length_drop]
    omega
  rw [flatDecode, dif_pos ⟨hnum, hfits, by omega⟩]
  have h8 : (flatEncode f).drop 8 = putU64 f.proposal.view ++ (putU64 f.proposal.parent ++ (f.proposal.payload ++
      (f.certificate.signers.bits.map (fun b => if b then 1 else 0) ++
        f.certificate.signatures.flatMap (·.getD [])))) := by
    simp only [flatEncode, List.append_assoc, List.drop_left' (putU64_length _)]
  have hepoch : getU64 (flatEncode f) = f.proposal.epoch := by
    simp only [flatEncode, List.append_assoc, getU64_putU64_append]
  simp only [h8, hepoch, List.drop_left' (putU64_length _), getU64_putU64_append,
    List.drop_left' f.proposal.payload_length, List.take_left' f.proposal.payload_length, List.take_left' hbits,
    List.drop_left' hbits, map_bits, hsigs]

/-- The votes that were all signed under one namespace, from all but the faults that the committee bears. -/
def flatVerify (signedUnder ns : Bytes) (participants : List Bytes) (f : Finalization) : Bool :=
  f.certificate.signers.bits.length == participants.length &&
    f.certificate.signatures.length == f.certificate.signers.iter.length &&
    decide (participants.length - (participants.length - 1) / 3 ≤ f.certificate.signers.iter.length) &&
    (f.certificate.signers.iter.zip f.certificate.signatures).all (fun vote =>
      (participants[vote.1.toNat]?).isSome && vote.2.any (·.length == 64) && ns == signedUnder)

private theorem signedBy_of_flatVerify {signedUnder ns : Bytes} {participants : List Bytes} {f : Finalization}
    (h : flatVerify signedUnder ns participants f = true) :
    f.SignedBy (fun _ _ _ => ns == signedUnder) participants := by
  simp only [flatVerify, Bool.and_eq_true, beq_iff_eq, decide_eq_true_eq, List.all_eq_true] at h
  obtain ⟨⟨⟨hseats, hpaired⟩, hquorum⟩, hvotes⟩ := h
  refine ⟨hseats, hpaired, fun _ => by omega, fun vote hvote => ?_⟩
  obtain ⟨⟨hkey, hsig⟩, hns⟩ := hvotes vote hvote
  obtain ⟨pk, hpk⟩ := Option.isSome_iff_exists.mp hkey
  obtain ⟨sig, hsig, hlen⟩ := (Option.any_eq_true _ _).mp hsig
  exact ⟨pk, sig, hpk, hsig, beq_iff_eq.mp hlen, beq_iff_eq.mpr hns⟩

/-- The flat codec with these votes. -/
def flatSimplex (signedUnder : Bytes) : Simplex where
  encode := flatEncode
  decode := flatDecode
  validKey _ := true
  orderedSet := sortedKeys
  verifyVote ns _ _ _ := ns == signedUnder
  verifyCertificate := flatVerify signedUnder
  orderedSet_length keys validators h := by
    unfold sortedKeys at h
    split at h
    · cases h
      exact List.length_insertionSort _ _
    · cases h
  signed _ _ _ h := signedBy_of_flatVerify h
  one_namespace _ _ _ _ _ h h' := (beq_iff_eq.mp h).trans (beq_iff_eq.mp h').symm
  decode_encode _ h := flatDecode_flatEncode h
  encode_length f h := by
    rw [flatEncode_length h]
    omega
  decode_length n b f h := by
    unfold flatDecode at h
    dsimp only at h
    split at h
    · next hfits => exact hfits.2.2
    · cases h

/-- The engine of the node that holds the first of the four seats. -/
def quadCfg (ns : Bytes) : StartCfg := ⟨quadPks.take 32, quadScheme.participants, quadWeights, ns⟩

private theorem quadCfg_participants (ns : Bytes) : (quadCfg ns).runParticipants none = quadScheme.participants := rfl

private theorem quad_started (ns : Bytes) :
    Commonware.parseParticipants quadPks = some ((quadCfg ns).runParticipants none) ∧
    (quadCfg ns).runParticipants none ≠ [] ∧
    quadScheme.certificateMeetsWeight quadFinalization.certificate = true ∧
    quadFinalization.certificate.signers.iter.length < 2 ^ 32 := by
  rw [quadCfg_participants]
  decide +kernel

private theorem quad_runs :
    (flatSimplex (consensusNamespace applicationNamespace)).runBlocking (quadCfg []) none =
        some (consensusNamespace applicationNamespace, quadScheme) ∧
    (flatSimplex (consensusNamespace applicationNamespace)).Reports
        (consensusNamespace applicationNamespace, quadScheme) quadFinalization ∧
    startConfig (quadPks.take 32) quadPks (quadPks, quadWeights) = some (quadCfg (text "lean-terpz")) ∧
    (flatSimplex (consensusNamespace (text "lean-terpz"))).runBlocking (quadCfg (text "lean-terpz")) none =
        some (consensusNamespace (text "lean-terpz"), quadScheme) ∧
    (flatSimplex (consensusNamespace (text "lean-terpz"))).Reports (consensusNamespace (text "lean-terpz"), quadScheme)
        quadFinalization := by
  unfold Simplex.Reports
  decide +kernel

/-- Started without a namespace, an engine reports what catch-up accepts. -/
theorem unnamed_engine_accepted :
    (flatSimplex (consensusNamespace applicationNamespace)).verifyFinalization quadPks (quadCfg []).weights
      ((flatSimplex (consensusNamespace applicationNamespace)).encodeLcert quadFinalization) = true := by
  obtain ⟨hpks, hne, hweight, hcount⟩ := quad_started []
  obtain ⟨hrun, hreports, -⟩ := quad_runs
  exact (Simplex.catch_up_accepts_iff _ (quadCfg []) none _ quadPks quadFinalization hpks hne hrun hreports hcount).mpr
    ⟨rfl, hweight⟩

/-- Three of four seats finalize under the namespace that `startEpoch` passes; catch-up refuses their certificate. -/
theorem started_engine_refused :
    startConfig (quadPks.take 32) quadPks (quadPks, quadWeights) = some (quadCfg (text "lean-terpz")) ∧
    (flatSimplex (consensusNamespace (text "lean-terpz"))).runBlocking (quadCfg (text "lean-terpz")) none =
        some (consensusNamespace (text "lean-terpz"), quadScheme) ∧
    (flatSimplex (consensusNamespace (text "lean-terpz"))).Reports (consensusNamespace (text "lean-terpz"), quadScheme)
        quadFinalization ∧
    quadScheme.certificateMeetsWeight quadFinalization.certificate = true ∧
    (flatSimplex (consensusNamespace (text "lean-terpz"))).verifyFinalization quadPks
      (quadCfg (text "lean-terpz")).weights
      ((flatSimplex (consensusNamespace (text "lean-terpz"))).encodeLcert quadFinalization) = false := by
  obtain ⟨hpks, hne, hweight, hcount⟩ := quad_started (text "lean-terpz")
  obtain ⟨-, -, hstart, hrun, hreports⟩ := quad_runs
  exact ⟨hstart, hrun, hreports, hweight,
    Simplex.started_engine_never_accepted none hstart hpks hne hrun hreports hcount⟩

end Flat
end Terpz.Leanval.Ffi
