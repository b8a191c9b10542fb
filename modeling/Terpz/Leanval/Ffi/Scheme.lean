import Terpz.Leanval.Cwffi.CertWire

/-! The engine's side of a certificate: finalizations, the weighted scheme that judges them, their LCERT encoding and
the verifier that Go calls. -/
namespace Terpz.Leanval.Ffi
open Lib Lib.BigEndian Cwffi

/-- The participants that signed, as a bit for each seat. Seats are numbered with 32 bits. -/
structure Signers where
  bits : List Bool
  numbered : bits.length ≤ 2 ^ 32
  deriving DecidableEq

def Signers.iter (s : Signers) : List UInt32 :=
  ((List.range s.bits.length).filter (fun i => s.bits.getD i false)).map UInt32.ofNat

/-- A signature that cannot be decoded is absent. -/
structure Certificate where
  signers : Signers
  signatures : List (Option Bytes)
  deriving DecidableEq

structure Proposal where
  epoch : UInt64
  view : UInt64
  parent : UInt64
  payload : Bytes
  payload_length : payload.length = 32
  deriving DecidableEq

structure Finalization where
  proposal : Proposal
  certificate : Certificate
  deriving DecidableEq

section Weights

def saturatingMul (a b : UInt64) : UInt64 := UInt64.ofNat (min (a.toNat * b.toNat) (2 ^ 64 - 1))

/-- Strictly more than two thirds of the total. -/
def meetsWeight (signed total : UInt64) : Bool :=
  decide (total > 0) && decide (saturatingMul signed 3 > saturatingMul total 2)

structure WeightedScheme where
  participants : List Bytes
  weights : List UInt64
  total : UInt64
  deriving DecidableEq

namespace WeightedScheme

/-- Without weights every participant has one vote. -/
def wrap (participants : List Bytes) (weights : List UInt64) : Except String WeightedScheme :=
  let n := participants.length
  let weights := if weights.isEmpty then List.replicate n 1 else weights
  if weights.length ≠ n then
    .error ("weights len " ++ toString weights.length ++ " != participants " ++ toString n ++
        " (do not repeat pubkeys)")
  else if totalWeight weights = 0 then .error "BondedSet total weight is 0"
  else .ok ⟨participants, weights, totalWeight weights⟩

def weightOf (s : WeightedScheme) (p : UInt32) : UInt64 := (s.weights[p.toNat]?).getD 0

/-- The sum wraps, as it does in a release build. -/
def signedWeight (s : WeightedScheme) (signers : List UInt32) : UInt64 :=
  (signers.map s.weightOf).foldl (· + ·) 0

def certificateMeetsWeight (s : WeightedScheme) (cert : Certificate) : Bool :=
  meetsWeight (s.signedWeight cert.signers.iter) s.total

end WeightedScheme

end Weights

/-- The consensus library: the codec of finalizations, ordered sets, and ed25519 keys and signatures. -/
structure Commonware where
  encode : Finalization → Bytes
  /-- Bytes as a finalization by a committee of the given size. -/
  decode : Nat → Bytes → Option Finalization
  validKey : Bytes → Bool
  /-- Distinct keys in their order. -/
  orderedSet : List Bytes → Option (List Bytes)
  /-- The signatures on a proposal, and their number, against the participants. -/
  verifyCertificate : List Bytes → Finalization → Bool

/-- The signers of a finalization, each with the slot for its signature. -/
def Finalization.certSigners (f : Finalization) : List CertSigner :=
  f.certificate.signers.iter.zipIdx.map
    (fun e => ⟨e.1, Keeper.padTo 64 (((f.certificate.signatures[e.2]?).getD none).getD [])⟩)

/-- What an LCERT says of a finalization. -/
def Finalization.leanCert (f : Finalization) (raw : Bytes) : LeanCert :=
  ⟨f.proposal.epoch, f.proposal.view, f.proposal.payload, f.certSigners, raw⟩

namespace Commonware
variable (cw : Commonware)

def encodeLcert (f : Finalization) : Bytes := Cwffi.encodeLcert (f.leanCert (cw.encode f))

def verifier (pks : List Bytes) (weights : List UInt64) : Option WeightedScheme :=
  if pks.all cw.validKey then (cw.orderedSet pks).bind (fun vs => (WeightedScheme.wrap vs weights).toOption) else none

def verify (s : WeightedScheme) (f : Finalization) : Bool :=
  s.certificateMeetsWeight f.certificate && cw.verifyCertificate s.participants f

/-- What follows the header of an LCERT, the signers it counts and the length field, none of which is looked at. -/
def lcertTail (raw : Bytes) : Option Bytes :=
  if raw.length > 5 + 1 + 8 + 8 + 32 + 4 ∧ raw.take 5 = lcertMagic then
    let skip := 5 + 1 + 8 + 8 + 32 + 4 + beNat ((raw.drop 54).take 4) * (4 + 64) + 4
    if skip < raw.length then some (raw.drop skip) else none
  else none

theorem lcertTail_shorter {raw tail : Bytes} (h : lcertTail raw = some tail) : tail.length < raw.length := by
  unfold lcertTail at h
  split at h
  · dsimp only at h
    split at h
    · obtain rfl := Option.some.inj h
      rw [List.length_drop]
      omega
    · cases h
  · cases h

/-- The finalization that the verifier accepts the bytes for. -/
def verifyFinalizationBytes (s : WeightedScheme) (raw : Bytes) : Option Finalization :=
  match cw.decode s.participants.length raw with
  | some f => if cw.verify s f then some f else none
  | none =>
    match _h : lcertTail raw with
    | some tail => verifyFinalizationBytes s tail
    | none => none
termination_by raw.length
decreasing_by exact lcertTail_shorter _h

def parseParticipants (bytes : Bytes) : Option (List Bytes) :=
  if bytes.length % 32 ≠ 0 then none
  else some ((List.range (bytes.length / 32)).map (fun i => (bytes.drop (i * 32)).take 32))

/-- The accepted finalization; `none` is the answer 0. -/
def acceptedFinalization (pks : Bytes) (weights : List UInt64) (cert : Bytes) : Option Finalization :=
  if pks.length = 0 ∨ cert.length = 0 then none
  else
    (parseParticipants pks).bind (fun keys =>
      (cw.verifier keys (if weights.length = 0 then List.replicate keys.length 1 else weights)).bind (fun s =>
        cw.verifyFinalizationBytes s cert))

def verifyFinalization (pks : Bytes) (weights : List UInt64) (cert : Bytes) : Bool :=
  (cw.acceptedFinalization pks weights cert).isSome

end Commonware

section Encoding

/-- The seats of a bit map are distinct. -/
theorem Signers.iter_nodup (s : Signers) : s.iter.Nodup := by
  refine List.Nodup.map_on ?_ (List.nodup_range.filter _)
  intro i hi j hj hij
  have hbound : ∀ k ∈ (List.range s.bits.length).filter (fun i => s.bits.getD i false), k < 2 ^ 32 := fun k hk =>
    lt_of_lt_of_le (List.mem_range.mp (List.mem_filter.mp hk).1) s.numbered
  have h := congrArg UInt32.toNat hij
  rwa [UInt32.toNat_ofNat', UInt32.toNat_ofNat', Nat.mod_eq_of_lt (hbound i hi), Nat.mod_eq_of_lt (hbound j hj)] at h

theorem Finalization.certSigners_index (f : Finalization) :
    f.certSigners.map (·.index) = f.certificate.signers.iter := by
  rw [certSigners, List.map_map]
  exact List.zipIdx_map_fst 0 _

theorem Finalization.certSigners_length (f : Finalization) :
    f.certSigners.length = f.certificate.signers.iter.length := by
  rw [← List.length_map, f.certSigners_index]

theorem Finalization.leanCert_framed {f : Finalization} (h : f.certificate.signers.iter.length ≤ 4096) (raw : Bytes) :
    (f.leanCert raw).Framed where
  digest := f.proposal.payload_length
  few := by
    show f.certSigners.length ≤ 4096
    rw [f.certSigners_length]
    exact h
  signatures := by
    intro s hs
    obtain ⟨e, -, rfl⟩ := List.mem_map.mp hs
    exact Keeper.padTo_length _ _

/-- An encoded finalization in which the driver finds signers is read back as it was. -/
theorem parse_encoded (cw : Commonware) (f : Finalization) (h : (parseLeanCert (cw.encodeLcert f)).1.signers ≠ []) :
    ∃ raw, parseLeanCert (cw.encodeLcert f) = (f.leanCert raw, none) := by
  rw [Commonware.encodeLcert] at h ⊢
  have hseats : f.certificate.signers.iter.length ≤ f.certificate.signers.bits.length := by
    rw [Signers.iter, List.length_map]
    exact (List.length_filter_le _ _).trans_eq List.length_range
  have hfew : f.certificate.signers.iter.length ≤ 4096 := by
    have hle : (f.leanCert (cw.encode f)).signers.length ≤ 256 ^ 4 := by
      rw [show (256 : Nat) ^ 4 = 2 ^ 32 by decide]
      exact f.certSigners_length.trans_le (hseats.trans f.certificate.signers.numbered)
    rw [← f.certSigners_length]
    exact few_of_encoded_signers (c := f.leanCert (cw.encode f)) f.proposal.payload_length hle h
  exact ⟨_, parse_encodeLcert (f.leanCert_framed hfew _)⟩

end Encoding

/-- A scheme for as many participants as weights weighs with exactly these, and there are some. -/
theorem WeightedScheme.of_wrap {participants : List Bytes} {weights : List UInt64} {s : WeightedScheme}
    (h : wrap participants weights = .ok s) (hn : participants.length = weights.length) :
    weights ≠ [] ∧ s = ⟨participants, weights, totalWeight weights⟩ := by
  cases weights with
  | nil =>
    rw [wrap, hn] at h
    cases h
  | cons w ws =>
    refine ⟨List.cons_ne_nil _ _, ?_⟩
    simp only [wrap, List.isEmpty_cons, Bool.false_eq_true, if_false] at h
    rw [if_neg (not_not.mpr hn.symm)] at h
    split at h
    · cases h
    · cases h
      rfl

end Terpz.Leanval.Ffi
