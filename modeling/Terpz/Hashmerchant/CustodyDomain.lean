import Terpz.Lib.Separated
import Terpz.Hashmerchant.Keeper.Genesis

/-! What a custody signature is over. The domain hashes a scope and a source joined by a slash that both may contain;
value, height and timestamp follow, the last two as words of eight bytes. -/
namespace Terpz.Hashmerchant
open Lib Lib.BigEndian

/-- What a source signs. -/
structure Statement where
  scope : Text
  sourceId : Text
  value : Bytes
  height : UInt64
  timestamp : Int64
  deriving DecidableEq, Repr

namespace Statement

def payload (t : Statement) : Bytes := custodyPayload t.scope t.sourceId t.value t.height t.timestamp

/-- The bytes under the hash of the domain. -/
def preimage (t : Statement) : Bytes := text "hashmerchant/custody/" ++ t.scope ++ text "/" ++ t.sourceId

/-- The domains of two statements are a collision of the hash. -/
def Collide (t t' : Statement) : Prop := t.preimage ≠ t'.preimage ∧ sha256 t.preimage = sha256 t'.preimage

/-- ASCII "/". -/
def slash : UInt8 := 47

/-- The same value, height and timestamp, for a scope and a source cut at a later slash. -/
def Resliced (t t' : Statement) : Prop :=
  CutLater slash t.scope t.sourceId t'.scope t'.sourceId ∧
    t.value = t'.value ∧ t.height = t'.height ∧ t.timestamp = t'.timestamp

section Payload
variable {t t' : Statement}

theorem preimage_eq_iff : t.preimage = t'.preimage ↔
    (t.scope = t'.scope ∧ t.sourceId = t'.sourceId) ∨ CutLater slash t.scope t.sourceId t'.scope t'.sourceId ∨
      CutLater slash t'.scope t'.sourceId t.scope t.sourceId := by
  have hslash : text "/" = [slash] := by decide +kernel
  have hjoined (u : Statement) : u.preimage = text "hashmerchant/custody/" ++ joined slash u.scope u.sourceId := by
    rw [preimage, joined, hslash, List.append_assoc, List.append_assoc, List.singleton_append]
  rw [hjoined, hjoined, List.append_cancel_left_eq, joined_eq_iff]

private theorem word_inj {m n : Nat} (hm : m < 2 ^ 64) (hn : n < 2 ^ 64)
    (h : (beBytes 8 m).reverse = (beBytes 8 n).reverse) : m = n :=
  beBytes_inj hm hn (List.reverse_injective h)

/-- A payload fixes the digest of its domain and all the rest. -/
theorem payload_eq_iff : t.payload = t'.payload ↔ sha256 t.preimage = sha256 t'.preimage ∧ t.value = t'.value ∧
    t.height = t'.height ∧ t.timestamp = t'.timestamp := by
  constructor
  · intro h
    simp only [payload, custodyPayload] at h
    obtain ⟨h, hts⟩ := List.append_inj' h (by simp)
    obtain ⟨h, hheight⟩ := List.append_inj' h (by simp)
    obtain ⟨hdomain, hvalue⟩ := List.append_inj h (by simp [custodyDomain])
    refine ⟨hdomain, hvalue, ?_, ?_⟩
    · exact UInt64.toNat_inj.mp (word_inj t.height.toNat_lt t'.height.toNat_lt hheight)
    · have hword := UInt64.toNat_inj.mp (word_inj t.timestamp.toUInt64.toNat_lt t'.timestamp.toUInt64.toNat_lt hts)
      simpa using congrArg UInt64.toInt64 hword
  · rintro ⟨hdomain, hvalue, hheight, hts⟩
    simp only [payload, custodyPayload, custodyDomain]
    rw [show text "hashmerchant/custody/" ++ t.scope ++ text "/" ++ t.sourceId = t.preimage from rfl,
      show text "hashmerchant/custody/" ++ t'.scope ++ text "/" ++ t'.sourceId = t'.preimage from rfl, hdomain, hvalue,
      hheight, hts]

/-- Equal payloads come from equal statements or a collision exactly if neither is the other resliced. -/
theorem payload_inj_iff : (t.payload = t'.payload → t = t' ∨ t.Collide t') ↔ ¬ t.Resliced t' ∧ ¬ t'.Resliced t := by
  have resliced_fails {u u' : Statement} (h : u.Resliced u') :
      u.payload = u'.payload ∧ u ≠ u' ∧ ¬ u.Collide u' := by
    obtain ⟨hcut, hvalue, hheight, hts⟩ := h
    have hpre : u.preimage = u'.preimage := preimage_eq_iff.mpr (.inr (.inl hcut))
    exact ⟨payload_eq_iff.mpr ⟨congrArg sha256 hpre, hvalue, hheight, hts⟩, fun he => hcut.ne (congrArg scope he),
      fun hcol => hcol.1 hpre⟩
  constructor
  · intro h
    refine ⟨fun hr => ?_, fun hr => ?_⟩
    · obtain ⟨hp, hne, hcol⟩ := resliced_fails hr
      exact (h hp).elim hne hcol
    · obtain ⟨hp, hne, hcol⟩ := resliced_fails hr
      rcases h hp.symm with he | hc
      · exact hne he.symm
      · exact hcol ⟨hc.1.symm, hc.2.symm⟩
  · rintro ⟨hr, hr'⟩ h
    obtain ⟨hdomain, hvalue, hheight, hts⟩ := payload_eq_iff.mp h
    by_cases hpre : t.preimage = t'.preimage
    · rcases preimage_eq_iff.mp hpre with ⟨hscope, hsource⟩ | hcut | hcut
      · obtain ⟨_, _, _, _, _⟩ := t
        obtain ⟨_, _, _, _, _⟩ := t'
        simp only at hscope hsource hvalue hheight hts
        subst hscope hsource hvalue hheight hts
        exact .inl rfl
      · exact absurd ⟨hcut, hvalue, hheight, hts⟩ hr
      · exact absurd ⟨hcut, hvalue.symm, hheight.symm, hts.symm⟩ hr'
    · exact .inr ⟨hpre, hdomain⟩

end Payload
end Statement

/-- The statement an attestation makes under a scope. -/
def OracleAttestation.statement (att : OracleAttestation) (scope : Text) : Statement :=
  ⟨scope, att.sourceId, att.value, att.height, att.timestamp⟩

namespace Keeper
variable (k : Keeper)

/-- A signature is over one message. -/
def SignsOnce : Prop := ∀ pk m m' sig, k.ed25519Verify pk m sig = true → k.ed25519Verify pk m' sig = true → m = m'

/-- The attestation passes under an authenticator of its source. -/
def Attests (sources : List OracleSource) (att : OracleAttestation) (auth : CustodyAuthenticator) : Prop :=
  (∃ src, findOracleSource sources att.sourceId = some src ∧ src.authenticator = some auth) ∧
    k.verifyAttestation sources att = .ok ()

variable {k}

theorem Attests.verified {sources : List OracleSource} {att : OracleAttestation} {auth : CustodyAuthenticator}
    (h : k.Attests sources att auth) :
    k.ed25519Verify auth.pubkey (att.statement auth.scope).payload att.custodySignature = true := by
  obtain ⟨⟨src, hsrc, hauth⟩, hok⟩ := h
  unfold verifyAttestation at hok
  simp only [hsrc, hauth, failIf_bind_eq_ok, failIf_eq_ok] at hok
  exact Bool.of_not_eq_false hok.2.2

/-- Two statements have different payloads unless the hash collides, and no signature passes for both, exactly if
neither is the other with scope and source cut at another slash. -/
theorem custody_domains_apart_iff (t t' : Statement) :
    ((t.payload = t'.payload → t = t' ∨ t.Collide t') ∧
      ∀ k : Keeper, k.SignsOnce → ∀ sources sources' att att' auth auth', k.Attests sources att auth →
        k.Attests sources' att' auth' → auth.pubkey = auth'.pubkey → att.custodySignature = att'.custodySignature →
        att.statement auth.scope = t → att'.statement auth'.scope = t' → t = t' ∨ t.Collide t') ↔
      ¬ t.Resliced t' ∧ ¬ t'.Resliced t := by
  constructor
  · rintro ⟨h, -⟩
    exact Statement.payload_inj_iff.mp h
  · intro h
    have hinj := Statement.payload_inj_iff.mpr h
    refine ⟨hinj, ?_⟩
    rintro k hk sources sources' att att' auth auth' ha ha' hpk hsig rfl rfl
    have hv := ha.verified
    have hv' := ha'.verified
    rw [← hpk, ← hsig] at hv'
    exact hinj (hk _ _ _ _ hv hv')

end Keeper

/-- A keeper with ideal signatures: the key in front of the message. -/
def signingKeeper : Keeper := { sampleKeeper with ed25519Verify := fun pk m sig => sig = pk ++ m }

theorem signingKeeper_signsOnce : signingKeeper.SignsOnce := by
  intro pk m m' sig h h'
  have hm : sig = pk ++ m := of_decide_eq_true h
  have hm' : sig = pk ++ m' := of_decide_eq_true h'
  exact List.append_cancel_left (hm.symm.trans hm')

/-- A source with a key of 32 equal bytes. -/
def custodySource (scope sourceId : Text) : OracleSource :=
  ⟨sourceId, 0, [], [], some ⟨List.replicate 32 1, text "ed25519", scope⟩, true⟩

/-- An attestation of a one-byte value with a signature over a given statement. -/
def signedAttestation (sourceId : Text) (t : Statement) : OracleAttestation :=
  ⟨sourceId, [7], 1, 100, List.replicate 32 1 ++ t.payload, []⟩

/-- Two sources of one key: the signature made for source `oracle/src` in scope `price` passes for source `src` in
scope `price/oracle`. -/
theorem resliced_signature_passes :
    let t : Statement := ⟨text "price", text "oracle/src", [7], 1, 100⟩
    let t' : Statement := ⟨text "price/oracle", text "src", [7], 1, 100⟩
    signingKeeper.SignsOnce ∧ t ≠ t' ∧ t.preimage = t'.preimage ∧ t.payload = t'.payload ∧
    (signedAttestation (text "oracle/src") t).statement (text "price") = t ∧
    (signedAttestation (text "src") t).statement (text "price/oracle") = t' ∧
    signingKeeper.verifyAttestation [custodySource (text "price") (text "oracle/src")]
      (signedAttestation (text "oracle/src") t) = .ok () ∧
    signingKeeper.verifyAttestation [custodySource (text "price/oracle") (text "src")]
      (signedAttestation (text "src") t) = .ok () := by
  exact ⟨signingKeeper_signsOnce, by decide +kernel⟩

end Terpz.Hashmerchant
