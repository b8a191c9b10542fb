import Terpz.Leanval.Types.Ssle
import Terpz.Leanval.Keeper.StwoVerifiers

/-! Hide-until-block proposer tickets. A block is accepted on the period, the height and the proof
of its first ticket; whether that ticket commits to the named proposer is asked only on opening. -/
namespace Terpz.Leanval.Keeper
open Lib

/-- ASCII "leanval/ssle/ticket/v1". -/
def ticketDomain : Bytes :=
  [0x6C, 0x65, 0x61, 0x6E, 0x76, 0x61, 0x6C, 0x2F, 0x73, 0x73, 0x6C, 0x65, 0x2F, 0x74, 0x69, 0x63, 0x6B, 0x65, 0x74,
    0x2F, 0x76, 0x31]

/-- ASCII "leanval/ssle/reveal/v1". -/
def revealDomain : Bytes :=
  [0x6C, 0x65, 0x61, 0x6E, 0x76, 0x61, 0x6C, 0x2F, 0x73, 0x73, 0x6C, 0x65, 0x2F, 0x72, 0x65, 0x76, 0x65, 0x61, 0x6C,
    0x2F, 0x76, 0x31]

def ssleTicket (period : UInt64) (height : Int64) (proposer : Bytes) : Bytes :=
  sha256 (ticketDomain ++ (putU64 period ++ putU64 height.toUInt64) ++ proposer)

def ssleReveal (period : UInt64) (height : Int64) (block : Bytes) : Bytes :=
  sha256 (revealDomain ++ (putU64 period ++ putU64 height.toUInt64) ++ block)

/-- Bytes without a named proposer are not refused: they open to a hash of themselves. -/
def revealProposerAfterBlock (env : StwoEnv) (period : UInt64) (height : Int64) (block : Bytes) :
    Except String Bytes := do
  failIf (height < 0) "leanval: ssle height"
  failIf (block.length = 0) "leanval: ssle missing block"
  match decodeSSLE block with
  | none => pure (ssleReveal period height block)
  | some blob =>
    if blob.proposer.length = 0 then pure (ssleReveal period height block)
    else do
      failIf (blob.ticket ≠ ssleTicket period height blob.proposer) "leanval: ssle ticket != H(period,height,proposer)"
      verifySSLEProof env blob.proof period height blob.ticket
      failIf (blob.ticket = blob.proposer) "leanval: ssle ticket must not equal proposer id"
      pure blob.proposer

def checkSSLE (env : StwoEnv) (live height : Int64) (txs : List Bytes) : Except String Unit :=
  match findSSLE txs with
  | none => .ok ()
  | some (blob, _) => do
    let want := periodFromHeight live height
    failIf (blob.period ≠ want)
      ("leanval: SSLE period " ++ toString blob.period ++ " != height period " ++ toString want)
    failIf (blob.height ≠ height) ("leanval: SSLE height " ++ toString blob.height ++ " != " ++ toString height)
    verifySSLEProof env blob.proof blob.period blob.height blob.ticket

/-- The ticket is the hash of the named proposer at this height, which is not negative. -/
structure Commits (period : UInt64) (height : Int64) (blob : SSLEBlob) : Prop where
  height_nonneg : ¬ height < 0
  named : blob.proposer ≠ []
  ticket_eq : blob.ticket = ssleTicket period height blob.proposer
  ticket_ne : blob.ticket ≠ blob.proposer

/-- No element that decodes names another proposer. -/
def OneProposer (txs : List Bytes) (proposer : Bytes) : Prop :=
  ∀ tx ∈ txs, ∀ b, decodeSSLE tx = some b → b.proposer = proposer

theorem checkSSLE_eq_ok {env : StwoEnv} {live height : Int64} {txs : List Bytes} {blob : SSLEBlob} {i : Nat}
    (hf : findSSLE txs = some (blob, i)) :
    checkSSLE env live height txs = .ok () ↔ blob.period = periodFromHeight live height ∧ blob.height = height ∧
      verifySSLEProof env blob.proof blob.period blob.height blob.ticket = .ok () := by
  simp only [checkSSLE, hf, failIf_bind_eq_ok, not_not, ne_eq]

/-- What a successful opening has checked. -/
theorem revealProposerAfterBlock_eq_ok {env : StwoEnv} {period : UInt64} {height : Int64} {block : Bytes}
    {blob : SSLEBlob} (hd : decodeSSLE block = some blob) :
    revealProposerAfterBlock env period height block = .ok blob.proposer ↔
      Commits period height blob ∧ verifySSLEProof env blob.proof period height blob.ticket = .ok () := by
  have hblock : ¬ block.length = 0 := by
    intro hl
    rw [List.length_eq_zero_iff.mp hl] at hd
    cases hd
  simp only [revealProposerAfterBlock, hd, failIf_bind_eq_ok, hblock, not_false_eq_true, true_and]
  by_cases hp : blob.proposer = []
  · -- the hash that comes back is never the empty proposer
    have hne : ¬ (pure (ssleReveal period height block) : Except String Bytes) = .ok blob.proposer := by
      intro he
      have := congrArg List.length (Except.ok.inj he)
      rw [hp, ssleReveal, sha256_length] at this
      cases this
    rw [if_pos (by rw [hp]; rfl)]
    constructor
    · rintro ⟨_, he⟩
      exact absurd he hne
    · rintro ⟨hc, _⟩
      exact absurd hp hc.named
  · rw [if_neg (fun hl => hp (List.length_eq_zero_iff.mp hl))]
    constructor
    · rintro ⟨hh, h⟩
      obtain ⟨ht, h⟩ := failIf_bind_eq_ok.mp h
      obtain ⟨_, hv, h⟩ := bind_eq_ok.mp h
      exact ⟨⟨hh, hp, not_not.mp ht, (failIf_bind_eq_ok.mp h).1⟩, hv⟩
    · rintro ⟨hc, hv⟩
      refine ⟨hc.height_nonneg, failIf_bind_eq_ok.mpr ⟨not_not.mpr hc.ticket_eq, ?_⟩⟩
      exact bind_eq_ok.mpr ⟨(), hv, failIf_bind_eq_ok.mpr ⟨hc.ticket_ne, rfl⟩⟩

/-- A block whose tickets are accepted opens to the proposer it names, and to no other, exactly
when its first ticket is the hash of that proposer and no further element names another. -/
theorem accepted_ticket_opens_iff {env : StwoEnv} {live height : Int64} {txs : List Bytes} {blob : SSLEBlob} {i : Nat}
    {raw : Bytes} (hf : findSSLE txs = some (blob, i)) (hraw : txs[i]? = some raw)
    (hok : checkSSLE env live height txs = .ok ()) :
    (revealProposerAfterBlock env (periodFromHeight live height) height raw = .ok blob.proposer ∧
      OneProposer txs blob.proposer) ↔
    Commits (periodFromHeight live height) height blob ∧ OneProposer txs blob.proposer := by
  obtain ⟨tx, htx, hd⟩ := findSSLE_eq_some hf
  obtain rfl := Option.some.inj (hraw.symm.trans htx)
  obtain ⟨hp, hh, hv⟩ := (checkSSLE_eq_ok hf).mp hok
  rw [hp, hh] at hv
  rw [revealProposerAfterBlock_eq_ok hd, and_iff_left hv]

/-- No wasm host: proofs go to the program, which compares the public inputs in their header. -/
def unlinkedEnv : StwoEnv where
  linked := false
  found _ := true
  starkValid proof inst := slice proof 10 (10 + inst.length) == inst

/-- An element for height 9 whose proof was made for its own period, height and ticket. -/
def provenTicket (ticket proposer : Bytes) : Bytes :=
  encodeSSLE ⟨0, 9, ticket, proposer, headerOf ssleStwo (packSSLE 0 9 ticket)⟩

/-- The block of an honest proposer. -/
def honestTicket (proposer : Bytes) : Bytes := provenTicket (ssleTicket 0 9 proposer) proposer

theorem accepted_ticket_opens_honest :
    revealProposerAfterBlock unlinkedEnv (periodFromHeight 600 9) 9 (honestTicket [1, 2, 3]) = .ok [1, 2, 3] := by
  have hfacts : findSSLE [honestTicket [1, 2, 3]] =
        some (⟨0, 9, ssleTicket 0 9 [1, 2, 3], [1, 2, 3],
          headerOf ssleStwo (packSSLE 0 9 (ssleTicket 0 9 [1, 2, 3]))⟩, 0) ∧
      checkSSLE unlinkedEnv 600 9 [honestTicket [1, 2, 3]] = .ok () ∧ ssleTicket 0 9 [1, 2, 3] ≠ [1, 2, 3] := by
    decide +kernel
  obtain ⟨hf, hok, hne⟩ := hfacts
  have hone : OneProposer [honestTicket [1, 2, 3]] [1, 2, 3] := by
    intro tx htx b hb
    obtain ⟨tx', htx', hd⟩ := findSSLE_eq_some hf
    obtain rfl := Option.some.inj htx'
    rw [List.mem_singleton.mp htx, hd] at hb
    exact (congrArg SSLEBlob.proposer (Option.some.inj hb)).symm
  exact ((accepted_ticket_opens_iff hf rfl hok).mpr ⟨⟨by decide, by decide, rfl, hne⟩, hone⟩).1

/-- A proven ticket that is not the hash of its proposer. -/
def strayTicket : Bytes := provenTicket (List.replicate 32 7) [1, 2, 3]

/-- A proven ticket without a proposer. -/
def namelessTicket : Bytes := provenTicket (List.replicate 32 7) []

/-- Although every proof verified is bound to its period, height and ticket, a block is accepted
with a ticket of no one, with no proposer, and with a second element for another proposer. -/
theorem accepted_tickets_do_not_open :
    (∀ proof period height ticket, verifySSLEProof unlinkedEnv proof period height ticket = .ok () →
      headerPI ssleStwo proof = some (packSSLE period height ticket)) ∧
    (checkSSLE unlinkedEnv 600 9 [strayTicket] = .ok () ∧
      revealProposerAfterBlock unlinkedEnv (periodFromHeight 600 9) 9 strayTicket =
        .error "leanval: ssle ticket != H(period,height,proposer)") ∧
    (checkSSLE unlinkedEnv 600 9 [namelessTicket] = .ok () ∧ (decodeSSLE namelessTicket).map (·.proposer) = some [] ∧
      revealProposerAfterBlock unlinkedEnv (periodFromHeight 600 9) 9 namelessTicket ≠ .ok []) ∧
    (checkSSLE unlinkedEnv 600 9 [honestTicket [1, 2, 3], honestTicket [4]] = .ok () ∧
      revealProposerAfterBlock unlinkedEnv (periodFromHeight 600 9) 9 (honestTicket [1, 2, 3]) = .ok [1, 2, 3] ∧
      revealProposerAfterBlock unlinkedEnv (periodFromHeight 600 9) 9 (honestTicket [4]) = .ok [4]) := by
  refine ⟨?_, by decide +kernel⟩
  intro proof period height ticket hv
  obtain ⟨hc, hhost | ⟨_, hprog⟩⟩ := verifyNamedStwo_eq_ok.mp hv
  · exact absurd (verifyStwoInProcess_eq_ok.mp hhost).1 (by decide)
  · exact ((verifyKind_eq_ok hc).mp hprog).2.1

end Terpz.Leanval.Keeper
