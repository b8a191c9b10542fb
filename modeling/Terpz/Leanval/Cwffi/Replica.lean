import Terpz.Leanval.Keeper.Reach
import Terpz.Leanval.Cwffi.Driver

/-! Two replicas that decide one payload. The request each hands to its application is fixed by
the payload and the committee, up to three local inputs: the clock, the node's own address and
the signers that its copy of the certificate credits. -/
namespace Terpz.Leanval.Cwffi
open Lib

/-- How a decided payload reaches a replica: from its own engine, or fetched from a peer. -/
inductive Arrival where
  | finalize (epoch : UInt64) (digest cert : Bytes)
  | applyRemote (cert : Bytes)

namespace Arrival

def call (payload : Bytes) : Arrival → Call
  | .finalize epoch digest cert => .finalize epoch digest payload cert
  | .applyRemote cert => .applyRemote payload cert

def epoch : Arrival → UInt64
  | .finalize epoch _ _ => epoch
  | .applyRemote _ => 0

def cert : Arrival → Bytes
  | .finalize _ _ cert => cert
  | .applyRemote cert => cert

/-- The digest the block is executed under. -/
def digest (payload : Bytes) : Arrival → Bytes
  | .finalize _ digest _ => if digest.length ≠ 32 then sha256 payload else digest
  | .applyRemote _ => sha256 payload

end Arrival

/-- No two seats of a committee have one address. -/
def DistinctAddresses (pks : Bytes) : Prop :=
  ∀ i j a b, keyAt pks i = some a → keyAt pks j = some b → address a = address b → i = j

/-- The seats a certificate credits with a vote, in its own order. -/
def credited (pks cert : Bytes) : List UInt32 :=
  ((parseLeanCert cert).1.signers.filter (fun s => (keyAt pks s.index).isSome && !isZeroSig s.signature)).map (·.index)

def seatVote (pks : Bytes) (weights : List UInt64) (i : UInt32) : VoteInfo :=
  ⟨⟨address ((keyAt pks i).getD []), votePower weights i⟩, .commit⟩

theorem votes_eq_credited (pks : Bytes) (weights : List UInt64) (cert : Bytes) :
    (lastCommitFromCert (parseLeanCert cert).1 pks weights).votes = (credited pks cert).map (seatVote pks weights) := by
  simp only [lastCommitFromCert, credited]
  induction (parseLeanCert cert).1.signers with
  | nil => rfl
  | cons s signers ih =>
    rw [List.filterMap_cons, List.filter_cons]
    cases hk : keyAt pks s.index with
    | none => simpa [voteOf, hk] using ih
    | some pk =>
      cases hz : isZeroSig s.signature with
      | true => simpa [voteOf, hk, hz] using ih
      | false => simpa [voteOf, seatVote, hk, hz] using ih

private theorem map_inj_on {α β : Type} {f : α → β} {l m : List α} (hf : ∀ x ∈ l, ∀ y ∈ m, f x = f y → x = y)
    (h : l.map f = m.map f) : l = m := by
  induction l generalizing m with
  | nil => exact (List.map_eq_nil_iff.mp h.symm).symm
  | cons x l ih =>
    cases m with
    | nil => cases h
    | cons y m =>
      obtain ⟨hxy, hlm⟩ := List.cons.inj h
      rw [hf x List.mem_cons_self y List.mem_cons_self hxy,
        ih (fun a ha b hb => hf a (List.mem_cons_of_mem _ ha) b (List.mem_cons_of_mem _ hb)) hlm]

theorem credited_seat {pks cert : Bytes} {i : UInt32} (h : i ∈ credited pks cert) : ∃ pk, keyAt pks i = some pk := by
  obtain ⟨s, hs, rfl⟩ := List.mem_map.mp h
  have hs := (List.mem_filter.mp hs).2
  rw [Bool.and_eq_true] at hs
  exact Option.isSome_iff_exists.mp hs.1

/-- With distinct addresses the votes name the credited seats. -/
theorem votes_eq_iff {pks c1 c2 : Bytes} {weights : List UInt64} (h : DistinctAddresses pks) :
    lastCommitFromCert (parseLeanCert c1).1 pks weights = lastCommitFromCert (parseLeanCert c2).1 pks weights ↔
      credited pks c1 = credited pks c2 := by
  have hvotes : lastCommitFromCert (parseLeanCert c1).1 pks weights =
      lastCommitFromCert (parseLeanCert c2).1 pks weights ↔
      (credited pks c1).map (seatVote pks weights) = (credited pks c2).map (seatVote pks weights) := by
    rw [← votes_eq_credited, ← votes_eq_credited]
    simp [lastCommitFromCert]
  rw [hvotes]
  constructor
  · apply map_inj_on
    intro i hi j hj he
    obtain ⟨a, ha⟩ := credited_seat hi
    obtain ⟨b, hb⟩ := credited_seat hj
    have he := congrArg (fun v => v.validator.address) he
    simp only [seatVote, ha, hb, Option.getD_some] at he
    exact h i j a b ha hb he
  · intro he
    rw [he]

section Agreement
variable {σ : Type} {app : EngineApp σ} {n : Node σ} {now : Int} {payload : Bytes}

/-- The request of an arrival that reaches the application. -/
theorem arrival_request {a : Arrival} {req : RequestFinalizeBlock}
    (h : req ∈ requests (n.call app now (a.call payload)).2) :
    ∃ p, decodePayload payload = .ok p ∧ req =
      { txs := p.txs, hash := a.digest payload, height := p.height, time := now,
        proposerAddress := n.driver.proposer,
        decidedLastCommit := lastCommitFromCert (parseLeanCert a.cert).1 (n.participantsAndWeights a.epoch).1
          (n.participantsAndWeights a.epoch).2 } := by
  have hdec : ∃ digest remote dec, n.decision a.epoch digest payload a.cert remote = some dec ∧
      req = dec.request now n.driver.proposer ∧
          (if digest.length ≠ 32 then sha256 payload else digest) = a.digest payload := by
    cases a with
    | finalize epoch digest cert =>
      obtain ⟨dec, hd, hr⟩ := mem_requests_finalizeWith.mp h
      exact ⟨digest, false, dec, hd, hr, rfl⟩
    | applyRemote cert =>
      simp only [Arrival.call, Node.call, Node.applyRemote] at h
      split at h
      · cases h
      · obtain ⟨dec, hd, hr⟩ := mem_requests_finalizeWith.mp h
        exact ⟨sha256 payload, true, dec, hd, hr, by simp [Arrival.digest]⟩
  obtain ⟨digest, remote, dec, hd, rfl, hdig⟩ := hdec
  obtain ⟨hp, _, hdigest, hpart, hparse, _⟩ := decision_eq_some hd
  refine ⟨dec.payload, hp, ?_⟩
  rw [← hpart, ← hparse, ← hdig, ← hdigest]
  rfl

/-- Two replicas with one committee that execute one payload under one digest send the same
request exactly when their clocks, their own addresses and their credited signers agree. -/
theorem replica_requests_eq_iff {n1 n2 : Node σ} {now1 now2 : Int} {a1 a2 : Arrival} {payload : Bytes}
    {r1 r2 : RequestFinalizeBlock}
    (hcommittee : n1.participantsAndWeights a1.epoch = n2.participantsAndWeights a2.epoch)
    (hdigest : a1.digest payload = a2.digest payload) (haddr : DistinctAddresses (n1.participantsAndWeights a1.epoch).1)
    (h1 : r1 ∈ requests (n1.call app now1 (a1.call payload)).2)
    (h2 : r2 ∈ requests (n2.call app now2 (a2.call payload)).2) :
    r1 = r2 ↔ now1 = now2 ∧ n1.driver.proposer = n2.driver.proposer ∧
      credited (n1.participantsAndWeights a1.epoch).1 a1.cert =
          credited (n1.participantsAndWeights a1.epoch).1 a2.cert := by
  obtain ⟨p, hp, rfl⟩ := arrival_request h1
  obtain ⟨p', hp', rfl⟩ := arrival_request h2
  obtain rfl := Except.ok.inj (hp.symm.trans hp')
  rw [← hcommittee, hdigest]
  simp only [RequestFinalizeBlock.mk.injEq, true_and, votes_eq_iff haddr]

end Agreement

theorem distinctAddresses_of_nodup {pks : Bytes}
    (h : ((List.range (pks.length / 32)).map (fun i => address ((pks.drop (i * 32)).take 32))).Nodup) :
    DistinctAddresses pks := by
  intro i j a b ha hb he
  simp only [keyAt, Option.ite_none_left_eq_some] at ha hb
  obtain ⟨hi, ha⟩ := ha
  obtain ⟨hj, hb⟩ := hb
  obtain rfl := Option.some.inj ha
  obtain rfl := Option.some.inj hb
  apply UInt32.toNat_inj.mp
  exact List.inj_on_of_nodup_map h (List.mem_range.mpr (by omega)) (List.mem_range.mpr (by omega)) he

/-- An application that accepts every block and never changes. -/
def idleApp (σ : Type) : EngineApp σ where
  lastBlockHeight _ := none
  prepareProposal a req := (a, .ok (some req.txs))
  processProposal a _ := (a, .ok (some .accept))
  finalizeBlock a _ := (a, .ok ())
  commit a := (a, .ok ())
  checkTx a _ := (a, .ok (some 0))

/-- The four-validator committee of equal weights. -/
def quadStore : Store :=
  Keeper.genesisStore ∅ ⟨true, [0xa1, 0xb2, 0xc3, 0xd4].map (fun b => ⟨Keeper.keyOf b, 10⟩), 0⟩

/-- A fresh replica of the committee, with a verifier that accepts the certificates it is shown. -/
def quadNode (proposer : Bytes) : Node Store :=
  ⟨{ newDriver (idleApp Store) quadStore proposer with
      storeQuery := some subspaceQuery, verifyCert := some (fun _ _ _ => true) }, quadStore⟩

def emptyBlock : Bytes := Payload.encode ⟨1, []⟩

/-- A certificate of the empty block, signed by the seats. -/
def quadCert (seats : List UInt32) : Bytes :=
  encodeLcert ⟨0, 1, sha256 emptyBlock, seats.map (fun i => ⟨i, List.replicate 64 0x51⟩), []⟩

def quadRequests (proposer : Bytes) (now : Int) (a : Arrival) : List RequestFinalizeBlock :=
  requests ((quadNode proposer).call (idleApp Store) now (a.call emptyBlock)).2

/-- One committee, one payload, one digest: the requests differ in time when the clocks do, in
proposer when the nodes do, and in votes when the certificates list other seats. -/
theorem replica_requests_differ :
    (∃ r1 ∈ quadRequests [1] 100 (.finalize 0 (sha256 emptyBlock) (quadCert [0, 1, 2])),
      ∃ r2 ∈ quadRequests [1] 101 (.finalize 0 (sha256 emptyBlock) (quadCert [0, 1, 2])), r1.time ≠ r2.time) ∧
    (∃ r1 ∈ quadRequests [1] 100 (.finalize 0 (sha256 emptyBlock) (quadCert [0, 1, 2])),
      ∃ r2 ∈ quadRequests [2] 100 (.finalize 0 (sha256 emptyBlock) (quadCert [0, 1, 2])),
        r1.proposerAddress ≠ r2.proposerAddress) ∧
    (∃ r1 ∈ quadRequests [1] 100 (.finalize 0 (sha256 emptyBlock) (quadCert [0, 1, 2])),
      ∃ r2 ∈ quadRequests [1] 100 (.applyRemote (quadCert [1, 2, 3])), r1.decidedLastCommit ≠
          r2.decidedLastCommit) := by
  decide +kernel

private theorem quad_committee :
    ((List.range (((quadNode [1]).participantsAndWeights 0).1.length / 32)).map
      (fun i => address ((((quadNode [1]).participantsAndWeights 0).1.drop (i * 32)).take 32))).Nodup ∧
    credited ((quadNode [1]).participantsAndWeights 0).1 (quadCert [0, 1, 2]) =
      credited ((quadNode [1]).participantsAndWeights 0).1 (quadCert [0, 1, 2] ++ [0xff]) ∧
    quadRequests [1] 100 (.finalize 0 (sha256 emptyBlock) (quadCert [0, 1, 2])) ≠ [] ∧
    quadRequests [1] 100 (.applyRemote (quadCert [0, 1, 2] ++ [0xff])) ≠ [] := by
  decide +kernel

/-- The two ways in, with one clock, one address and certificates that credit the same seats. -/
theorem replica_requests_eq_same_seats :
    ∃ r1 ∈ quadRequests [1] 100 (.finalize 0 (sha256 emptyBlock) (quadCert [0, 1, 2])),
      ∃ r2 ∈ quadRequests [1] 100 (.applyRemote (quadCert [0, 1, 2] ++ [0xff])), r1 = r2 := by
  obtain ⟨haddr, hseats, h1, h2⟩ := quad_committee
  obtain ⟨r1, h1⟩ := List.exists_mem_of_ne_nil _ h1
  obtain ⟨r2, h2⟩ := List.exists_mem_of_ne_nil _ h2
  refine ⟨r1, h1, r2, h2, ?_⟩
  have hdigest : (Arrival.finalize 0 (sha256 emptyBlock) (quadCert [0, 1, 2])).digest emptyBlock =
      (Arrival.applyRemote (quadCert [0, 1, 2] ++ [0xff])).digest emptyBlock := by
    simp [Arrival.digest]
  unfold quadRequests at h1 h2
  refine (replica_requests_eq_iff ?_ hdigest ?_ h1 h2).mpr ⟨rfl, rfl, ?_⟩
  · rfl
  · simp only [Arrival.epoch]
    exact distinctAddresses_of_nodup haddr
  · simp only [Arrival.epoch, Arrival.cert]
    exact hseats

end Terpz.Leanval.Cwffi
