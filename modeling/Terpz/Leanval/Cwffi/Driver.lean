import Terpz.Lib.Sha256
import Terpz.Leanval.Cwffi.Cert
import Terpz.Leanval.Cwffi.Payload
import Terpz.Leanval.Cwffi.Participants

/-! The driver that maps simplex onto an ABCI application. Every method holds the driver's
mutex to its last application call, so a run is a sequence of whole calls. -/
namespace Terpz.Leanval.Cwffi
open Lib Function

inductive BlockIDFlag where
  | unknown | absent | commit | nil
  deriving DecidableEq, Repr

structure Validator where
  address : Bytes
  power : Int64
  deriving DecidableEq, Repr

structure VoteInfo where
  validator : Validator
  blockIdFlag : BlockIDFlag
  deriving DecidableEq, Repr

structure CommitInfo where
  round : Int32
  votes : List VoteInfo
  deriving DecidableEq, Repr

structure RequestPrepareProposal where
  height : Int64
  time : Int
  maxTxBytes : Int64
  txs : List Bytes
  proposerAddress : Bytes

structure RequestProcessProposal where
  txs : List Bytes
  hash : Bytes
  height : Int64
  time : Int
  proposerAddress : Bytes

structure RequestFinalizeBlock where
  txs : List Bytes
  hash : Bytes
  height : Int64
  time : Int
  proposerAddress : Bytes
  decidedLastCommit : CommitInfo
  deriving DecidableEq, Repr

inductive ProposalStatus where
  | unknown | accept | reject
  deriving DecidableEq, Repr

/-- Any application: what each call does to its state, and how it answers. An inner `none`
is a nil response. -/
structure EngineApp (σ : Type) where
  lastBlockHeight : σ → Option Int64
  prepareProposal : σ → RequestPrepareProposal → σ × Except String (Option (List Bytes))
  processProposal : σ → RequestProcessProposal → σ × Except String (Option ProposalStatus)
  finalizeBlock : σ → RequestFinalizeBlock → σ × Except String Unit
  commit : σ → σ × Except String Unit
  checkTx : σ → Bytes → σ × Except String (Option UInt32)

structure CommittedBlock where
  payload : Bytes
  cert : Bytes
  deriving DecidableEq, Repr

abbrev VerifyCert := Bytes → List UInt64 → Bytes → Bool

structure Driver (σ : Type) where
  proposer : Bytes
  next : Int64
  lastCert : LeanCert
  lastCertRaw : Bytes
  lastPks : Bytes
  lastWeights : List UInt64
  lastPayload : Bytes
  mempool : List Bytes
  committed : Int64 → Option CommittedBlock
  storeQuery : Option (σ → StoreQuery)
  conflicts : Nat
  verifyCert : Option VerifyCert

/-- A driver beside the application it drives. -/
structure Node (σ : Type) where
  driver : Driver σ
  app : σ

/-- The calls into the application that decide a block, and the notice after it. -/
inductive AppCall where
  | finalizeBlock (req : RequestFinalizeBlock)
  | commit
  | onCommit (height : Int64)
  deriving DecidableEq, Repr

/-- The blocks handed to the application. -/
def requests (calls : List AppCall) : List RequestFinalizeBlock :=
  calls.filterMap (fun
    | .finalizeBlock req => some req
    | _ => none)

/-- Assumed of the ed25519 keys of CometBFT: an address is the first 20 bytes of the SHA-256 of the key. -/
def address (pk : Bytes) : Bytes := (sha256 pk).take 20

/-- The empty signature counts as zero. -/
def isZeroSig (sig : Bytes) : Bool := sig.all (· == 0)

/-- The power of a signer: its weight as a signed word, or 1 when that is not positive. -/
def votePower (weights : List UInt64) (idx : UInt32) : Int64 :=
  let power := ((weights[idx.toNat]?).getD 0).toInt64
  if power ≤ 0 then 1 else power

def voteOf (pks : Bytes) (weights : List UInt64) (s : CertSigner) : Option VoteInfo :=
  match keyAt pks s.index with
  | none => none
  | some pk => if isZeroSig s.signature then none else some ⟨⟨address pk, votePower weights s.index⟩, .commit⟩

def lastCommitFromCert (c : LeanCert) (pks : Bytes) (weights : List UInt64) : CommitInfo :=
  ⟨0, c.signers.filterMap (voteOf pks weights)⟩

/-- What a decided block has passed the driver's checks with. -/
structure Decision where
  payload : Payload
  digest : Bytes
  pks : Bytes
  weights : List UInt64
  parsed : LeanCert
  parseError : Option String

def Decision.request (d : Decision) (now : Int) (proposer : Bytes) : RequestFinalizeBlock where
  txs := d.payload.txs
  hash := d.digest
  height := d.payload.height
  time := now
  proposerAddress := proposer
  decidedLastCommit := lastCommitFromCert d.parsed d.pks d.weights

section
variable {σ : Type} (app : EngineApp σ)

def newDriver (a : σ) (proposer : Bytes) : Driver σ where
  proposer := proposer
  next := match app.lastBlockHeight a with
    | none => 1
    | some h => if h < 1 then 1 else h + 1
  lastCert := .zero
  lastCertRaw := []
  lastPks := []
  lastWeights := []
  lastPayload := []
  mempool := []
  committed _ := none
  storeQuery := none
  conflicts := 0
  verifyCert := none

/-- The committee's keys as the store shows them; without a query there are none. -/
def Node.participants (n : Node σ) (epoch : UInt64) : Bytes :=
  match n.driver.storeQuery with
  | none => []
  | some q => bondedParticipants (q n.app) epoch

def Node.participantsWeights (n : Node σ) (epoch : UInt64) : Bytes × List UInt64 :=
  match n.driver.storeQuery with
  | none => ([], [])
  | some q => bondedParticipantsWeights (q n.app) epoch

/-- The committee read from the store, or the last one when the store shows none. -/
def Node.participantsAndWeights (n : Node σ) (epoch : UInt64) : Bytes × List UInt64 :=
  match n.driver.storeQuery with
  | none => (n.driver.lastPks, n.driver.lastWeights)
  | some q =>
    let (pks, w) := bondedParticipantsWeights (q n.app) epoch
    if pks.length = 0 then (n.driver.lastPks, n.driver.lastWeights) else (pks, w)

/-- A remote certificate is verified only by a verifier that is installed. -/
def remoteRefused (verifyCert : Option VerifyCert) (pks : Bytes) (weights : List UInt64) (cert : Bytes) : Bool :=
  cert.length == 0 || (match verifyCert with
    | none => false
    | some v => !v pks weights cert)

/-- The two-thirds check, made for a certificate that parsed and lists signers. -/
def underweight (parsed : LeanCert) (perr : Option String) (weights : List UInt64) : Bool :=
  perr.isNone && decide (parsed.signers.length > 0) && decide (totalWeight weights > 0) &&
    !meetsWeight (signedWeight parsed weights) (totalWeight weights)

/-- The checks before the application is called; `none` is a silent return. -/
def Node.decision (n : Node σ) (epoch : UInt64) (digest payload cert : Bytes) (remote : Bool) : Option Decision :=
  match decodePayload payload with
  | .error _ => none
  | .ok p =>
    if n.driver.next > 0 ∧ p.height < n.driver.next then none
    else if n.driver.next > 0 ∧ p.height ≠ n.driver.next then none
    else
      let digest := if digest.length ≠ 32 then sha256 payload else digest
      let (pks, weights) := n.participantsAndWeights epoch
      let (parsed, perr) := parseLeanCert cert
      if remote && remoteRefused n.driver.verifyCert pks weights cert then none
      else if underweight parsed perr weights then none
      else some ⟨p, digest, pks, weights, parsed, perr⟩

/-- The driver after the application committed the block. -/
def Driver.record (d : Driver σ) (dec : Decision) (payload cert : Bytes) : Driver σ :=
  { d with
    mempool := d.mempool.filter (fun tx => !(dec.payload.txs.map sha256).contains (sha256 tx))
    lastCert := if dec.parseError.isNone then dec.parsed else d.lastCert
    lastCertRaw :=
      if dec.parseError.isNone then (if dec.parsed.raw.length > 0 then dec.parsed.raw else cert)
      else if cert.length > 0 then cert else d.lastCertRaw
    lastPks := dec.pks
    lastWeights := dec.weights
    committed := update d.committed dec.payload.height (some ⟨payload, cert⟩)
    next := dec.payload.height + 1 }

/-- An application error leaves the driver as it was. -/
def Node.finalizeWith (n : Node σ) (now : Int) (epoch : UInt64) (digest payload cert : Bytes) (remote : Bool) :
    Node σ × List AppCall :=
  match n.decision epoch digest payload cert remote with
  | none => (n, [])
  | some dec =>
    let req := dec.request now n.driver.proposer
    match app.finalizeBlock n.app req with
    | (a, .error _) => (⟨n.driver, a⟩, [.finalizeBlock req])
    | (a, .ok _) =>
      match app.commit a with
      | (a, .error _) => (⟨n.driver, a⟩, [.finalizeBlock req, .commit])
      | (a, .ok _) =>
        (⟨n.driver.record dec payload cert, a⟩, [.finalizeBlock req, .commit, .onCommit dec.payload.height])

def Node.finalize (n : Node σ) (now : Int) (epoch : UInt64) (digest payload cert : Bytes) : Node σ × List AppCall :=
  n.finalizeWith app now epoch digest payload cert false

def Node.applyRemote (n : Node σ) (now : Int) (payload cert : Bytes) : Node σ × List AppCall :=
  if payload.length = 0 ∨ cert.length = 0 then (n, [])
  else n.finalizeWith app now 0 (sha256 payload) payload cert true

def Node.propose (n : Node σ) (now : Int) : Node σ × Except String (Bytes × Bytes) :=
  let h := if n.driver.next < 1 then 1 else n.driver.next
  match app.prepareProposal n.app ⟨h, now, 4194304, n.driver.mempool, n.driver.proposer⟩ with
  | (a, .error e) => (⟨n.driver, a⟩, .error e)
  | (a, .ok none) => (⟨n.driver, a⟩, .error "lean-cw: nil PrepareProposal")
  | (a, .ok (some txs)) =>
    let raw := Payload.encode ⟨h, txs⟩
    (⟨{ n.driver with lastPayload := raw }, a⟩, .ok (sha256 raw, raw))

/-- The payload is remembered before it is checked. -/
def Node.verify (n : Node σ) (now : Int) (digest payload : Bytes) : Node σ × Bool :=
  let d := { n.driver with lastPayload := payload }
  if containsDSTW payload then (⟨d, n.app⟩, false)
  else
    match decodePayload payload with
    | .error _ => (⟨d, n.app⟩, false)
    | .ok p =>
      if digest.length = 32 ∧ sha256 payload ≠ digest then (⟨d, n.app⟩, false)
      else
        match app.processProposal n.app ⟨p.txs, digest, p.height, now, n.driver.proposer⟩ with
        | (a, .ok (some status)) => (⟨d, a⟩, status == .accept)
        | (a, _) => (⟨d, a⟩, false)

/-- The digest asked about plays no part. -/
def Node.certify (n : Node σ) : Bool := !containsDSTW n.driver.lastPayload

/-- Kind 7 is a conflicting activity. -/
def Node.report (n : Node σ) (kind : UInt32) : Node σ :=
  if kind = 7 then { n with driver := { n.driver with conflicts := n.driver.conflicts + 1 } } else n

def Driver.addTx (d : Driver σ) (tx : Bytes) : Driver σ :=
  if (d.mempool.map sha256).contains (sha256 tx) then d else { d with mempool := d.mempool ++ [tx] }

def Node.checkTx (n : Node σ) (tx : Bytes) : Node σ × Except String (Option UInt32) :=
  match app.checkTx n.app tx with
  | (a, .ok (some code)) =>
    (⟨if code = 0 ∧ tx.length > 0 then n.driver.addTx tx else n.driver, a⟩, .ok (some code))
  | (a, r) => (⟨n.driver, a⟩, r)

def Node.setVerifyCert (n : Node σ) (v : VerifyCert) : Node σ :=
  { n with driver := { n.driver with verifyCert := some v } }

inductive Call where
  | propose
  | verify (digest payload : Bytes)
  | certify (digest : Bytes)
  | report (kind : UInt32)
  | checkTx (tx : Bytes)
  | setVerifyCert (v : VerifyCert)
  | finalize (epoch : UInt64) (digest payload cert : Bytes)
  | applyRemote (payload cert : Bytes)

/-- The bytes a call hands in for a block. -/
def Call.block : Call → Option CommittedBlock
  | .finalize _ _ payload cert => some ⟨payload, cert⟩
  | .applyRemote payload cert => some ⟨payload, cert⟩
  | _ => none

/-- A call at a reading of the local clock: the node after it, and the block calls it made. -/
def Node.call (n : Node σ) (now : Int) : Call → Node σ × List AppCall
  | .propose => ((n.propose app now).1, [])
  | .verify digest payload => ((n.verify app now digest payload).1, [])
  | .certify _ => (n, [])
  | .report kind => (n.report kind, [])
  | .checkTx tx => ((n.checkTx app tx).1, [])
  | .setVerifyCert v => (n.setVerifyCert v, [])
  | .finalize epoch digest payload cert => n.finalize app now epoch digest payload cert
  | .applyRemote payload cert => n.applyRemote app now payload cert

def nodeStep (n : Node σ) (c : Int × Call) : Node σ := (n.call app c.1 c.2).1

end

section Calls
variable {σ : Type} {app : EngineApp σ} {n : Node σ} {now : Int} {epoch : UInt64} {digest payload cert : Bytes}
  {remote : Bool}

section Query
variable {q : σ → StoreQuery} (hq : n.driver.storeQuery = some q) (epoch : UInt64)
include hq

theorem participants_of_query : n.participants epoch = (bondedParticipantsWeights (q n.app) epoch).1 := by
  rw [Node.participants, hq]
  rfl

theorem participantsWeights_of_query : n.participantsWeights epoch = bondedParticipantsWeights (q n.app) epoch := by
  rw [Node.participantsWeights, hq]

theorem participantsAndWeights_of_query (hne : (bondedParticipantsWeights (q n.app) epoch).1.length ≠ 0) :
    n.participantsAndWeights epoch = bondedParticipantsWeights (q n.app) epoch := by
  rw [Node.participantsAndWeights, hq]
  simp only
  rw [if_neg hne]

end Query

/-- Everything a decided block has passed. -/
theorem decision_eq_some {dec : Decision} (h : n.decision epoch digest payload cert remote = some dec) :
    decodePayload payload = .ok dec.payload ∧ (n.driver.next > 0 → dec.payload.height = n.driver.next) ∧
    dec.digest = (if digest.length ≠ 32 then sha256 payload else digest) ∧
    (dec.pks, dec.weights) = n.participantsAndWeights epoch ∧
    (dec.parsed, dec.parseError) = parseLeanCert cert ∧
    (remote = true → remoteRefused n.driver.verifyCert dec.pks dec.weights cert = false) ∧
    underweight dec.parsed dec.parseError dec.weights = false := by
  unfold Node.decision at h
  cases hp : decodePayload payload with
  | error e =>
    rw [hp] at h
    cases h
  | ok p =>
    simp only [hp, Option.ite_none_left_eq_some] at h
    obtain ⟨_, hh, hr, hu, hd⟩ := h
    obtain rfl := Option.some.inj hd
    refine ⟨rfl, ?_, rfl, rfl, rfl, ?_, by simpa using hu⟩
    · intro hn
      by_contra hne
      exact hh ⟨hn, hne⟩
    · rintro rfl
      simpa using hr

theorem mem_requests_finalizeWith {req : RequestFinalizeBlock} :
    req ∈ requests (n.finalizeWith app now epoch digest payload cert remote).2 ↔
      ∃ dec, n.decision epoch digest payload cert remote = some dec ∧ req = dec.request now n.driver.proposer := by
  unfold Node.finalizeWith
  cases n.decision epoch digest payload cert remote with
  | none => simp [requests]
  | some dec =>
    simp only [Option.some.injEq, exists_eq_left']
    rcases app.finalizeBlock n.app (dec.request now n.driver.proposer) with ⟨a, _ | _⟩
    · simp [requests]
    · simp only
      rcases app.commit a with ⟨a', _ | _⟩ <;> simp [requests]

/-- Committing is reached only behind a decision. -/
theorem mem_finalizeWith_commit (h : .commit ∈ (n.finalizeWith app now epoch digest payload cert remote).2) :
    ∃ dec, n.decision epoch digest payload cert remote = some dec := by
  unfold Node.finalizeWith at h
  cases hd : n.decision epoch digest payload cert remote with
  | none =>
    rw [hd] at h
    cases h
  | some dec => exact ⟨dec, rfl⟩

private theorem finalizeWith_wiring (n : Node σ) (now : Int) (epoch : UInt64) (digest payload cert : Bytes)
    (remote : Bool) :
    (n.finalizeWith app now epoch digest payload cert remote).1.driver.storeQuery = n.driver.storeQuery ∧
    (n.finalizeWith app now epoch digest payload cert remote).1.driver.verifyCert = n.driver.verifyCert := by
  unfold Node.finalizeWith
  split
  · exact ⟨rfl, rfl⟩
  · simp only
    split
    · exact ⟨rfl, rfl⟩
    · split <;> exact ⟨rfl, rfl⟩

/-- A proposal is remembered, and nothing else. -/
theorem propose_driver (n : Node σ) (now : Int) : (n.propose app now).1.driver =
    { n.driver with lastPayload := ((n.propose app now).2.toOption.map Prod.snd).getD n.driver.lastPayload } := by
  unfold Node.propose
  simp only
  split <;> rfl

theorem verify_driver (n : Node σ) (now : Int) (digest payload : Bytes) :
    (n.verify app now digest payload).1.driver = { n.driver with lastPayload := payload } := by
  unfold Node.verify
  simp only
  split
  · rfl
  · split
    · rfl
    · split
      · rfl
      · split <;> rfl

theorem report_driver (n : Node σ) (kind : UInt32) : (n.report kind).driver =
    { n.driver with conflicts := if kind = 7 then n.driver.conflicts + 1 else n.driver.conflicts } := by
  unfold Node.report
  split <;> rfl

/-- A transaction that the application takes goes to the mempool, unless it is there. -/
theorem checkTx_driver (n : Node σ) (tx : Bytes) : (n.checkTx app tx).1.driver =
    { n.driver with
      mempool := match (n.checkTx app tx).2 with
        | .ok (some code) => if code = 0 ∧ tx.length > 0 then (n.driver.addTx tx).mempool else n.driver.mempool
        | _ => n.driver.mempool } := by
  unfold Node.checkTx
  split
  · simp only [Driver.addTx]
    split
    · split <;> rfl
    · rfl
  · simp only

/-- The fields a call touches only by committing a block. -/
structure SameChain (d d' : Driver σ) : Prop where
  next : d'.next = d.next
  committed : d'.committed = d.committed

/-- A call without a block keeps the chain and the store query; only its setter changes the verifier. -/
theorem call_without_block (n : Node σ) (now : Int) (c : Call) : c.block = none →
    SameChain n.driver (n.call app now c).1.driver ∧
    (n.call app now c).1.driver.storeQuery = n.driver.storeQuery ∧
    (n.call app now c).1.driver.verifyCert = (match c with
      | .setVerifyCert v => some v
      | _ => n.driver.verifyCert) := by
  intro hb
  cases c with
  | propose =>
    rw [Node.call, propose_driver]
    exact ⟨⟨rfl, rfl⟩, rfl, rfl⟩
  | verify digest payload =>
    rw [Node.call, verify_driver]
    exact ⟨⟨rfl, rfl⟩, rfl, rfl⟩
  | certify digest => exact ⟨⟨rfl, rfl⟩, rfl, rfl⟩
  | report kind =>
    rw [Node.call, report_driver]
    exact ⟨⟨rfl, rfl⟩, rfl, rfl⟩
  | checkTx tx =>
    rw [Node.call, checkTx_driver]
    exact ⟨⟨rfl, rfl⟩, rfl, rfl⟩
  | setVerifyCert v => exact ⟨⟨rfl, rfl⟩, rfl, rfl⟩
  | finalize epoch digest payload cert => cases hb
  | applyRemote payload cert => cases hb

/-- No call changes the store query, and only its setter changes the verifier. -/
theorem call_wiring (n : Node σ) (now : Int) (c : Call) :
    (n.call app now c).1.driver.storeQuery = n.driver.storeQuery ∧
    (n.call app now c).1.driver.verifyCert = (match c with
      | .setVerifyCert v => some v
      | _ => n.driver.verifyCert) := by
  cases hb : c.block with
  | none => exact (call_without_block n now c hb).2
  | some blk =>
    cases c with
    | propose | verify | certify | report | checkTx | setVerifyCert => cases hb
    | finalize epoch digest payload cert => exact finalizeWith_wiring ..
    | applyRemote payload cert =>
      simp only [Node.call, Node.applyRemote]
      split
      · exact ⟨rfl, rfl⟩
      · exact finalizeWith_wiring ..

end Calls

end Terpz.Leanval.Cwffi
