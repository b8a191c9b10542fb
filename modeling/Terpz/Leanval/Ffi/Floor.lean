import Terpz.Leanval.Ffi.Dissemination
import Terpz.Leanval.Cwffi.EngineNamespace

/-! The floor of an epoch. An engine starts above the last certificate its node holds: inside an epoch from that
finalization, in a new epoch from a genesis that is the hash of it. -/
namespace Terpz.Leanval.Ffi
open Lib Lib.DoublingTree Function Cwffi

inductive Floor where
  | genesis (digest : Bytes)
  | finalized (f : Finalization)
  deriving DecidableEq

def genesisDigest : Bytes := sha256 applicationNamespace

/-- The floor of an engine whose committee has the given size. -/
def Commonware.chooseFloor (cw : Commonware) (size : Nat) (epoch : UInt64) (floorCert : Bytes) : Floor :=
  if floorCert.isEmpty then .genesis genesisDigest
  else
    match cw.decode size floorCert with
    | some f => if f.proposal.epoch = epoch then .finalized f else .genesis (sha256 (cw.encode f))
    | none => .genesis (sha256 floorCert)

/-- What the driver keeps of the certificate of a block: the raw finalization inside, or else all of it. -/
def certRaw (cert : Bytes) : Bytes :=
  if (parseLeanCert cert).2.isNone ∧ (parseLeanCert cert).1.raw.length > 0 then (parseLeanCert cert).1.raw else cert

section Driver
variable {σ : Type} {app : EngineApp σ}

private theorem record_lastCertRaw {n : Node σ} {epoch : UInt64} {digest payload cert : Bytes} {remote : Bool}
    {dec : Decision} (h : n.decision epoch digest payload cert remote = some dec) :
    (n.driver.record dec payload cert).lastCertRaw = if cert = [] then n.driver.lastCertRaw else certRaw cert := by
  obtain ⟨-, -, -, -, hparse, -⟩ := decision_eq_some h
  have hparsed : dec.parsed = (parseLeanCert cert).1 := congrArg Prod.fst hparse
  have herror : dec.parseError = (parseLeanCert cert).2 := congrArg Prod.snd hparse
  by_cases hcert : cert = []
  · subst hcert
    rw [if_pos rfl, Driver.record, hparsed, herror]
    rfl
  · have hlen : cert.length > 0 := List.length_pos_of_ne_nil hcert
    simp only [Driver.record, certRaw, hparsed, herror, hlen, if_true, if_neg hcert]
    by_cases hnone : (parseLeanCert cert).2.isNone = true
    · by_cases hraw : (parseLeanCert cert).1.raw.length > 0 <;> simp [hnone, hraw]
    · simp [hnone]

/-- What the driver keeps after some blocks. -/
def keptRaw (raw : Bytes) (log : List (Int64 × CommittedBlock)) : Bytes :=
  log.foldl (fun raw c => if c.2.cert = [] then raw else certRaw c.2.cert) raw

private theorem finalizeWith_lastCertRaw (n : Node σ) (now : Int) (epoch : UInt64) (digest payload cert : Bytes)
    (remote : Bool) :
    (n.finalizeWith app now epoch digest payload cert remote).1.driver.lastCertRaw =
      keptRaw n.driver.lastCertRaw
        ((committedHeights (n.finalizeWith app now epoch digest payload cert remote).2).filterMap
        (fun h => (some (⟨payload, cert⟩ : CommittedBlock)).map (h, ·))) := by
  rcases finalizeWith_cases app n now epoch digest payload cert remote with ⟨hh, hd⟩ | ⟨dec, hdec, hh, hd⟩
  · rw [hh, hd]
    rfl
  · rw [hh, hd]
    exact record_lastCertRaw hdec

theorem call_lastCertRaw (n : Node σ) (c : Int × Call) :
    (nodeStep app n c).driver.lastCertRaw = keptRaw n.driver.lastCertRaw (commits app n c) := by
  obtain ⟨now, c⟩ := c
  cases c with
  | propose =>
    rw [nodeStep, Node.call, propose_driver]
    rfl
  | verify digest payload =>
    rw [nodeStep, Node.call, verify_driver]
    rfl
  | report kind =>
    rw [nodeStep, Node.call, report_driver]
    rfl
  | checkTx tx =>
    rw [nodeStep, Node.call, checkTx_driver]
    rfl
  | certify | setVerifyCert => rfl
  | finalize epoch digest payload cert => exact finalizeWith_lastCertRaw ..
  | applyRemote payload cert =>
    simp only [nodeStep, commits, Node.call, Node.applyRemote]
    split
    · rfl
    · exact finalizeWith_lastCertRaw ..

/-- The driver keeps the raw certificate of the block it committed last. -/
theorem run_lastCertRaw (n : Node σ) (calls : List (Int × Call)) :
    (run (nodeStep app) n calls).driver.lastCertRaw = keptRaw n.driver.lastCertRaw (commitLog app n calls) := by
  induction calls generalizing n with
  | nil => rfl
  | cons c calls ih =>
    rw [run_cons, ih, call_lastCertRaw, commitLog, keptRaw, keptRaw, keptRaw, List.foldl_append]

end Driver

/-- The finalizations that a list of events reports. -/
def reported (evs : List Event) : List Finalization :=
  evs.filterMap (fun
    | .report _ (.finalization f) => some f
    | _ => none)

namespace Engine
variable {σ : Type}

/-- What `startEpoch` passes: the last certificate of this process, or else the file an earlier one has left. -/
def floorCert (e : Engine σ) : Bytes :=
  if e.node.driver.lastCertRaw.length = 0 then e.floorFile.getD [] else e.node.driver.lastCertRaw

section
variable {app : EngineApp σ} {cw : Commonware}

theorem encodeLcert_ne_nil (f : Finalization) : cw.encodeLcert f ≠ [] := List.cons_ne_nil _ _

/-- A finalization is written to the file when it is reported, before its block is executed. -/
theorem run_floorFile (hwire : ∀ f, cw.encode f ≠ []) (e : Engine σ) (evs : List Event) :
    (run (step app cw) e evs).floorFile = (((reported evs).getLast?).map cw.encode).or e.floorFile := by
  induction evs using List.reverseRecOn with
  | nil => rfl
  | append_singleton evs ev ih =>
    rw [run_append, run_cons, run_nil, reported, List.filterMap_append, List.getLast?_append, ← reported, ← reported]
    cases ev with
    | propose now =>
      rw [step, propose]
      split <;> exact ih
    | storeProposal k =>
      rw [step, storeProposal]
      split
      · exact ih
      · dsimp only
        split <;> exact ih
    | findPayload digest =>
      rw [step, findPayload]
      split <;> exact ih
    | verify now k =>
      rw [step, verify]
      split <;> exact ih
    | report now a =>
      cases a with
      | finalization f => exact if_neg (by simpa using hwire f)
      | _ => exact ih
    | _ => exact ih

end

/-- The process dies and another one takes over its data: the application's state and the file. -/
def crash (app : EngineApp σ) (e : Engine σ) : Engine σ :=
  { fresh (startNode app e.node.app e.node.driver.proposer e.node.driver.storeQuery) with floorFile := e.floorFile }

end Engine

section Rotation
variable {cw : Commonware}

/-- The certificate of a finalization that the driver can keep in full: it parses, and its length fits its field. -/
structure Keepable (cw : Commonware) (f : Finalization) : Prop where
  few : f.certificate.signers.iter.length ≤ 4096
  nonempty : cw.encode f ≠ []
  fits : (cw.encode f).length < 256 ^ 4

theorem certRaw_encodeLcert {f : Finalization} (h : Keepable cw f) : certRaw (cw.encodeLcert f) = cw.encode f := by
  have hparse : parseLeanCert (cw.encodeLcert f) = (f.leanCert (cw.encode f), none) := by
    rw [Commonware.encodeLcert, parse_encodeLcert (f.leanCert_framed h.few _)]
    simp only [Finalization.leanCert, Nat.mod_eq_of_lt h.fits, List.take_length]
  rw [certRaw, hparse]
  exact if_pos ⟨rfl, List.length_pos_of_ne_nil h.nonempty⟩

/-- In a new epoch the floor is the hash of the certificate, also when the new committee cannot decode it. -/
theorem chooseFloor_new_epoch {f : Finalization} {size : Nat} {epoch : UInt64} (hne : cw.encode f ≠ [])
    (hdecode : ∀ g, cw.decode size (cw.encode f) = some g → g = f) (hepoch : f.proposal.epoch ≠ epoch) :
    cw.chooseFloor size epoch (cw.encode f) = .genesis (sha256 (cw.encode f)) := by
  unfold Commonware.chooseFloor
  rw [if_neg (by simpa using hne)]
  split
  · next g hg =>
    obtain rfl := hdecode g hg
    exact if_neg hepoch
  · rfl

theorem chooseFloor_same_epoch {f : Finalization} {size : Nat} (hne : cw.encode f ≠ [])
    (hdecode : cw.decode size (cw.encode f) = some f) :
    cw.chooseFloor size f.proposal.epoch (cw.encode f) = .finalized f := by
  unfold Commonware.chooseFloor
  rw [if_neg (by simpa using hne), hdecode]
  exact if_pos rfl

end Rotation

/-- The last block of a run, and that its certificate is the LCERT of a finalization. -/
def LastCommitted {σ : Type} (app : EngineApp σ) (cw : Commonware) (e : Engine σ) (evs : List Event)
    (f : Finalization) :
    Prop := ∃ c, (trace (Engine.step app cw) (Engine.commits app cw) e evs).getLast? = some c ∧
      c.2.cert = cw.encodeLcert f

theorem floorCert_of_run {σ : Type} {app : EngineApp σ} {cw : Commonware} {e : Engine σ} {evs : List Event}
    {f : Finalization} (h : LastCommitted app cw e evs f) (hf : Keepable cw f) :
    (run (Engine.step app cw) e evs).floorCert = cw.encode f := by
  obtain ⟨c, hlast, hcert⟩ := h
  have hraw : (run (Engine.step app cw) e evs).node.driver.lastCertRaw = cw.encode f := by
    obtain ⟨init, hlog⟩ := List.getLast?_eq_some_iff.mp hlast
    rw [(Engine.run_node e evs).1, run_lastCertRaw, ← (Engine.run_node e evs).2, hlog, keptRaw, List.foldl_append,
      List.foldl_cons, List.foldl_nil, hcert, if_neg (Engine.encodeLcert_ne_nil f), certRaw_encodeLcert hf]
  rw [Engine.floorCert, hraw]
  exact if_neg (fun hzero => hf.nonempty (List.length_eq_zero_iff.mp hzero))

/-- Two nodes that end an epoch on finalizations of any blocks, after any runs, start the next epoch from one genesis
exactly if their finalizations hash equally: on one block, they must also hold the same certificate for it. -/
theorem new_epoch_floors_agree_iff {σ τ : Type} (app : EngineApp σ) (app' : EngineApp τ) (cw : Commonware)
    (e : Engine σ) (e' : Engine τ) (evs evs' : List Event) {f f' : Finalization} (h : LastCommitted app cw e evs f)
    (h' : LastCommitted app' cw e' evs' f') (hf : Keepable cw f) (hf' : Keepable cw f') (size : Nat) (epoch : UInt64)
    (hdecode : ∀ g, cw.decode size (cw.encode f) = some g → g = f)
    (hdecode' : ∀ g, cw.decode size (cw.encode f') = some g → g = f') (hepoch : f.proposal.epoch ≠ epoch)
    (hepoch' : f'.proposal.epoch ≠ epoch) :
    let floor := cw.chooseFloor size epoch (run (Engine.step app cw) e evs).floorCert
    let floor' := cw.chooseFloor size epoch (run (Engine.step app' cw) e' evs').floorCert
    (floor = floor' ↔ sha256 (cw.encode f) = sha256 (cw.encode f')) ∧
    (floor = floor' → cw.encode f = cw.encode f' ∨ Collision sha256 [cw.encode f] [cw.encode f']) := by
  intro floor floor'
  have hfloor : floor = .genesis (sha256 (cw.encode f)) := by
    simp only [floor]
    rw [floorCert_of_run h hf, chooseFloor_new_epoch hf.nonempty hdecode hepoch]
  have hfloor' : floor' = .genesis (sha256 (cw.encode f')) := by
    simp only [floor']
    rw [floorCert_of_run h' hf', chooseFloor_new_epoch hf'.nonempty hdecode' hepoch']
  rw [hfloor, hfloor', Floor.genesis.injEq]
  exact ⟨Iff.rfl, fun heq => eq_or_collision List.mem_cons_self List.mem_cons_self heq⟩

section Sample

/-- The library on the flat wire. -/
def flatWire : Commonware := (flatSimplex []).under []

/-- A finalization of a block at a view, by two of three seats. -/
def seatsFinal (b : Bytes) (view : UInt64) (x y z : Bool) : Finalization :=
  ⟨⟨0, view, 0, sha256 b, sha256_length b⟩, ⟨⟨[x, y, z], by simp⟩,
    [some (List.replicate 64 0x51), some (List.replicate 64 0x52)]⟩⟩

/-- The first block is final at view 1. -/
def firstFinal (x y z : Bool) : List Event :=
  [.receive emptyBlock, .report 1 (.finalization (seatsFinal emptyBlock 1 x y z))]

private theorem firstFinal_committed {x y z : Bool}
    (h : (x, y, z) = (true, true, false) ∨ (x, y, z) = (true, false, true)) :
    LastCommitted (idleApp Unit) flatWire (.fresh idleNode) (firstFinal x y z) (seatsFinal emptyBlock 1 x y z) ∧
    Keepable flatWire (seatsFinal emptyBlock 1 x y z) ∧
    flatWire.decode 3 (flatWire.encode (seatsFinal emptyBlock 1 x y z)) = some (seatsFinal emptyBlock 1 x y z) := by
  rcases h with h | h <;> cases h
  · exact ⟨⟨(1, ⟨emptyBlock, flatWire.encodeLcert (seatsFinal emptyBlock 1 true true false)⟩), by decide +kernel, rfl⟩,
      ⟨by decide +kernel, by decide +kernel, by decide +kernel⟩, by decide +kernel⟩
  · exact ⟨⟨(1, ⟨emptyBlock, flatWire.encodeLcert (seatsFinal emptyBlock 1 true false true)⟩), by decide +kernel, rfl⟩,
      ⟨by decide +kernel, by decide +kernel, by decide +kernel⟩, by decide +kernel⟩

end Sample

/-- Two of three seats sign the first block for one node, another two for another: they have no common genesis. -/
theorem new_epoch_floors_differ :
    flatWire.chooseFloor 3 1
        (run (Engine.step (idleApp Unit) flatWire) (.fresh idleNode) (firstFinal true true false)).floorCert ≠
      flatWire.chooseFloor 3 1
        (run (Engine.step (idleApp Unit) flatWire) (.fresh idleNode) (firstFinal true false true)).floorCert := by
  obtain ⟨hlast, hkeep, hdecode⟩ := firstFinal_committed (.inl rfl)
  obtain ⟨hlast', hkeep', hdecode'⟩ := firstFinal_committed (.inr rfl)
  intro heq
  have hhash := (new_epoch_floors_agree_iff (idleApp Unit) (idleApp Unit) flatWire (.fresh idleNode) (.fresh idleNode)
    _ _ hlast hlast' hkeep hkeep' 3 1 (fun g hg => Option.some.inj (hg.symm.trans hdecode))
    (fun g hg => Option.some.inj (hg.symm.trans hdecode')) (by decide) (by decide)).1.mp heq
  revert hhash
  decide +kernel

/-- Inside an epoch an engine that is started again resumes from the last block it committed, while a process that died
resumes from the last finalization that was reported to it, whether or not its block was committed. -/
theorem resumed_floor {σ : Type} (app : EngineApp σ) (cw : Commonware) (e : Engine σ) (evs : List Event)
    {f g : Finalization} (hwire : ∀ f, cw.encode f ≠ []) (hf : LastCommitted app cw e evs f) (hkeep : Keepable cw f)
    (hg : (reported evs).getLast? = some g) (size : Nat)
    (hdecode : cw.decode size (cw.encode f) = some f) (hdecode' : cw.decode size (cw.encode g) = some g)
    (hepoch : g.proposal.epoch = f.proposal.epoch) :
    let s := run (Engine.step app cw) e evs
    cw.chooseFloor size f.proposal.epoch s.floorCert = .finalized f ∧
    cw.chooseFloor size f.proposal.epoch (s.crash app).floorCert = .finalized g := by
  intro s
  constructor
  · simp only [s]
    rw [floorCert_of_run hf hkeep]
    exact chooseFloor_same_epoch hkeep.nonempty hdecode
  · have hfile : (s.crash app).floorCert = cw.encode g := by
      change (s.floorFile).getD [] = cw.encode g
      simp only [s]
      rw [Engine.run_floorFile hwire, hg]
      rfl
    rw [hfile, ← hepoch]
    exact chooseFloor_same_epoch (hwire g) hdecode'

private theorem flatWire_ne_nil (f : Finalization) : flatWire.encode f ≠ [] := by
  intro h
  have hlen : (flatEncode f).length = 0 := congrArg List.length h
  simp [flatEncode, f.proposal.payload_length] at hlen

/-- The second block is reported and its payload never came: the engine would go on from the first block, the process
that replaces it goes on from the second. -/
theorem resumed_floor_ahead :
    let evs := firstFinal true true false ++ [.report 2 (.finalization (seatsFinal (blockAt 2) 2 true true false))]
    let s := run (Engine.step (idleApp Unit) flatWire) (.fresh idleNode) evs
    flatWire.chooseFloor 3 0 s.floorCert = .finalized (seatsFinal emptyBlock 1 true true false) ∧
    flatWire.chooseFloor 3 0 (s.crash (idleApp Unit)).floorCert =
      .finalized (seatsFinal (blockAt 2) 2 true true false) := by
  intro evs s
  obtain ⟨-, hkeep, hdecode⟩ := firstFinal_committed (.inl rfl)
  have hlast : LastCommitted (idleApp Unit) flatWire (.fresh idleNode) evs (seatsFinal emptyBlock 1 true true false) :=
    ⟨(1, ⟨emptyBlock, flatWire.encodeLcert (seatsFinal emptyBlock 1 true true false)⟩), by decide +kernel, rfl⟩
  exact resumed_floor (idleApp Unit) flatWire (.fresh idleNode) evs flatWire_ne_nil hlast hkeep rfl 3 hdecode
    (by decide +kernel) rfl

end Terpz.Leanval.Ffi
