import Terpz.Leanval.Cwffi.Certify
import Terpz.Leanval.Ffi.Scheme
import Terpz.Lib.ContentStore

/-! The engine's side of a block: payloads kept by digest, the threads that fetch them for the driver, and the report of
a finalization. A thread takes the driver's mutex and the store's lock at different moments, so each of these moments is
a step of its own. -/
namespace Terpz.Leanval.Ffi
open Lib Function Cwffi

/-- What simplex reports. -/
inductive Activity where
  | notarize (p : Proposal)
  | notarization (p : Proposal)
  | certification (p : Proposal)
  | nullify (epoch view : UInt64)
  | nullification (epoch view : UInt64)
  | finalize (p : Proposal)
  | finalization (f : Finalization)
  | conflictingNotarize (epoch view : UInt64)
  | conflictingFinalize (epoch view : UInt64)
  | nullifyFinalize (epoch view : UInt64)

def zeroDigest : Bytes := List.replicate 32 0

/-- Kind, epoch, view and digest. -/
def Activity.parts : Activity → UInt32 × UInt64 × UInt64 × Bytes
  | .notarize p => (1, p.epoch, p.view, p.payload)
  | .notarization p => (2, p.epoch, p.view, p.payload)
  | .certification p => (2, p.epoch, p.view, p.payload)
  | .nullify epoch view => (3, epoch, view, zeroDigest)
  | .nullification epoch view => (4, epoch, view, zeroDigest)
  | .finalize p => (5, p.epoch, p.view, p.payload)
  | .finalization f => (6, f.proposal.epoch, f.proposal.view, f.proposal.payload)
  | .conflictingNotarize epoch view => (7, epoch, view, zeroDigest)
  | .conflictingFinalize epoch view => (7, epoch, view, zeroDigest)
  | .nullifyFinalize epoch view => (7, epoch, view, zeroDigest)

/-- A process: the driver with its application, the engine's store, and what its threads hold between two locks. -/
structure Engine (σ : Type) where
  node : Node σ
  store : Bytes → Option Bytes
  /-- Proposals that the driver returned and no thread has stored yet. -/
  proposed : List (Bytes × Bytes)
  /-- Payloads read from the store for their digest, not yet shown to the driver. -/
  found : List (Bytes × Bytes)
  height : UInt64
  lastFinalization : Option Bytes
  lastLcert : Option Bytes
  floorFile : Option Bytes

inductive Event where
  | propose (now : Int)
  | storeProposal (k : Nat)
  | findPayload (digest : Bytes)
  | verify (now : Int) (k : Nat)
  | certify (digest : Bytes)
  | receive (bytes : Bytes)
  | report (now : Int) (a : Activity)
  | checkTx (tx : Bytes)
  | setVerifyCert (v : VerifyCert)
  | catchUp (now : Int) (payload cert : Bytes)
  /-- An engine with a store of its own takes over. -/
  | start

/-- A payload is stored under its hash, whatever digest came with it; an empty one is not stored. -/
def proposalEntry (p : Bytes × Bytes) : Option (Bytes × Bytes) :=
  if p.2.isEmpty then none
  else if sha256 p.2 ≠ p.1 then some (sha256 p.2, p.2)
  else some (p.1, p.2)

namespace Engine
variable {σ : Type}

def insertPayload (e : Engine σ) (digest payload : Bytes) : Engine σ :=
  { e with store := update e.store digest (some payload) }

/-- `recv_payloads`, for bytes from any peer. -/
def receive (e : Engine σ) (bytes : Bytes) : Engine σ := e.insertPayload (sha256 bytes) bytes

def persistFinalization (e : Engine σ) (raw lcert : Bytes) : Engine σ :=
  { e with
    lastFinalization := if raw.isEmpty then e.lastFinalization else some raw
    floorFile := if raw.isEmpty then e.floorFile else some raw
    lastLcert := if lcert.isEmpty then e.lastLcert else some lcert }

/-- The driver publishes the height of a block it commits. -/
def publish (e : Engine σ) (r : Node σ × List AppCall) : Engine σ :=
  { e with node := r.1, height := (committedHeights r.2).foldl (fun _ h => h.toUInt64) e.height }

def storeProposal (e : Engine σ) (k : Nat) : Engine σ :=
  match e.proposed[k]? with
  | none => e
  | some p =>
    let e := { e with proposed := e.proposed.eraseIdx k }
    match proposalEntry p with
    | none => e
    | some (digest, payload) => e.insertPayload digest payload

/-- The thread of `verify` looks again until the payload is there. -/
def findPayload (e : Engine σ) (digest : Bytes) : Engine σ :=
  match e.store digest with
  | none => e
  | some bytes => { e with found := e.found ++ [(digest, bytes)] }

section
variable (app : EngineApp σ) (cw : Commonware)

/-- Without a digest of 32 bytes the callback fails and the thread ends. -/
def propose (e : Engine σ) (now : Int) : Engine σ :=
  match e.node.propose app now with
  | (n, .ok (digest, payload)) =>
    { e with node := n, proposed := if digest.length = 32 then e.proposed ++ [(digest, payload)] else e.proposed }
  | (n, .error _) => { e with node := n }

def verify (e : Engine σ) (now : Int) (k : Nat) : Engine σ :=
  match e.found[k]? with
  | none => e
  | some (digest, bytes) => { e with node := (e.node.verify app now digest bytes).1, found := e.found.eraseIdx k }

/-- The call that hands a finalization to the driver, with the payload of its digest if the store has it. -/
def finalizeCall (e : Engine σ) (f : Finalization) : Call :=
  .finalize f.proposal.epoch f.proposal.payload ((e.store f.proposal.payload).getD []) (cw.encodeLcert f)

def report (e : Engine σ) (now : Int) (a : Activity) : Engine σ :=
  let e := { e with node := e.node.report a.parts.1 }
  match a with
  | .finalization f =>
    let e := { e with height := e.height + 1 }.persistFinalization (cw.encode f) (cw.encodeLcert f)
    e.publish (e.node.call app now (e.finalizeCall cw f))
  | _ => e

def step (e : Engine σ) : Event → Engine σ
  | .propose now => e.propose app now
  | .storeProposal k => e.storeProposal k
  | .findPayload digest => e.findPayload digest
  | .verify now k => e.verify app now k
  | .certify _ => e
  | .receive bytes => e.receive bytes
  | .report now a => e.report app cw now a
  | .checkTx tx => { e with node := (e.node.checkTx app tx).1 }
  | .setVerifyCert v => { e with node := e.node.setVerifyCert v }
  | .catchUp now payload cert => e.publish (e.node.call app now (.applyRemote payload cert))
  | .start => { e with store := fun _ => none, proposed := [] }

/-- The calls that an event makes into the driver. -/
def calls (e : Engine σ) : Event → List (Int × Call)
  | .propose now => [(now, .propose)]
  | .verify now k => (e.found[k]?).toList.map (fun p => (now, .verify p.1 p.2))
  | .certify digest => [(0, .certify digest)]
  | .report now a => (now, .report a.parts.1) :: (match a with
      | .finalization f => [(now, e.finalizeCall cw f)]
      | _ => [])
  | .checkTx tx => [(0, .checkTx tx)]
  | .setVerifyCert v => [(0, .setVerifyCert v)]
  | .catchUp now payload cert => [(now, .applyRemote payload cert)]
  | .storeProposal _ | .findPayload _ | .receive _ | .start => []

/-- The blocks that an event commits. -/
def commits (e : Engine σ) (ev : Event) : List (Int64 × CommittedBlock) := commitLog app e.node (e.calls cw ev)

end

/-- A process whose engine has not run yet. -/
def fresh (n : Node σ) : Engine σ := ⟨n, fun _ => none, [], [], 0, none, none, none⟩

end Engine

end Terpz.Leanval.Ffi
