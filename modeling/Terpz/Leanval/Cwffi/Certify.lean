import Terpz.Lib.Trace
import Terpz.Leanval.Cwffi.Heights

/-! Certification. The driver remembers one payload, the last it proposed or was asked to verify, and answers for every
digest from that one; the engine also looks at the payload it stores under the digest. -/
namespace Terpz.Leanval.Cwffi
open Lib

section
variable {σ : Type} (app : EngineApp σ)

/-- The digest and payload that a call proposes or is asked to verify. -/
def seen (n : Node σ) (c : Int × Call) : List (Bytes × Bytes) :=
  match c.2 with
  | .propose => (n.propose app c.1).2.toOption.toList
  | .verify digest payload => [(digest, payload)]
  | _ => []

/-- The engine's answer, with the payloads it stores by digest. -/
def engineCertify (store : Bytes → Option Bytes) (n : Node σ) (digest : Bytes) : Bool :=
  if containsDSTW ((store digest).getD []) then false else n.certify

end

/-- The payload last proposed or verified under a digest. -/
def payloadUnder (log : List (Bytes × Bytes)) (digest : Bytes) : Option Bytes :=
  ((log.filter (fun e => e.1 = digest)).getLast?).map Prod.snd

def Dummy (payload : Option Bytes) : Prop := ∃ p, payload = some p ∧ containsDSTW p = true

/-- The payload last seen under any digest. -/
def lastSeen (log : List (Bytes × Bytes)) : Option Bytes := log.getLast?.map Prod.snd

theorem lastSeen_append (log log' : List (Bytes × Bytes)) :
    lastSeen (log ++ log') = (lastSeen log').or (lastSeen log) := by
  unfold lastSeen
  rw [List.getLast?_append]
  cases log'.getLast? <;> rfl

section Step
variable {σ : Type} {app : EngineApp σ}

private theorem finalizeWith_lastPayload (n : Node σ) (now : Int) (epoch : UInt64) (digest payload cert : Bytes)
    (remote : Bool) : (n.finalizeWith app now epoch digest payload cert remote).1.driver.lastPayload =
        n.driver.lastPayload := by
  rcases finalizeWith_cases app n now epoch digest payload cert remote with ⟨-, hd⟩ | ⟨dec, -, -, hd⟩ <;> rw [hd]
  rfl

/-- A call remembers the payload it saw, and otherwise keeps the one remembered before. -/
theorem lastPayload_step (n : Node σ) (c : Int × Call) :
    (nodeStep app n c).driver.lastPayload = (lastSeen (seen app n c)).getD n.driver.lastPayload := by
  obtain ⟨now, c⟩ := c
  cases c with
  | propose =>
    rw [nodeStep, Node.call, propose_driver]
    simp only [seen]
    cases (n.propose app now).2 <;> rfl
  | verify digest payload =>
    rw [nodeStep, Node.call, verify_driver]
    rfl
  | certify digest => rfl
  | report kind =>
    rw [nodeStep, Node.call, report_driver]
    rfl
  | checkTx tx =>
    rw [nodeStep, Node.call, checkTx_driver]
    rfl
  | setVerifyCert v => rfl
  | finalize epoch digest payload cert => exact finalizeWith_lastPayload ..
  | applyRemote payload cert =>
    simp only [nodeStep, Node.call, Node.applyRemote]
    split
    · rfl
    · exact finalizeWith_lastPayload ..

/-- After any calls the driver remembers the payload seen last. -/
theorem lastPayload_run (a : σ) (proposer : Bytes) (q : Option (σ → StoreQuery)) (calls : List (Int × Call)) :
    (run (nodeStep app) (startNode app a proposer q) calls).driver.lastPayload =
      (lastSeen (trace (nodeStep app) (seen app) (startNode app a proposer q) calls)).getD [] := by
  refine run_trace_invariant (I := fun (n : Node σ) log => n.driver.lastPayload = (lastSeen log).getD []) ?_
    (l := []) rfl calls
  intro n log c h
  rw [lastPayload_step, h, lastSeen_append]
  cases lastSeen (seen app n c) <;> rfl

theorem certify_run (a : σ) (proposer : Bytes) (q : Option (σ → StoreQuery)) (calls : List (Int × Call)) :
    (run (nodeStep app) (startNode app a proposer q) calls).certify = false ↔
      Dummy (lastSeen (trace (nodeStep app) (seen app) (startNode app a proposer q) calls)) := by
  rw [Node.certify, lastPayload_run, Bool.not_eq_false']
  cases lastSeen (trace (nodeStep app) (seen app) (startNode app a proposer q) calls) with
  | none => simp [Dummy, containsDSTW, Keeper.containsBytes, Keeper.dummyMagic]
  | some p => simp [Dummy]

end Step

/-- After any interleaving of calls, the driver answers for a digest by the payload under it exactly if the payload seen
last is a dummy if and only if that one is. The engine, which knows the payload under the digest, answers by it exactly
if no other dummy was seen last. -/
theorem certify_by_digest_iff {σ : Type} (app : EngineApp σ) (a : σ) (proposer : Bytes) (q : Option (σ → StoreQuery))
    (calls : List (Int × Call)) (digest : Bytes) (store : Bytes → Option Bytes) :
    let n := run (nodeStep app) (startNode app a proposer q) calls
    let log := trace (nodeStep app) (seen app) (startNode app a proposer q) calls
    ((n.certify = false ↔ Dummy (payloadUnder log digest)) ↔ (Dummy (lastSeen log) ↔ Dummy (payloadUnder log digest))) ∧
    ((engineCertify store n digest = false ↔ Dummy (store digest)) ↔
        (Dummy (lastSeen log) → Dummy (store digest))) := by
  intro n log
  have hcertify : n.certify = false ↔ Dummy (lastSeen log) := certify_run a proposer q calls
  refine ⟨by rw [hcertify], ?_⟩
  have hstored : containsDSTW ((store digest).getD []) = true ↔ Dummy (store digest) := by
    cases store digest with
    | none => simp [Dummy, containsDSTW, Keeper.containsBytes, Keeper.dummyMagic]
    | some p => simp [Dummy]
  unfold engineCertify
  by_cases hdummy : Dummy (store digest)
  · rw [if_pos (hstored.mpr hdummy)]
    simp [hdummy]
  · rw [if_neg (fun h => hdummy (hstored.mp h)), hcertify]
    simp [hdummy]

/-- A block whose only transaction is the dummy prover's mark. -/
def dummyBlock : Bytes := Payload.encode ⟨1, [Keeper.dummyMagic]⟩

/-- With a dummy verified after a good block, the good block's digest is refused, by the engine too; with the good block
verified after the dummy, the dummy's digest is certified. -/
theorem certify_answers_for_another_digest :
    let verified (b : Bytes) : Int × Call := (1, .verify (sha256 b) b)
    let node (bs : List Bytes) := run (nodeStep (idleApp Unit)) (startNode (idleApp Unit) () [] none) (bs.map verified)
    let log (bs : List Bytes) :=
      trace (nodeStep (idleApp Unit)) (seen (idleApp Unit)) (startNode (idleApp Unit) () [] none) (bs.map verified)
    (payloadUnder (log [emptyBlock, dummyBlock]) (sha256 emptyBlock) = some emptyBlock ∧
      containsDSTW emptyBlock = false ∧ (node [emptyBlock, dummyBlock]).certify = false ∧
      engineCertify (fun d => if d = sha256 emptyBlock then some emptyBlock else none) (node [emptyBlock, dummyBlock])
        (sha256 emptyBlock) = false) ∧
    (payloadUnder (log [dummyBlock, emptyBlock]) (sha256 dummyBlock) = some dummyBlock ∧
      containsDSTW dummyBlock = true ∧ (node [dummyBlock, emptyBlock]).certify = true) := by
  decide +kernel

end Terpz.Leanval.Cwffi
