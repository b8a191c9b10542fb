import Terpz.Lib.Pool
import Terpz.Lib.Trace
import Terpz.Leanval.Cwffi.Heights

/-! The driver's mempool over every interleaving of calls and any application: a pool of transactions keyed by their
hash, filled by the checks that pass and emptied by the blocks that commit. -/
namespace Terpz.Leanval.Cwffi
open Lib

section
variable {σ : Type} (app : EngineApp σ)

/-- What the answers of a call say of the pool: a transaction was accepted, or a block committed. -/
def poolEvents (n : Node σ) (c : Int × Call) : List (Pool.Event Bytes) :=
  match c.2 with
  | .checkTx tx =>
    match (n.checkTx app tx).2 with
    | .ok (some code) => if code = 0 ∧ tx.length > 0 then [.accept tx] else []
    | _ => []
  | _ => (commits app n c).filterMap (fun e => (decodePayload e.2.payload).toOption.map (fun p => .remove p.txs))

end

section Step
variable {σ : Type} {app : EngineApp σ} {n : Node σ}

private theorem poolEvents_eq {now : Int} {c : Call} (hc : ∀ tx, c ≠ .checkTx tx) : poolEvents app n (now, c) =
    (commits app n (now, c)).filterMap
        (fun e => (decodePayload e.2.payload).toOption.map (fun p => .remove p.txs)) := by
  cases c with
  | checkTx tx => exact absurd rfl (hc tx)
  | _ => rfl

private theorem commits_of_no_block {now : Int} {c : Call} (h : c.block = none) : commits app n (now, c) = [] := by
  rw [commits, h]
  exact List.filterMap_none _

/-- A call that neither checks a transaction nor brings a block leaves the pool alone. -/
private theorem mempool_of_no_block {now : Int} {c : Call} (h : c.block = none) (hc : ∀ tx, c ≠ .checkTx tx) :
    (nodeStep app n (now, c)).driver.mempool = n.driver.mempool := by
  cases c with
  | propose =>
    rw [nodeStep, Node.call, propose_driver]
  | verify digest payload =>
    rw [nodeStep, Node.call, verify_driver]
  | certify digest => rfl
  | report kind =>
    rw [nodeStep, Node.call, report_driver]
  | checkTx tx => exact absurd rfl (hc tx)
  | setVerifyCert v => rfl
  | finalize epoch digest payload cert => cases h
  | applyRemote payload cert => cases h

private theorem mempool_checkTx (now : Int) (tx : Bytes) : (nodeStep app n (now, .checkTx tx)).driver.mempool =
    run (Pool.step sha256) n.driver.mempool (poolEvents app n (now, .checkTx tx)) := by
  rw [nodeStep, Node.call, checkTx_driver]
  simp only [poolEvents]
  rcases (n.checkTx app tx).2 with _ | (_ | code)
  · rfl
  · rfl
  · simp only
    split
    · rw [run_cons, run_nil, Pool.step, Driver.addTx]
      simp only [List.contains_iff_mem]
      split <;> rfl
    · rfl

/-- A block call takes the transactions of the block it commits out of the pool, and nothing if it commits none. -/
private theorem mempool_finalizeWith (now : Int) (epoch : UInt64) (digest payload cert : Bytes) (remote : Bool) :
    (n.finalizeWith app now epoch digest payload cert remote).1.driver.mempool =
      run (Pool.step sha256) n.driver.mempool
        (((committedHeights (n.finalizeWith app now epoch digest payload cert remote).2).filterMap
          (fun h => some (h, (⟨payload, cert⟩ : CommittedBlock)))).filterMap
            (fun e => (decodePayload e.2.payload).toOption.map (fun p => .remove p.txs))) := by
  rcases finalizeWith_cases app n now epoch digest payload cert remote with
    ⟨hh, hd⟩ | ⟨dec, hdec, hh, hd⟩
  · rw [hh, hd]
    rfl
  · have hp : decodePayload payload = .ok dec.payload := (decision_eq_some hdec).1
    rw [hh, hd]
    simp only [List.filterMap_cons, List.filterMap_nil, hp, Except.toOption, Option.map_some, run_cons, run_nil]
    simp only [Driver.record, Pool.step]
    refine List.filter_congr (fun tx _ => ?_)
    rw [Bool.eq_iff_iff]
    simp only [Bool.not_eq_true', decide_eq_true_eq, ← Bool.not_eq_true, List.contains_iff_mem]

/-- Every call does to the mempool what its events do to the pool. -/
theorem mempool_step (n : Node σ) (c : Int × Call) :
    (nodeStep app n c).driver.mempool = run (Pool.step sha256) n.driver.mempool (poolEvents app n c) := by
  obtain ⟨now, c⟩ := c
  cases hb : c.block with
  | none =>
    by_cases hc : ∃ tx, c = .checkTx tx
    · obtain ⟨tx, rfl⟩ := hc
      exact mempool_checkTx now tx
    · have hc : ∀ tx, c ≠ .checkTx tx := fun tx h => hc ⟨tx, h⟩
      rw [mempool_of_no_block hb hc, poolEvents_eq hc, commits_of_no_block hb]
      rfl
  | some blk =>
    cases c with
    | propose | verify | certify | report | checkTx | setVerifyCert => cases hb
    | finalize epoch digest payload cert => exact mempool_finalizeWith ..
    | applyRemote payload cert =>
      rw [poolEvents_eq (fun _ => by simp)]
      by_cases hempty : payload.length = 0 ∨ cert.length = 0
      · have hcall : n.call app now (.applyRemote payload cert) = (n, []) := if_pos hempty
        rw [commits, nodeStep, hcall]
        rfl
      · have hcall : n.call app now (.applyRemote payload cert) =
            n.finalizeWith app now 0 (sha256 payload) payload cert true := if_neg hempty
        rw [commits, nodeStep, hcall]
        exact mempool_finalizeWith ..

/-- What is behind an event: the check of a transaction that passed, or a committed block. -/
theorem mem_poolEvents {c : Int × Call} {e : Pool.Event Bytes} (h : e ∈ poolEvents app n c) :
    (∃ tx, e = .accept tx ∧ (n.checkTx app tx).2 = .ok (some 0)) ∨
      ∃ b p, e = .remove p.txs ∧ b ∈ commits app n c ∧ decodePayload b.2.payload = .ok p := by
  unfold poolEvents at h
  split at h
  · next tx _ =>
    split at h
    · next code hcode =>
      split at h
      · next hzero =>
        rw [hzero.1] at hcode
        exact .inl ⟨tx, List.mem_singleton.mp h, hcode⟩
      · cases h
    · cases h
  · obtain ⟨b, hb, hevent⟩ := List.mem_filterMap.mp h
    cases hdec : decodePayload b.2.payload with
    | error msg =>
      rw [hdec] at hevent
      cases hevent
    | ok p =>
      rw [hdec] at hevent
      exact .inr ⟨b, p, (Option.some.inj hevent).symm, hb, hdec⟩

/-- The mempool is the pool of the whole history. -/
theorem mempool_run (a : σ) (proposer : Bytes) (q : Option (σ → StoreQuery)) (calls : List (Int × Call)) :
    (run (nodeStep app) (startNode app a proposer q) calls).driver.mempool =
      run (Pool.step sha256) [] (trace (nodeStep app) (poolEvents app) (startNode app a proposer q) calls) := by
  refine run_trace_invariant (I := fun (n : Node σ) log => n.driver.mempool = run (Pool.step sha256) [] log)
    ?_ (l := []) rfl calls
  intro n log c h
  rw [mempool_step, h, run_append]

end Step

/-- After any calls to a fresh driver the mempool holds, in the order of acceptance and one for each hash, what was
accepted and is in no block committed since, up to hashes and, where no two hashes collide, as transactions.
A block call that commits nothing changes nothing. -/
theorem mempool_is_what_waits {σ : Type} (app : EngineApp σ) (a : σ) (proposer : Bytes) (q : Option (σ → StoreQuery))
    (calls : List (Int × Call)) :
    let n0 := startNode app a proposer q
    let log := trace (nodeStep app) (poolEvents app) n0 calls
    let mempool := (run (nodeStep app) n0 calls).driver.mempool
    mempool = Pool.firstOfKey sha256 (Pool.waiting sha256 log) ∧ (mempool.map sha256).Nodup ∧
    mempool.Sublist (log.filterMap Pool.Event.accepted) ∧
    (∀ k, k ∈ mempool.map sha256 ↔ ∃ pre tx post, log = pre ++ .accept tx :: post ∧ sha256 tx = k ∧
      ∀ txs, .remove txs ∈ post → k ∉ txs.map sha256) ∧
    (Set.InjOn sha256 (Pool.Mentioned log) → ∀ tx, tx ∈ mempool ↔
      ∃ pre post, log = pre ++ .accept tx :: post ∧ ∀ txs, .remove txs ∈ post → tx ∉ txs) ∧
    (∀ pre c post, calls = pre ++ c :: post → c.2.block.isSome = true →
      commits app (run (nodeStep app) n0 pre) c = [] →
      (run (nodeStep app) n0 (pre ++ [c])).driver.mempool = (run (nodeStep app) n0 pre).driver.mempool) := by
  intro n0 log mempool
  have hpool : mempool = Pool.firstOfKey sha256 (Pool.waiting sha256 log) :=
    (mempool_run a proposer q calls).trans (Pool.run_eq log)
  refine ⟨hpool, ?_, ?_, ?_, ?_, ?_⟩
  · rw [hpool]
    exact Pool.firstOfKey_nodup _
  · rw [hpool]
    exact (Pool.firstOfKey_sublist _).trans (Pool.waiting_sublist log)
  · intro k
    rw [hpool, Pool.mem_keys_firstOfKey, List.mem_map]
    constructor
    · rintro ⟨tx, htx, rfl⟩
      obtain ⟨pre, post, hlog, hno⟩ := Pool.mem_waiting.mp htx
      exact ⟨pre, tx, post, hlog, rfl, fun txs htxs hk => hno ⟨txs, htxs, hk⟩⟩
    · rintro ⟨pre, tx, post, hlog, rfl, hno⟩
      exact ⟨tx, Pool.mem_waiting.mpr ⟨pre, post, hlog, fun ⟨txs, htxs, hk⟩ => hno txs htxs hk⟩, rfl⟩
  · intro hinj tx
    rw [hpool]
    exact Pool.mem_firstOfKey_waiting hinj
  · rintro pre ⟨now, c⟩ post - hblock hnone
    rw [run_append, run_cons, run_nil, mempool_step, poolEvents_eq, hnone]
    · rfl
    · rintro tx rfl
      cases hblock

end Terpz.Leanval.Cwffi
