import Terpz.App.Engine
import Terpz.Leanval.Keeper.Provers
import Terpz.Leanval.ObjectRoots
import Terpz.Leanval.Cwffi.CatchUp

/-! As long as no block fails, the membership store of a node is the replay of its chain. So it is a store that the
keeper's own operations reach, and two nodes with one chain have one store, one committee and one verdict on every
proposal. -/
namespace Terpz.App
open Lib Lib.PrefixStore Leanval Leanval.Keeper Leanval.Cwffi
open Hashmerchant (Codec Tally IterationOrder)

section Tracks
variable {k : Hashmerchant.Keeper} {ρ : Type} {w : Wiring k ρ}

@[simp] theorem bindContext_chainView (a : State ρ) (st : Store) :
    (a.bindContext a.store).chainView = a.chainView ∧
      ({ a.bindContext a.store with bound := st }).chainView = a.chainView :=
  ⟨congrArg (a.store, ·) (periodLength_idem _ _), congrArg (a.store, ·) (periodLength_idem _ _)⟩

/-- Staging and applying a record is what the block does to the store. -/
private theorem finalizeTxs_of_staged (hreq : w.requireLNPR = true) {staged staged' : Option LNPRBlob}
    {st st' st'' : Store}
    {txs : List Bytes} {period : UInt64} (hstage : processInjectedLNPR w staged st txs = .ok (st', staged'))
    (hend : endBlocker w period st' staged' = .ok st'') :
    finalizeTxs w.host w.requireLNPR st txs period = .ok st'' := by
  unfold processInjectedLNPR at hstage
  unfold finalizeTxs
  cases hfind : findLNPR txs with
  | none =>
    rw [hfind, hreq] at hstage
    cases hstage
  | some blob =>
    rw [hfind] at hstage
    simp only at hstage ⊢
    unfold commitBlock
    rcases hverify : verifyLNPR w.host st blob false with ⟨st1, _ | _⟩
    · rw [hverify] at hstage
      cases hstage
    · rw [hverify] at hstage
      obtain ⟨rfl, rfl⟩ := Prod.mk.inj (Except.ok.inj hstage)
      unfold endBlocker applyStagedLNPR at hend
      rcases happly : applyLNPR w.host st1 blob with ⟨st2, _ | _⟩
      · simp only [happly] at hend
        cases hend
      · simp only [happly] at hend ⊢
        exact hend

/-- No block is under way, and nothing is left of one that failed. -/
def State.Idle (a : State ρ) : Prop := a.branch = none

instance (a : State ρ) : Decidable a.Idle := decidable_of_iff (a.branch.isNone = true) Option.isNone_iff_eq_none

theorem State.Idle.proposalStore {a : State ρ} (h : a.Idle) (height : Int64) :
    a.proposalStore w height = a.store := by
  rw [State.proposalStore, State.base, h]
  exact ite_self _

theorem State.Idle.processProposal {a : State ρ} (h : a.Idle) (req : RequestProcessProposal) :
    let live := periodLength a.live a.store
    processProposal w a req =
      ({ a.bindContext a.store with bound := (checkLNPR w.host w.requireLNPR live a.store req.height req.txs).1 },
        .ok (some (verdict w live a.store req.height req.txs))) := by
  obtain ⟨height, store, merchant, rest, branch, staged, queue, bound, live⟩ := a
  obtain rfl : branch = none := h
  simp only [App.processProposal, ite_self, State.proposalStore, State.base, Option.getD_none]
  rfl

/-- What a block that is executed has passed, and what it leaves to be committed. -/
theorem finalizeBlock_ok {a : State ρ} (hidle : a.Idle) {req : RequestFinalizeBlock}
    (h : (finalizeBlock w a req).2 = .ok ()) :
    ∃ st staged st' rest, ∃ traffic : List Traffic, processInjectedLNPR w a.staged a.store req.txs = .ok (st, staged) ∧
      endBlocker w (periodFromHeight (periodLength a.live a.store) req.height) st staged = .ok st' ∧
      (finalizeBlock w a req).1.live = periodLength a.live a.store ∧
      (finalizeBlock w a req).1.branch = some ⟨req.height, st', (traffic.foldl (trafficStep k)
        (w.codec.processInjectedVoteExtension w.order req.height.toUInt64 a.merchant req.txs).1).endBlocker
          req.height.toUInt64, rest⟩ := by
  have hbase : a.base = ⟨a.height, a.store, a.merchant, a.rest⟩ := by rw [State.base, hidle, Option.getD_none]
  unfold finalizeBlock at h ⊢
  rw [hbase] at h ⊢
  dsimp only at h ⊢
  split at h
  · cases h
  · next st staged hstage =>
    split at h
    · cases h
    · next rest traffic _ =>
      split at h
      · cases h
      · next st' hend =>
        exact ⟨st, staged, st', rest, traffic, hstage, hend, rfl, rfl⟩

/-- What a call that brings no block leaves as it was. -/
structure State.Kept (a b : State ρ) : Prop where
  idle : b.Idle
  chainView : b.chainView = a.chainView
  merchant : b.merchant = a.merchant

variable {a : State ρ}

theorem State.Idle.kept_prepareProposal (h : a.Idle) (req : RequestPrepareProposal) :
    a.Kept ((terpApp w).prepareProposal a req).1 := by
  change a.Kept (prepareWith w [] a _).1
  unfold prepareWith
  simp only [h.proposalStore]
  split <;> exact ⟨h, (bindContext_chainView a a.bound).1, rfl⟩

theorem State.Idle.kept_processProposal (h : a.Idle) (req : RequestProcessProposal) :
    a.Kept ((terpApp w).processProposal a req).1 := by
  change a.Kept (App.processProposal w a req).1
  rw [h.processProposal]
  exact ⟨h, (bindContext_chainView a _).2, rfl⟩

theorem State.Idle.kept_checkTx (h : a.Idle) (tx : Bytes) : a.Kept ((terpApp w).checkTx a tx).1 := by
  change a.Kept (checkTx w a tx).1
  unfold checkTx
  dsimp only
  split <;> exact ⟨h, rfl, rfl⟩

theorem terpApp_tracks (w : Wiring k ρ) (hreq : w.requireLNPR = true) : Tracks (terpApp w) State.Idle State.chainView
    (fun v height txs u => execBlock w v height txs = some u) where
  prepare a req hidle := ⟨(hidle.kept_prepareProposal req).idle, (hidle.kept_prepareProposal req).chainView⟩
  process a req hidle := ⟨(hidle.kept_processProposal req).idle, (hidle.kept_processProposal req).chainView⟩
  checkTx a tx hidle := ⟨(hidle.kept_checkTx tx).idle, (hidle.kept_checkTx tx).chainView⟩
  commit a req hidle hf _ := by
    obtain ⟨st, staged, st', rest, traffic, hstage, hend, hlive, hbranch⟩ := finalizeBlock_ok hidle hf
    have hblock := finalizeTxs_of_staged hreq hstage hend
    change (commit (finalizeBlock w a req).1).1.Idle ∧
      execBlock w a.chainView req.height req.txs = some (commit (finalizeBlock w a req).1).1.chainView
    rw [execBlock, State.chainView, hblock, commit, hbranch]
    simp only [State.chainView, hlive]
    exact ⟨rfl, rfl⟩

/-- A proposal passes by its bytes, its digest and the verdict on the store. -/
def accepts (w : Wiring k ρ) (v : Store × Int64) (digest payload : Bytes) : Bool :=
  !containsDSTW payload && (decodePayload payload).toOption.any (fun p =>
    !decide (digest.length = 32 ∧ sha256 payload ≠ digest) && verdict w v.2 v.1 p.height p.txs == .accept)

/-- A node's vote is decided by the part of its state that its chain decides. -/
theorem verify_eq_accepts (w : Wiring k ρ) {n : Cwffi.Node (State ρ)} (hidle : n.app.Idle) (now : Int)
    (digest payload : Bytes) :
    (n.verify (terpApp w) now digest payload).2 = accepts w n.app.chainView digest payload := by
  unfold Node.verify accepts
  dsimp only
  by_cases hdummy : containsDSTW payload = true
  · rw [if_pos hdummy, hdummy]
    rfl
  · rw [if_neg hdummy, Bool.not_eq_true _ |>.mp hdummy]
    cases decodePayload payload with
    | error e => rfl
    | ok p =>
      by_cases hdigest : digest.length = 32 ∧ sha256 payload ≠ digest
      · simp [hdigest]
      · simp only [if_neg hdigest]
        simp only [decide_eq_false hdigest]
        have hproc : (terpApp w).processProposal n.app ⟨p.txs, digest, p.height, now, n.driver.proposer⟩ = _ :=
          hidle.processProposal _
        rw [hproc]
        rfl

end Tracks

section Reach
variable {h : Host} {st st' : Store}

theorem reachable_run (hr : Reachable h st) (ops : List Op) : Reachable h (run (opStep h) st ops) := by
  obtain ⟨gs, st0, before, hg, rfl⟩ := hr
  exact ⟨gs, st0, before ++ ops, hg, (run_append _ _ _ _).symm⟩

private theorem reachable_updates (hr : Reachable h st) (period : UInt64) :
    Reachable h (if ownsValset st then (validatorUpdates st period).1 else st) := by
  split
  · exact reachable_run hr [.validatorUpdates period]
  · exact hr

/-- A block is a few operations of the keeper. -/
theorem reachable_finalizeTxs (hr : Reachable h st) {requireLNPR : Bool} {txs : List Bytes} {period : UInt64}
    (hok : finalizeTxs h requireLNPR st txs period = .ok st') : Reachable h st' := by
  unfold finalizeTxs at hok
  split at hok
  · next blob _ =>
    obtain ⟨-, -, rfl⟩ := commitBlock_ok hok
    exact reachable_updates (reachable_run hr [.verifyLNPR blob false, .applyLNPR blob]) period
  · split at hok
    · cases hok
    · obtain rfl := Except.ok.inj hok
      exact reachable_updates hr period

end Reach

section Chains
variable {k : Hashmerchant.Keeper} {ρ : Type} {w : Wiring k ρ}

private theorem reachable_replay {v v' : Store × Int64} (hr : Reachable w.host v.1) {bs : List Bytes}
    (h : replay (execBlock w) v bs = some v') : Reachable w.host v'.1 := by
  induction bs generalizing v with
  | nil =>
    obtain rfl := Option.some.inj h
    exact hr
  | cons b bs ih =>
    obtain ⟨p, -, hrest⟩ := Option.bind_eq_some_iff.mp h
    obtain ⟨v1, hexec, hrest⟩ := Option.bind_eq_some_iff.mp hrest
    refine ih ?_ hrest
    obtain ⟨st, hst, rfl⟩ := Option.map_eq_some_iff.mp hexec
    cases hf : finalizeTxs w.host w.requireLNPR v.1 p.txs (periodFromHeight v.2 p.height) with
    | error e =>
      rw [hf] at hst
      cases hst
    | ok st1 =>
      rw [hf] at hst
      obtain rfl := Option.some.inj hst
      exact reachable_finalizeTxs hr hf

end Chains

section Agree
variable {k k' : Hashmerchant.Keeper} {ρ ρ' : Type}

/-- Two nodes verify alike: the same provers' verifiers, and the same commits parse. -/
structure SameRules (w : Wiring k ρ) (w' : Wiring k' ρ') : Prop where
  host : w'.host = w.host
  stwo : w'.stwo = w.stwo
  require : w.requireLNPR = true
  require' : w'.requireLNPR = true
  commits : w'.codec.unmarshalCommit = w.codec.unmarshalCommit

variable {w : Wiring k ρ} {w' : Wiring k' ρ'}

theorem SameRules.execBlock (h : SameRules w w') : execBlock w' = execBlock w := by
  funext v height txs
  rw [App.execBlock, App.execBlock, h.host, h.require, h.require']

theorem SameRules.accepts (h : SameRules w w') (v : Store × Int64) (digest payload : Bytes) :
    accepts w' v digest payload = accepts w v digest payload := by
  have hverdict (height : Int64) (txs : List Bytes) : verdict w' v.2 v.1 height txs = verdict w v.2 v.1 height txs := by
    rw [verdict, verdict, h.host, h.stwo, h.require, h.require', Codec.processProposalHandler,
      Codec.processProposalHandler, h.commits]
  simp only [App.accepts, hverdict]

/-- A driver that reads its committee from the membership store. -/
def storeReader : Option (State ρ → StoreQuery) := some (fun a => subspaceQuery a.store)

private theorem run_storeQuery {σ : Type} (app : EngineApp σ) (n : Cwffi.Node σ) (calls : List (Int × Call)) :
    (run (nodeStep app) n calls).driver.storeQuery = n.driver.storeQuery := by
  induction calls generalizing n with
  | nil => rfl
  | cons c calls ih => exact (ih _).trans (call_wiring n c.1 c.2).1

end Agree

/-- Over any calls to a node that execute no block in vain, its membership store is the replay of the payloads it
committed, and a store that the keeper's own operations reach. -/
theorem node_store_replays_chain {k : Hashmerchant.Keeper} {ρ : Type} (w : Wiring k ρ) (hreq : w.requireLNPR = true)
    (a : State ρ) (hidle : a.Idle) (hr : Reachable w.host a.store) (proposer : Bytes)
    (q : Option (State ρ → StoreQuery)) (calls : List (Int × Call))
    (hok : Along (nodeStep (terpApp w)) (Completes (terpApp w)) (startNode (terpApp w) a proposer q) calls) :
    let n := startNode (terpApp w) a proposer q
    let m := run (nodeStep (terpApp w)) n calls
    replay (execBlock w) a.chainView (chainOf (terpApp w) n calls) = some m.app.chainView ∧
      Reachable w.host m.app.store := by
  intro n m
  have hview := ((terpApp_tracks w hreq).run_view hidle hok).2.replay_eq
  exact ⟨hview, reachable_replay (v := a.chainView) hr hview⟩

section Sample

def loneAddress : Bytes := List.replicate 20 1

def loneCommit : List Hashmerchant.ExtendedVoteInfo := [⟨loneAddress, 10, Hashmerchant.rootExtension 7⟩]

/-- The wire form of the commit. -/
def loneCommitBytes : Bytes :=
  [18, 37, 10, 24, 10, 20] ++ loneAddress ++ [24, 10, 26, 9] ++ Hashmerchant.rootExtension 7

/-- The wire format on one report and the commit with it. -/
def loneCodec : Codec Hashmerchant.sampleKeeper where
  marshalVote data :=
    if data = ⟨text "c", text "a", [7], 0, 0, [], []⟩ then some (Hashmerchant.rootExtension 7) else none
  marshalCommit votes := if votes = loneCommit then some loneCommitBytes else none
  unmarshalCommit bz := if bz = loneCommitBytes then some loneCommit else none
  vote_read data bz h := by
    split at h
    · next heq =>
      subst heq
      obtain rfl := Option.some.inj h
      rfl
    · cases h
  commit_read votes bz h := by
    split at h
    · next heq =>
      obtain rfl := Option.some.inj h
      exact congrArg some heq.symm
    · cases h

def idleOthers : Others Unit := ⟨fun _ _ => 0, 2, by decide, fun _ _ _ _ => .ok ((), []), fun b _ => b⟩

def soloWiring : Wiring Hashmerchant.sampleKeeper Unit :=
  ⟨honestHost, unlinkedEnv, none, true, loneCodec, IterationOrder.asStored, idleOthers, 1⟩

/-- A new process on a chain of one validator. -/
def soloState : State Unit where
  height := 0
  store := genesisStore ∅ soloGenesis
  merchant := .empty
  rest := ()
  branch := none
  staged := none
  queue := ⟨[], false, ∅⟩
  bound := ∅
  live := 0

/-- The first block, with the record of the validator. -/
def soloBlock : Bytes :=
  Payload.encode ⟨1, [encodeLNPR (lnprFor honestHost soloState.store soloState.queue 0).2]⟩

end Sample

private theorem solo_chain : chainOf (terpApp soloWiring) (startNode (terpApp soloWiring) soloState [1] storeReader)
    [(1, .propose), (2, .finalize 0 [] soloBlock [])] = [soloBlock] := by
  decide +kernel

/-- The first block of a chain of one validator. -/
theorem node_store_replays_first_block :
    replay (execBlock soloWiring) soloState.chainView [soloBlock] = some (run (nodeStep (terpApp soloWiring))
      (startNode (terpApp soloWiring) soloState [1] storeReader)
      [(1, .propose), (2, .finalize 0 [] soloBlock [])]).app.chainView := by
  rw [← solo_chain]
  exact (node_store_replays_chain soloWiring rfl soloState rfl ⟨soloGenesis, _, [], rfl, rfl⟩ [1] storeReader
    [(1, .propose), (2, .finalize 0 [] soloBlock [])] (by decide +kernel)).1

/-- Two nodes that start from one membership store and commit the same payloads, whatever else they are asked, whatever
their other modules do and however they visit maps: as long as no block fails they have one store, read one committee
for every epoch, and vote alike on every proposal. -/
theorem same_chain_same_votes {k k' : Hashmerchant.Keeper} {ρ ρ' : Type} (w : Wiring k ρ) (w' : Wiring k' ρ')
    (h : SameRules w w') (a : State ρ) (a' : State ρ') (hidle : a.Idle) (hidle' : a'.Idle)
    (hview : a'.chainView = a.chainView) (proposer proposer' : Bytes) (calls calls' : List (Int × Call))
    (hok : Along (nodeStep (terpApp w)) (Completes (terpApp w)) (startNode (terpApp w) a proposer storeReader) calls)
    (hok' : Along (nodeStep (terpApp w')) (Completes (terpApp w')) (startNode (terpApp w') a' proposer' storeReader)
      calls')
    (hchain : chainOf (terpApp w') (startNode (terpApp w') a' proposer' storeReader) calls' =
      chainOf (terpApp w) (startNode (terpApp w) a proposer storeReader) calls) :
    let m := run (nodeStep (terpApp w)) (startNode (terpApp w) a proposer storeReader) calls
    let m' := run (nodeStep (terpApp w')) (startNode (terpApp w') a' proposer' storeReader) calls'
    m'.app.store = m.app.store ∧
    (∀ epoch, m'.participantsWeights epoch = m.participantsWeights epoch) ∧
    ∀ now now' digest payload, (m'.verify (terpApp w') now' digest payload).2 =
      (m.verify (terpApp w) now digest payload).2 := by
  intro m m'
  obtain ⟨hend, hm⟩ := (terpApp_tracks w h.require).run_view hidle hok
  obtain ⟨hend', hm'⟩ := (terpApp_tracks w' h.require').run_view hidle' hok'
  have hm := hm.replay_eq
  have hm' := hm'.replay_eq
  have hsame : m'.app.chainView = m.app.chainView := by
    rw [h.execBlock, hchain] at hm'
    exact Option.some.inj (hm'.symm.trans ((congrArg (replay (execBlock w) · _) hview).trans hm))
  have hstore : m'.app.store = m.app.store := congrArg Prod.fst hsame
  refine ⟨hstore, fun epoch => ?_, fun now now' digest payload => ?_⟩
  · rw [participantsWeights_of_query (run_storeQuery (terpApp w') _ calls'),
      participantsWeights_of_query (run_storeQuery (terpApp w) _ calls)]
    exact congrArg (fun st => bondedParticipantsWeights (subspaceQuery st) epoch) hstore
  · rw [verify_eq_accepts w' hend', verify_eq_accepts w hend, h.accepts, hsame]

section Sample

/-- A node whose transactions all fail. -/
def failingWiring : Wiring Hashmerchant.sampleKeeper Unit :=
  { soloWiring with others := { idleOthers with runTx := fun _ _ => 5 } }

private theorem failing_chain :
    chainOf (terpApp failingWiring) (startNode (terpApp failingWiring) soloState [2] storeReader)
      [(1, .checkTx [7]), (3, .applyRemote soloBlock [0x01]), (4, .propose)] =
    chainOf (terpApp soloWiring) (startNode (terpApp soloWiring) soloState [1] storeReader)
      [(2, .finalize 0 [] soloBlock [])] := by
  decide +kernel

end Sample

/-- One node commits the first block from its engine, the other fetches it between other calls. -/
theorem same_chain_same_votes_first_block :
    (run (nodeStep (terpApp failingWiring)) (startNode (terpApp failingWiring) soloState [2] storeReader)
      [(1, .checkTx [7]), (3, .applyRemote soloBlock [0x01]), (4, .propose)]).app.store =
    (run (nodeStep (terpApp soloWiring)) (startNode (terpApp soloWiring) soloState [1] storeReader)
      [(2, .finalize 0 [] soloBlock [])]).app.store :=
  (same_chain_same_votes soloWiring failingWiring ⟨rfl, rfl, rfl, rfl, rfl⟩ soloState soloState rfl rfl rfl [1] [2] _ _
    (by decide +kernel) (by decide +kernel) failing_chain).1

end Terpz.App
