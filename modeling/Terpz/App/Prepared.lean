import Terpz.App.Injected
import Terpz.Hashmerchant.RootKeys
import Terpz.Leanval.PayloadCodecs
import Terpz.Leanval.PrepareProcess
import Terpz.Leanval.Cwffi.Mempool

/-! What a proposal is made of, and what follows for the blocks of a network. Under a consensus that hands in the last
commit the reports of the sidecars reach the roots; under the driver, which hands in none, no root is ever written and a
membership request that was accepted never leaves the mempool. -/
namespace Terpz.App
open Lib Lib.PrefixStore Leanval Leanval.Keeper Leanval.Cwffi Hashmerchant.Keeper
open Hashmerchant (Codec Tally IterationOrder ExtendedVoteInfo injectedVoteExtensionPrefix injectedData SidecarResponse
  fetchSidecar Candidate HashRoot writtenRoots)

section Shape
variable {bin : Option SsleBin} {tx : Bytes} {txs : List Bytes}

private theorem hasPrefix_encodeSSLE (b : SSLEBlob) : hasPrefix (encodeSSLE b) prefixSSLE = true := by
  rw [hasPrefix, List.isPrefixOf_iff_prefix, encodeSSLE]
  simp only [List.append_assoc]
  exact List.prefix_append _ _

private theorem hasPrefix_buildSSLE {period : UInt64} {height : Int64} {proposer : Bytes}
    (h : (buildSSLE bin period height proposer).length > 0) :
    hasPrefix (buildSSLE bin period height proposer) prefixSSLE = true := by
  unfold buildSSLE at h ⊢
  split
  · next heq =>
    rw [heq] at h
    cases h
  · exact hasPrefix_encodeSSLE _

/-- What carries another magic is no membership request. -/
private theorem not_membership {p : Bytes} (h : hasPrefix tx p = true) (hlen : p.length = 4) (hj : p ≠ prefixJOIN)
    (hl : p ≠ prefixLEAV) : isMembershipTx tx = false := by
  have hjoin : hasPrefix tx prefixJOIN = false := hasPrefix_false_of_ne h hlen hj
  have hleave : hasPrefix tx prefixLEAV = false := hasPrefix_false_of_ne h hlen hl
  rw [isMembershipTx, hjoin, hleave]
  rfl

/-- The record and the ticket put in their places. -/
private def placed (txs : List Bytes) (lnpr ssle : Bytes) : List Bytes :=
  if ssle.length > 0 then injectSSLE (injectLNPR txs lnpr) ssle else injectLNPR txs lnpr

private theorem wrapPrepareProposal_txs (h : Host) (bin : Option SsleBin) (live : Int64) (inner : Option InnerAnswer)
    (st : Store) (q : Queue) (req : PrepareRequest) (htxs : innerTxs inner req.txs = .ok txs) :
    ∃ p, wrapPrepareProposal h bin live inner st q req = .ok p ∧
      p.txs = placed (txs.filter (fun tx => !isMembershipTx tx))
      (encodeLNPR (lnprFor h st (notedQueue st q req.txs txs) (periodFromHeight live req.height)).2)
      (buildSSLE bin (periodFromHeight live req.height) req.height req.proposerAddress) := by
  unfold wrapPrepareProposal
  rw [htxs]
  exact ⟨_, rfl, rfl⟩

private theorem mem_placed {lnpr ssle : Bytes} (hl : hasPrefix lnpr prefixLNPR = true) (h : tx ∈ placed txs lnpr ssle) :
    tx = lnpr ∨ (ssle.length > 0 ∧ tx = ssle) ∨ tx ∈ txs := by
  obtain ⟨before, after, hlead, heq, hparts⟩ := injectLNPR_eq txs lnpr
  have hpart : ∀ x ∈ before ++ after, x ∈ txs := by
    intro x hx
    rw [hparts] at hx
    exact (List.mem_filter.mp hx).1
  rw [placed, heq] at h
  split at h
  · next hticket =>
    rw [injectSSLE_eq hlead hl] at h
    rcases List.mem_append.mp h with h | h
    · exact .inr (.inr (hpart _ (List.mem_append_left _ h)))
    rcases List.mem_cons.mp h with h | h
    · exact .inl h
    rcases List.mem_cons.mp h with h | h
    · exact .inr (.inl ⟨hticket, h⟩)
    · exact .inr (.inr (hpart _ (List.mem_append_right _ (List.mem_filter.mp h).1)))
  · rcases List.mem_append.mp h with h | h
    · exact .inr (.inr (hpart _ (List.mem_append_left _ h)))
    rcases List.mem_cons.mp h with h | h
    · exact .inl h
    · exact .inr (.inr (hpart _ (List.mem_append_right _ h)))

/-- A commit in front stays in front, with the record right behind it. -/
private theorem placed_injected {hm lnpr : Bytes} (txs : List Bytes) (hhm : hasPrefix hm prefixHMVE = true)
    (hl : hasPrefix lnpr prefixLNPR = true) (ssle : Bytes) :
    ∃ rest, placed (hm :: txs) lnpr ssle = hm :: lnpr :: rest := by
  have hno : hasPrefix hm prefixLNPR = false := hasPrefix_false_of_ne hhm rfl (by decide)
  have hrecord : injectLNPR (hm :: txs) lnpr =
      hm :: lnpr :: txs.filter (fun tx => !hasPrefix tx prefixLNPR) := by
    rw [injectLNPR, List.filter_cons_of_pos (by simpa using hno)]
    simp only [expectedLNPRIndex, hhm, if_true]
    rfl
  rw [placed, hrecord]
  have hlead : Keeper.Leads [hm] := .inr ⟨hm, hhm, rfl⟩
  split
  · exact ⟨_, injectSSLE_eq hlead hl ssle⟩
  · exact ⟨_, rfl⟩

end Shape

section Prepare
variable {k : Hashmerchant.Keeper} {ρ : Type} (w : Wiring k ρ)

private theorem prepareWith_txs (votes : List ExtendedVoteInfo) (a : State ρ) (req : PrepareRequest) : ∃ lnpr ssle,
    hasPrefix lnpr prefixLNPR = true ∧ (ssle.length > 0 → hasPrefix ssle prefixSSLE = true) ∧
    (prepareWith w votes a req).2 = .ok (some (placed ((w.codec.prepareProposalHandler votes req.txs).filter
      (fun tx => !isMembershipTx tx)) lnpr ssle)) := by
  obtain ⟨p, hp, htxs⟩ := wrapPrepareProposal_txs w.host w.ssleBin (periodLength a.live (a.proposalStore w req.height))
    (some (.ok (some (w.codec.prepareProposalHandler votes req.txs)))) (a.proposalStore w req.height) a.queue req rfl
  have hanswer : (prepareWith w votes a req).2 = .ok (some p.txs) := by
    rw [prepareWith]
    simp only [State.bindContext, hp]
  rw [htxs] at hanswer
  exact ⟨_, _, hasPrefix_encodeLNPR _, hasPrefix_buildSSLE, hanswer⟩

/-- A proposal consists of a record, a ticket and transactions of the inner handler that are no membership requests. -/
theorem mem_prepareWith {votes : List ExtendedVoteInfo} {a : State ρ} {req : PrepareRequest} {txs : List Bytes}
    (h : (prepareWith w votes a req).2 = .ok (some txs)) {tx : Bytes} (hmem : tx ∈ txs) :
    hasPrefix tx prefixLNPR = true ∨ hasPrefix tx prefixSSLE = true ∨
      tx ∈ w.codec.prepareProposalHandler votes req.txs ∧ isMembershipTx tx = false := by
  obtain ⟨lnpr, ssle, hl, hs, heq⟩ := prepareWith_txs w votes a req
  rw [h] at heq
  obtain rfl := Option.some.inj (Except.ok.inj heq)
  rcases mem_placed hl hmem with rfl | ⟨hpos, rfl⟩ | hin
  · exact .inl hl
  · exact .inr (.inl (hs hpos))
  · obtain ⟨hin, hno⟩ := List.mem_filter.mp hin
    exact .inr (.inr ⟨hin, by simpa using hno⟩)

/-- A commit with a report goes into the block as it is. -/
theorem injectedCommit_prepareWith {votes : List ExtendedVoteInfo} (a : State ρ) (req : PrepareRequest)
    (hreport : ∃ v ∈ votes, v.voteExtension ≠ []) {bz : Bytes} (hbz : w.codec.marshalCommit votes = some bz) :
    ∃ txs, (prepareWith w votes a req).2 = .ok (some txs) ∧ w.codec.injectedCommit txs = some votes := by
  obtain ⟨lnpr, ssle, hl, -, heq⟩ := prepareWith_txs w votes a req
  obtain ⟨v, hv, hne⟩ := hreport
  have hany : votes.any (fun v => decide (v.voteExtension.length > 0)) = true :=
    List.any_eq_true.mpr ⟨v, hv, decide_eq_true (List.length_pos_of_ne_nil hne)⟩
  have hhm : hasPrefix (injectedVoteExtensionPrefix ++ bz) prefixHMVE = true :=
    List.isPrefixOf_iff_prefix.mpr (List.prefix_append _ _)
  have hno : isMembershipTx (injectedVoteExtensionPrefix ++ bz) = false :=
    not_membership hhm rfl (by decide) (by decide)
  have hinner : w.codec.prepareProposalHandler votes req.txs = (injectedVoteExtensionPrefix ++ bz) :: req.txs := by
    rw [Codec.prepareProposalHandler, if_pos hany, hbz]
  rw [hinner, List.filter_cons_of_pos (by simpa using hno)] at heq
  obtain ⟨rest, hplaced⟩ := placed_injected (req.txs.filter (fun tx => !isMembershipTx tx)) hhm hl ssle
  refine ⟨_, heq, ?_⟩
  rw [hplaced, Codec.injectedCommit, injectedData_cons]
  exact w.codec.commit_read _ _ hbz

/-- Without a commit in the hands of the inner handler there is none in the proposal. -/
theorem injectedData_prepareWith {votes : List ExtendedVoteInfo} {a : State ρ} {req : PrepareRequest} {txs : List Bytes}
    (h : (prepareWith w votes a req).2 = .ok (some txs))
    (hplain : ∀ tx ∈ w.codec.prepareProposalHandler votes req.txs, hasPrefix tx prefixHMVE = false) :
    injectedData txs = none := by
  cases txs with
  | nil => rfl
  | cons tx txs =>
    have hno : hasPrefix tx prefixHMVE = false := by
      rcases mem_prepareWith w h List.mem_cons_self with hl | hs | ⟨hin, -⟩
      · exact hasPrefix_false_of_ne hl rfl (by decide)
      · exact hasPrefix_false_of_ne hs rfl (by decide)
      · exact hplain tx hin
    exact if_neg (Bool.eq_false_iff.mp hno)

end Prepare

section Reports
variable {k : Hashmerchant.Keeper}

/-- A validator, with what its sidecar answers. -/
structure Reporter where
  address : Bytes
  power : Int64
  sidecar : Option SidecarResponse

/-- The vote of a validator in the commit, its report as the extension. -/
def Reporter.vote (c : Codec k) (v : Reporter) : ExtendedVoteInfo := ⟨v.address, v.power, c.extendVote v.sidecar⟩

/-- What a validator reports. An answer that does not decode is no report, nor is one of no bytes on the wire. -/
def Reporter.candidate (c : Codec k) (v : Reporter) : Option Candidate :=
  (v.sidecar.bind fetchSidecar).bind (fun data => (c.marshalVote data).bind (fun bz =>
    if bz = [] then none else some ⟨data.chainUid, data.algo, data.root⟩))

private theorem candidateOf_vote (c : Codec k) (v : Reporter) : k.candidateOf (v.vote c) = v.candidate c := by
  rw [candidateOf, rootVote, Reporter.vote, Codec.extendVote,
    Reporter.candidate]
  cases v.sidecar.bind fetchSidecar with
  | none => rfl
  | some data =>
    simp only [Option.bind_some]
    cases hbz : c.marshalVote data with
    | none => rfl
    | some bz =>
      simp only [Option.getD_some, Option.bind_some]
      split
      · rfl
      · rw [c.vote_read _ _ hbz]
        rfl

/-- The candidates that the votes carry, and the power behind each, by what the sidecars report. -/
private theorem carried_votes (c : Codec k) (vs : List Reporter) (x : Candidate) :
    k.Carried (vs.map (Reporter.vote c)) x ↔ ∃ v ∈ vs, v.candidate c = some x := by
  rw [Hashmerchant.Keeper.Carried, List.filterMap_map, List.mem_filterMap]
  simp only [Function.comp_apply, candidateOf_vote]

private theorem backing_votes (c : Codec k) (vs : List Reporter) (x : Candidate) :
    (k.backing (vs.map (Reporter.vote c)) x).map ExtendedVoteInfo.power =
      (vs.filter (fun v => v.candidate c = some x)).map Reporter.power := by
  have hcarries : (k.carries x) ∘ Reporter.vote c = fun v => decide (v.candidate c = some x) := by
    funext v
    rw [Function.comp_apply, carries, candidateOf_vote]
  rw [backing, List.filter_map, hcarries, List.map_map]
  rfl

private theorem written_iff (c : Codec k) (vs : List Reporter) (height : UInt64) (s : Hashmerchant.State)
    (o : IterationOrder (k.tallyOf (vs.map (Reporter.vote c)))) (x : Candidate) :
    (∃ r ∈ k.written height s (vs.map (Reporter.vote c)) o, (⟨r.chainUid, r.algo, r.root⟩ : Candidate) = x) ↔
      (∃ v ∈ vs, v.candidate c = some x) ∧ Hashmerchant.quorumThreshold s.getParams (vs.map (Reporter.vote c)) ≤
        Hashmerchant.sumPower ((vs.filter (fun v => v.candidate c = some x)).map Reporter.power) := by
  rw [← carried_votes, ← backing_votes]
  constructor
  · rintro ⟨r, hr, rfl⟩
    obtain ⟨x, hx, hreach, hroot⟩ := mem_written.mp hr
    rw [candidate_of_rootOf hx hreach hroot]
    exact ⟨hx, hreach⟩
  · rintro ⟨hx, hreach⟩
    obtain ⟨r, hroot, -⟩ := (rootOf_entryOf hx).1 hreach
    exact ⟨r, mem_written.mpr ⟨x, hx, hreach, hroot⟩,
      candidate_of_rootOf hx hreach hroot⟩

private theorem candidate_of_empty (c : Codec k) {v : Reporter} (h : (v.vote c).voteExtension = []) :
    v.candidate c = none := by
  rw [← candidateOf_vote, candidateOf, rootVote, if_pos h]
  rfl

end Reports

/-- Under a consensus that hands in the last commit: whatever the mempool of the proposer holds beside other commits,
its block writes a root exactly if some sidecar reported it and the validators whose sidecars did reach the
threshold. -/
theorem reports_reach_roots {k : Hashmerchant.Keeper} {ρ : Type} (w : Wiring k ρ) (validators : List Reporter)
    (hcommit : (w.codec.marshalCommit (validators.map (Reporter.vote w.codec))).isSome = true) (a : State ρ)
    (req : PrepareRequest) (hplain : ∀ tx ∈ req.txs, hasPrefix tx prefixHMVE = false) :
    ∃ txs, (prepareWith w (validators.map (Reporter.vote w.codec)) a req).2 = .ok (some txs) ∧
      ∀ (order : ∀ t : Tally, IterationOrder t) (height : UInt64) (s : Hashmerchant.State) (c : Candidate),
        (∃ r ∈ writtenRoots (w.codec.processInjectedVoteExtension order height s txs).2,
          (⟨r.chainUid, r.algo, r.root⟩ : Candidate) = c) ↔
        (∃ v ∈ validators, v.candidate w.codec = some c) ∧
          Hashmerchant.quorumThreshold s.getParams (validators.map (Reporter.vote w.codec)) ≤
            Hashmerchant.sumPower ((validators.filter (fun v => v.candidate w.codec = some c)).map Reporter.power) := by
  obtain ⟨bz, hbz⟩ := Option.isSome_iff_exists.mp hcommit
  by_cases hreport : ∃ v ∈ validators.map (Reporter.vote w.codec), v.voteExtension ≠ []
  · obtain ⟨txs, htxs, hinjected⟩ := injectedCommit_prepareWith w a req hreport hbz
    refine ⟨txs, htxs, ?_⟩
    intro order height s c
    rw [Codec.processInjectedVoteExtension, hinjected]
    exact written_iff w.codec validators height s _ c
  · -- no sidecar answered: nothing is injected, and nothing is reported
    push Not at hreport
    have hinner : w.codec.prepareProposalHandler (validators.map (Reporter.vote w.codec)) req.txs = req.txs := by
      refine if_neg ?_
      rw [List.any_eq_true]
      rintro ⟨v, hv, hlong⟩
      rw [hreport v hv] at hlong
      cases hlong
    obtain ⟨lnpr, ssle, -, -, htxs⟩ := prepareWith_txs w (validators.map (Reporter.vote w.codec)) a req
    have hnone := injectedData_prepareWith w htxs (hinner.symm ▸ hplain)
    refine ⟨_, htxs, ?_⟩
    intro order height s c
    rw [Codec.processInjectedVoteExtension, Codec.injectedCommit, hnone]
    constructor
    · rintro ⟨r, hr, -⟩
      cases hr
    · rintro ⟨⟨v, hv, hc⟩, -⟩
      rw [candidate_of_empty w.codec (hreport _ (List.mem_map_of_mem hv))] at hc
      cases hc

private def loneReporter : Reporter := ⟨loneAddress, 10, some ⟨text "c", text "a", text "07", 0, 0, []⟩⟩

/-- One validator and its report, in the first block of a chain. -/
theorem reports_reach_roots_first_block : ∃ txs,
    (prepareWith soloWiring [loneReporter.vote loneCodec] soloState ⟨1, [], [1]⟩).2 = .ok (some txs) ∧
      ∃ r ∈ writtenRoots (loneCodec.processInjectedVoteExtension IterationOrder.asStored 1 .empty txs).2,
        (⟨r.chainUid, r.algo, r.root⟩ : Candidate) = ⟨text "c", text "a", [7]⟩ := by
  obtain ⟨txs, htxs, h⟩ := reports_reach_roots soloWiring [loneReporter] (by decide +kernel) soloState ⟨1, [], [1]⟩
    (by simp)
  exact ⟨txs, htxs, (h _ _ _ _).mpr (by decide +kernel)⟩

section Payload

private theorem encode_fits {p : Cwffi.Payload} (h : p.encode.length < 2 ^ 32) :
    p.txs.length < 2 ^ 32 ∧ ∀ tx ∈ p.txs, tx.length < 2 ^ 32 := by
  have hbody : (p.txs.map (fun tx => 4 + tx.length)).sum ≤ p.encode.length := by
    simp only [Payload.encode, List.length_append, List.length_cons, List.length_flatMap,
      BigEndian.beBytes_length]
    omega
  constructor
  · have hcount := List.length_le_sum_of_one_le (p.txs.map (fun tx => 4 + tx.length)) (by simp; omega)
    rw [List.length_map] at hcount
    omega
  · intro tx htx
    have hone := List.le_sum_of_mem (List.mem_map_of_mem (f := fun tx => 4 + tx.length) htx)
    omega

end Payload

section Network
variable {k : Hashmerchant.Keeper} {ρ : Type}

/-- Commits do not pass as transactions. -/
def Wiring.RefusesCommits (w : Wiring k ρ) : Prop :=
  ∀ rest tx, hasPrefix tx prefixHMVE = true → w.others.runTx rest tx ≠ 0

/-- A payload that the driver of a node proposes, after any calls to that node. -/
def Wiring.Proposes (w : Wiring k ρ) (b : Bytes) : Prop :=
  ∃ (a : State ρ) (proposer : Bytes) (q : Option (State ρ → StoreQuery)) (calls : List (Int × Call)) (now : Int)
    (digest : Bytes), ((run (nodeStep (terpApp w)) (startNode (terpApp w) a proposer q) calls).propose
      (terpApp w) now).2 = .ok (digest, b)

private theorem checkTxCode_commit {w : Wiring k ρ} (hw : w.RefusesCommits) (a : State ρ) {tx : Bytes}
    (htx : hasPrefix tx prefixHMVE = true) : checkTxCode w a tx ≠ 0 := by
  have hl : hasPrefix tx prefixLNPR = false := hasPrefix_false_of_ne htx rfl (by decide)
  have hs : hasPrefix tx prefixSSLE = false := hasPrefix_false_of_ne htx rfl (by decide)
  rw [checkTxCode, not_membership htx rfl (by decide) (by decide), hl, hs]
  exact hw a.rest tx htx

private theorem mempool_no_commit {w : Wiring k ρ} (hw : w.RefusesCommits) (a : State ρ) (proposer : Bytes)
    (q : Option (State ρ → StoreQuery)) (calls : List (Int × Call)) {tx : Bytes}
    (htx : tx ∈ (run (nodeStep (terpApp w)) (startNode (terpApp w) a proposer q) calls).driver.mempool) :
    hasPrefix tx prefixHMVE = false := by
  refine Along.invariant (I := fun n => ∀ tx ∈ n.driver.mempool, hasPrefix tx prefixHMVE = false) (C := fun _ _ => True)
    ?_ (fun _ h => absurd h List.not_mem_nil) (Along.of_forall (fun _ _ => trivial)
      (startNode (terpApp w) a proposer q) calls) tx htx
  intro n c hn _ tx htx
  rw [mempool_step] at htx
  rcases Pool.mem_run htx with hold | haccept
  · exact hn tx hold
  rcases mem_poolEvents haccept with ⟨tx', heq, hanswer⟩ | ⟨b, p, heq, -, -⟩
  · obtain rfl := Pool.Event.accept.inj heq
    have hcode : checkTxCode w n.app tx = 0 := Option.some.inj (Except.ok.inj hanswer)
    by_contra hcommit
    exact checkTxCode_commit hw n.app (Bool.eq_true_of_not_eq_false hcommit) hcode
  · cases heq

private theorem propose_ok {w : Wiring k ρ} {n : Cwffi.Node (State ρ)} {now : Int} {digest b : Bytes}
    (h : (n.propose (terpApp w) now).2 = .ok (digest, b)) : ∃ height txs,
    (prepareWith w [] n.app ⟨height, n.driver.mempool, n.driver.proposer⟩).2 = .ok (some txs) ∧
      b = Payload.encode ⟨height, txs⟩ := by
  unfold Node.propose at h
  dsimp only at h
  split at h
  · cases h
  · cases h
  · next a txs hprep =>
    obtain ⟨-, rfl⟩ := Prod.mk.inj (Except.ok.inj h)
    exact ⟨_, txs, congrArg Prod.snd hprep, rfl⟩

/-- A proposed payload holds no membership request, and no commit if the application refuses those. -/
private theorem proposed_txs {w : Wiring k ρ} {b : Bytes} (h : w.Proposes b) (hb : b.length < 2 ^ 32)
    {p : Cwffi.Payload} (hp : decodePayload b = .ok p) :
    (w.RefusesCommits → injectedData p.txs = none) ∧ ∀ tx ∈ p.txs, isMembershipTx tx = false := by
  obtain ⟨a, proposer, q, calls, now, digest, hpropose⟩ := h
  obtain ⟨height, txs, hprep, rfl⟩ := propose_ok hpropose
  obtain ⟨hcount, hsize⟩ := encode_fits hb
  rw [decodePayload_encode _ hcount hsize] at hp
  obtain rfl := Except.ok.inj hp
  constructor
  · intro hw
    refine injectedData_prepareWith w hprep ?_
    intro tx htx
    exact mempool_no_commit hw a proposer q calls htx
  · intro tx htx
    rcases mem_prepareWith w hprep htx with hl | hs | ⟨-, hno⟩
    · exact not_membership hl rfl (by decide) (by decide)
    · exact not_membership hs rfl (by decide) (by decide)
    · exact hno

/-- What a block does to the state of `x/hashmerchant`. -/
private def MerchantBlock (w : Wiring k ρ) (s : Hashmerchant.State) (height : Int64) (txs : List Bytes)
    (u : Hashmerchant.State) : Prop :=
  ∃ traffic : List Traffic, u = (traffic.foldl (trafficStep k)
    (w.codec.processInjectedVoteExtension w.order height.toUInt64 s txs).1).endBlocker height.toUInt64

private theorem merchant_tracks (w : Wiring k ρ) :
    Tracks (terpApp w) State.Idle State.merchant (MerchantBlock w) where
  prepare a req hidle := ⟨(hidle.kept_prepareProposal req).idle, (hidle.kept_prepareProposal req).merchant⟩
  process a req hidle := ⟨(hidle.kept_processProposal req).idle, (hidle.kept_processProposal req).merchant⟩
  checkTx a tx hidle := ⟨(hidle.kept_checkTx tx).idle, (hidle.kept_checkTx tx).merchant⟩
  commit a req hidle hf _ := by
    obtain ⟨-, -, st', rest, traffic, -, -, -, hbranch⟩ := finalizeBlock_ok hidle hf
    change (commit (finalizeBlock w a req).1).1.Idle ∧
      MerchantBlock w a.merchant req.height req.txs (commit (finalizeBlock w a req).1).1.merchant
    rw [commit, hbranch]
    exact ⟨rfl, traffic, rfl⟩

private theorem hashRoots_of_block {w : Wiring k ρ} {s u : Hashmerchant.State} {height : Int64} {txs : List Bytes}
    (hplain : injectedData txs = none) (h : MerchantBlock w s height txs u) : u.hashRoots = s.hashRoots := by
  obtain ⟨traffic, rfl⟩ := h
  have hblock : w.codec.processInjectedVoteExtension w.order height.toUInt64 s txs = (s, []) := by
    rw [Codec.processInjectedVoteExtension, Codec.injectedCommit, hplain]
    rfl
  have htraffic : (traffic.foldl (trafficStep k) s).hashRoots = s.hashRoots := by
    refine foldl_frame (trafficStep k) Hashmerchant.State.hashRoots (fun t e => ?_) s traffic
    cases e with
    | message d =>
      rcases k.deliver_cases t d with hsame | hok
      · exact congrArg Hashmerchant.State.hashRoots hsame
      · exact hashRoots_of_handle hok
    | transfers balances => rfl
  rw [hblock, ← htraffic]
  exact Hashmerchant.State.endBlocker_invariant (I := fun t => t.hashRoots = _) (fun _ _ ht => ht) (fun _ _ ht => ht)
    rfl _

private theorem mem_mempool_run {σ : Type} {app : EngineApp σ} {n : Cwffi.Node σ} {calls : List (Int × Call)}
    {tx : Bytes}
    (hmem : tx ∈ n.driver.mempool)
    (hkept : ∀ b ∈ chainOf app n calls, ∀ p, decodePayload b = .ok p → sha256 tx ∉ p.txs.map sha256) :
    tx ∈ (run (nodeStep app) n calls).driver.mempool := by
  induction calls generalizing n with
  | nil => exact hmem
  | cons c calls ih =>
    rw [chainOf, commitLog, List.map_append, List.forall_mem_append] at hkept
    refine ih ?_ hkept.2
    rw [mempool_step]
    refine Pool.mem_run_of_kept hmem ?_
    rintro ⟨xs, hxs, hk⟩
    rcases mem_poolEvents hxs with ⟨tx', heq, -⟩ | ⟨b, p, heq, hb, hp⟩
    · cases heq
    · obtain rfl := Pool.Event.remove.inj heq
      exact hkept.1 _ (List.mem_map_of_mem hb) p hp hk

end Network

/-- Under the driver no root is ever written: whatever a node is asked, as long as no block fails and the payloads that
it commits were proposed by drivers whose applications refuse commits, the roots stay those of its start. -/
theorem driver_writes_no_root {k : Hashmerchant.Keeper} {ρ : Type} (w : Wiring k ρ) (n : Cwffi.Node (State ρ))
    (hidle : n.app.Idle) (calls : List (Int × Call))
    (hok : Along (nodeStep (terpApp w)) (Completes (terpApp w)) n calls)
    (hchain : ∀ b ∈ chainOf (terpApp w) n calls, b.length < 2 ^ 32 ∧
      ∃ w' : Wiring k ρ, w'.RefusesCommits ∧ w'.Proposes b) :
    (run (nodeStep (terpApp w)) n calls).app.merchant.hashRoots = n.app.merchant.hashRoots := by
  obtain ⟨-, hleads⟩ := (merchant_tracks w).run_view hidle hok
  refine hleads.invariant (I := fun s => s.hashRoots = n.app.merchant.hashRoots) rfl ?_
  intro b hb p hp s u hs hblock
  obtain ⟨hlen, w', hrefuses, hprop⟩ := hchain b hb
  exact (hashRoots_of_block ((proposed_txs hprop hlen hp).1 hrefuses) hblock).trans hs

private theorem failing_refuses : failingWiring.RefusesCommits := by
  intro rest tx _ h
  cases h

/-- The first block of a chain, as the driver of its validator proposes it. -/
private theorem solo_proposed : failingWiring.Proposes soloBlock :=
  ⟨soloState, [1], storeReader, [], 1, sha256 soloBlock, by decide +kernel⟩

/-- A node that checks a request and commits the block that was proposed. -/
private def joinedNode : Cwffi.Node (State Unit) :=
  nodeStep (terpApp failingWiring) (startNode (terpApp failingWiring) soloState [1] storeReader)
    (1, .checkTx (joinTx 2))

private theorem joined_chain :
    ∀ b ∈ chainOf (terpApp failingWiring) joinedNode [(2, .propose), (3, .finalize 0 [] soloBlock [])],
      b.length < 2 ^ 32 ∧ b = soloBlock := by
  have hchain : chainOf (terpApp failingWiring) joinedNode [(2, .propose), (3, .finalize 0 [] soloBlock [])] =
      [soloBlock] := by
    decide +kernel
  intro b hb
  rw [hchain, List.mem_singleton] at hb
  rw [hb]
  exact ⟨by decide +kernel, rfl⟩

/-- The first block of a chain. -/
theorem driver_writes_no_root_first_block :
    (run (nodeStep (terpApp failingWiring)) joinedNode
      [(2, .propose), (3, .finalize 0 [] soloBlock [])]).app.merchant.hashRoots = joinedNode.app.merchant.hashRoots :=
  driver_writes_no_root failingWiring joinedNode (by decide +kernel) _ (by decide +kernel) (fun b hb =>
    ⟨(joined_chain b hb).1, failingWiring, failing_refuses, (joined_chain b hb).2 ▸ solo_proposed⟩)

/-- A membership request in a mempool stays there, whatever blocks the drivers propose and the node commits, unless a
block holds another transaction with its hash. -/
theorem membership_request_stays {k : Hashmerchant.Keeper} {ρ : Type} (w : Wiring k ρ) (n : Cwffi.Node (State ρ))
    (calls : List (Int × Call)) (hchain : ∀ b ∈ chainOf (terpApp w) n calls, b.length < 2 ^ 32 ∧
      ∃ w' : Wiring k ρ, w'.Proposes b) (tx : Bytes) (htx : isMembershipTx tx = true) (hmem : tx ∈ n.driver.mempool) :
    tx ∈ (run (nodeStep (terpApp w)) n calls).driver.mempool ∨
      ∃ b ∈ chainOf (terpApp w) n calls, ∃ p, decodePayload b = .ok p ∧
        ∃ tx' ∈ p.txs, tx' ≠ tx ∧ sha256 tx' = sha256 tx := by
  by_cases hcollide : ∃ b ∈ chainOf (terpApp w) n calls, ∃ p, decodePayload b = .ok p ∧ sha256 tx ∈ p.txs.map sha256
  · obtain ⟨b, hb, p, hp, hhash⟩ := hcollide
    obtain ⟨tx', htx', heq⟩ := List.mem_map.mp hhash
    obtain ⟨hlen, w', hprop⟩ := hchain b hb
    refine .inr ⟨b, hb, p, hp, tx', htx', ?_, heq⟩
    rintro rfl
    rw [(proposed_txs hprop hlen hp).2 _ htx'] at htx
    cases htx
  · push Not at hcollide
    exact .inl (mem_mempool_run hmem hcollide)

/-- A request to join, behind the first block of a chain. -/
theorem membership_request_stays_first_block :
    joinTx 2 ∈ (run (nodeStep (terpApp failingWiring)) joinedNode
      [(2, .propose), (3, .finalize 0 [] soloBlock [])]).driver.mempool ∨
    ∃ b ∈ chainOf (terpApp failingWiring) joinedNode [(2, .propose), (3, .finalize 0 [] soloBlock [])],
      ∃ p, decodePayload b = .ok p ∧ ∃ tx' ∈ p.txs, tx' ≠ joinTx 2 ∧ sha256 tx' = sha256 (joinTx 2) :=
  membership_request_stays failingWiring joinedNode _ (fun b hb =>
    ⟨(joined_chain b hb).1, failingWiring, (joined_chain b hb).2 ▸ solo_proposed⟩) (joinTx 2) (by decide +kernel)
    (by decide +kernel)

end Terpz.App
