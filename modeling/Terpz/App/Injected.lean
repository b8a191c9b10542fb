import Terpz.App.ChainState

/-! The vote extensions of `x/hashmerchant` on their way through a proposal, under a consensus that hands in the last
commit and under the driver, which hands in none. -/
namespace Terpz.App
open Lib Lib.PrefixStore Leanval Leanval.Keeper Leanval.Cwffi Hashmerchant.Keeper
open Hashmerchant (Codec Tally IterationOrder ExtendedVoteInfo VoteExtensionHashData injectedVoteExtensionPrefix
  injectedData SidecarResponse fetchSidecar Candidate writtenRoots)

section Slots
variable {bz : Bytes} {txs : List Bytes}

theorem injectedData_cons (bz : Bytes) (txs : List Bytes) :
    injectedData ((injectedVoteExtensionPrefix ++ bz) :: txs) = some bz := by
  have hprefix : injectedVoteExtensionPrefix.isPrefixOf (injectedVoteExtensionPrefix ++ bz) = true :=
    List.isPrefixOf_iff_prefix.mpr (List.prefix_append _ _)
  rw [injectedData, if_pos hprefix, List.drop_left]

private theorem injected_hasPrefix (bz : Bytes) : hasPrefix (injectedVoteExtensionPrefix ++ bz) prefixHMVE = true :=
  List.isPrefixOf_iff_prefix.mpr (List.prefix_append _ _)

private theorem injected_no_lnpr (bz : Bytes) : decodeLNPR (injectedVoteExtensionPrefix ++ bz) = none :=
  decodeLNPR_of_not_hasPrefix (hasPrefix_false_of_ne (injected_hasPrefix bz) rfl (by decide))

theorem findLNPR_injected (bz : Bytes) (txs : List Bytes) :
    findLNPR ((injectedVoteExtensionPrefix ++ bz) :: txs) = findLNPR txs := by
  rw [findLNPR, List.findSome?_cons, injected_no_lnpr]
  rfl

private theorem findSome_shift {α β : Type} (f : α → Option β) (xs : List α) (n : Nat) :
    (xs.zipIdx (n + 1)).findSome? (fun e => (f e.1).map (·, e.2)) =
      ((xs.zipIdx n).findSome? (fun e => (f e.1).map (·, e.2))).map (fun e => (e.1, e.2 + 1)) := by
  induction xs generalizing n with
  | nil => rfl
  | cons x xs ih =>
    rw [List.zipIdx_cons, List.zipIdx_cons, List.findSome?_cons, List.findSome?_cons]
    cases f x with
    | none => exact ih (n + 1)
    | some y => rfl

/-- What is found behind an element that is nothing is found one place later. -/
private theorem findSome_behind {α β : Type} (f : α → Option β) {x : α} (hx : f x = none) (xs : List α) :
    (x :: xs).zipIdx.findSome? (fun e => (f e.1).map (·, e.2)) =
      (xs.zipIdx.findSome? (fun e => (f e.1).map (·, e.2))).map (fun e => (e.1, e.2 + 1)) := by
  rw [List.zipIdx_cons, List.findSome?_cons, hx]
  exact findSome_shift f xs 0

private theorem expectedLNPRIndex_plain (h : injectedData txs = none) : expectedLNPRIndex txs = 0 := by
  cases txs with
  | nil => rfl
  | cons tx txs =>
    rw [injectedData] at h
    split at h
    · cases h
    · next hno => exact if_neg hno

/-- A commit in front moves the record to the place where it is then expected. -/
private theorem checkLNPR_injected (h : Host) (requireLNPR : Bool) (live : Int64) (st : Store) (height : Int64)
    (hplain : injectedData txs = none) (bz : Bytes) :
    (checkLNPR h requireLNPR live st height ((injectedVoteExtensionPrefix ++ bz) :: txs)).2 = .ok () ↔
      (checkLNPR h requireLNPR live st height txs).2 = .ok () := by
  have hfind : findLNPRAt ((injectedVoteExtensionPrefix ++ bz) :: txs) =
      (findLNPRAt txs).map (fun e => (e.1, e.2 + 1)) := findSome_behind decodeLNPR (injected_no_lnpr bz) txs
  have hslot : expectedLNPRIndex ((injectedVoteExtensionPrefix ++ bz) :: txs) = 1 := by
    rw [expectedLNPRIndex, if_pos (injected_hasPrefix bz)]
  rw [checkLNPR, checkLNPR, hfind, hslot, expectedLNPRIndex_plain hplain]
  cases findLNPRAt txs with
  | none => rfl
  | some e =>
    obtain ⟨blob, idx⟩ := e
    simp only [Option.map_some]
    by_cases hidx : idx = 0
    · subst hidx
      simp
    · rw [if_pos (by omega : idx + 1 ≠ 1), if_pos hidx]
      simp

private theorem checkSSLE_injected (env : StwoEnv) (live height : Int64) (bz : Bytes) (txs : List Bytes) :
    checkSSLE env live height ((injectedVoteExtensionPrefix ++ bz) :: txs) = checkSSLE env live height txs := by
  have hno : decodeSSLE (injectedVoteExtensionPrefix ++ bz) = none := by
    have hother : hasPrefix (injectedVoteExtensionPrefix ++ bz) prefixSSLE = false :=
      hasPrefix_false_of_ne (injected_hasPrefix bz) rfl (by decide)
    rw [decodeSSLE, hother]
    rfl
  have hfind : findSSLE ((injectedVoteExtensionPrefix ++ bz) :: txs) = (findSSLE txs).map (fun e => (e.1, e.2 + 1)) :=
    findSome_behind decodeSSLE hno txs
  rw [checkSSLE, checkSSLE, hfind]
  cases findSSLE txs <;> rfl

end Slots

section Verdict
variable {k : Hashmerchant.Keeper} {ρ : Type} {w : Wiring k ρ} {live : Int64} {st : Store} {height : Int64}
  {txs : List Bytes}

theorem verdict_eq_accept : verdict w live st height txs = .accept ↔
    (checkLNPR w.host w.requireLNPR live st height txs).2 = .ok () ∧ checkSSLE w.stwo live height txs = .ok () ∧
      w.codec.processProposalHandler txs = true := by
  unfold verdict
  cases (checkLNPR w.host w.requireLNPR live st height txs).2 with
  | error e => simp
  | ok u =>
    cases checkSSLE w.stwo live height txs with
    | error e => simp
    | ok u => cases w.codec.processProposalHandler txs <;> simp

/-- A proposal without a commit passes exactly if it passes behind any commit that parses. -/
theorem verdict_injected (hplain : injectedData txs = none) {bz : Bytes} {votes : List ExtendedVoteInfo}
    (hbz : w.codec.unmarshalCommit bz = some votes) :
    verdict w live st height ((injectedVoteExtensionPrefix ++ bz) :: txs) = .accept ↔
      verdict w live st height txs = .accept := by
  have hparse : w.codec.processProposalHandler ((injectedVoteExtensionPrefix ++ bz) :: txs) = true := by
    rw [Codec.processProposalHandler, injectedData_cons]
    simp only [hbz]
    rfl
  have hnone : w.codec.processProposalHandler txs = true := by
    rw [Codec.processProposalHandler, hplain]
  rw [verdict_eq_accept, verdict_eq_accept, checkLNPR_injected _ _ _ _ _ hplain, checkSSLE_injected, hparse, hnone]

/-- What a block with a commit in front does to the roots: its votes are tallied. -/
theorem processInjected_cons {bz : Bytes} {votes : List ExtendedVoteInfo}
    (hbz : w.codec.unmarshalCommit bz = some votes)
    (height : UInt64) (s : Hashmerchant.State) (txs : List Bytes) :
    w.codec.processInjectedVoteExtension w.order height s ((injectedVoteExtensionPrefix ++ bz) :: txs) =
      k.processVoteExtensions height s votes (w.order (k.tallyOf votes)) := by
  have hcommit : w.codec.injectedCommit ((injectedVoteExtensionPrefix ++ bz) :: txs) = some votes := by
    rw [Codec.injectedCommit, injectedData_cons]
    exact hbz
  rw [Codec.processInjectedVoteExtension, hcommit]

end Verdict

section Lone
variable {k : Hashmerchant.Keeper}

/-- One vote is a quorum of itself. -/
private theorem lone_reaches {p : Hashmerchant.Params} (hvalid : p.validate = .ok ()) {v : ExtendedVoteInfo}
    (hpower : 0 ≤ v.power) {c : Candidate} (hc : k.carries c v = true) : k.Reaches p [v] c := by
  obtain ⟨hd, -⟩ := Hashmerchant.Params.validate_eq_ok.mp hvalid
  have hself : Hashmerchant.sumPower [v.power] = v.power := Int64.zero_add v.power
  have hback : k.backing [v] c = [v] := by
    rw [backing, List.filter_cons_of_pos hc]
    rfl
  rw [Reaches, Hashmerchant.quorumThreshold, hback, List.map_singleton, hself,
    Int64.le_iff_toInt_le,
    Hashmerchant.toInt_mulTruncate hd]
  have hn : 0 ≤ v.power.toInt := Int64.le_iff_toInt_le.mp hpower
  have hunit : (0 : Int) < Hashmerchant.decUnit := by decide
  rw [Int.tdiv_eq_ediv_of_nonneg (mul_nonneg hd.1 hn)]
  exact Int.ediv_le_of_le_mul hunit (by nlinarith [hd.2])

/-- The root written for a candidate that reaches the threshold: what its first vote says, with the number of votes. -/
private theorem rootOf_reached {p : Hashmerchant.Params} {votes : List ExtendedVoteInfo} {c : Candidate}
    (hreach : k.Reaches p votes c) {v : Hashmerchant.RootVote} {rest : List Hashmerchant.RootVote}
    (hvotes : k.votesFor votes c.key (hex c.root) = v :: rest) :
    Hashmerchant.rootOf (Hashmerchant.quorumThreshold p votes) (k.entryOf votes c) =
      some (Hashmerchant.confirmedRoot c.key v (v :: rest)) := by
  rw [Reaches, ← votesFor_power, hvotes] at hreach
  rw [entryOf, hvotes, Hashmerchant.rootOf]
  exact if_neg (Int64.not_lt.mpr hreach)

/-- One vote confirms one root. -/
private theorem lone_written {s : Hashmerchant.State} (hvalid : s.getParams.validate = .ok ()) {address ext : Bytes}
    {power : Int64} (hpower : 0 ≤ power) {data : VoteExtensionHashData} (hne : ext ≠ [])
    (hdata : k.unmarshalVote ext = some data) (height : UInt64)
    (o : IterationOrder (k.tallyOf [⟨address, power, ext⟩])) :
    k.written height s [⟨address, power, ext⟩] o = [⟨data.chainUid, data.algo, data.foreignHeight, data.root, 1,
      data.foreignBlockTime, k.voteExtensionAttestations data⟩] := by
  have hvote : k.rootVote ⟨address, power, ext⟩ = some (⟨data.chainUid, data.algo⟩,
      ⟨data.root, data.foreignHeight, data.foreignBlockTime, power, k.voteExtensionAttestations data⟩) := by
    rw [rootVote, if_neg hne, hdata]
    rfl
  have hcand : k.candidateOf ⟨address, power, ext⟩ = some ⟨data.chainUid, data.algo, data.root⟩ := by
    rw [candidateOf, hvote]
    rfl
  have hvisited : o.candidates = [k.entryOf [⟨address, power, ext⟩] ⟨data.chainUid, data.algo, data.root⟩] := by
    refine List.perm_singleton.mp ((List.perm_ext_iff_of_nodup o.candidates_nodup (List.nodup_singleton _)).mpr ?_)
    intro x
    rw [mem_candidates_iff]
    simp [Hashmerchant.Keeper.Carried, hcand]
  have hvotes : k.votesFor [⟨address, power, ext⟩] ⟨data.chainUid, data.algo⟩ (hex data.root) =
      [⟨data.root, data.foreignHeight, data.foreignBlockTime, power, k.voteExtensionAttestations data⟩] := by
    rw [votesFor, List.filterMap_cons, hvote]
    simp
  have hreach := lone_reaches (v := ⟨address, power, ext⟩) hvalid hpower (decide_eq_true hcand)
  rw [written_eq, hvisited, List.filterMap_cons, rootOf_reached hreach hvotes]
  rfl

end Lone

/-- Whatever a node accepts without a commit it accepts with a commit of one vote in front, from any address and with
any power that is not negative, and the record is found as before; the block then writes one root, with the height and
the time of that vote. -/
theorem forged_commit_confirms {k : Hashmerchant.Keeper} {ρ : Type} (w : Wiring k ρ) (live : Int64) (st : Store)
    (height : Int64) (txs : List Bytes) (hplain : injectedData txs = none)
    (hacc : verdict w live st height txs = .accept) (s : Hashmerchant.State) (hvalid : s.getParams.validate = .ok ())
    (data : VoteExtensionHashData) (address ext bz : Bytes) (power : Int64) (hpower : 0 ≤ power)
    (hext : w.codec.marshalVote data = some ext) (hne : ext ≠ [])
    (hbz : w.codec.marshalCommit [⟨address, power, ext⟩] = some bz) :
    let forged := (injectedVoteExtensionPrefix ++ bz) :: txs
    verdict w live st height forged = .accept ∧ findLNPR forged = findLNPR txs ∧
      writtenRoots (w.codec.processInjectedVoteExtension w.order height.toUInt64 s forged).2 =
        [⟨data.chainUid, data.algo, data.foreignHeight, data.root, 1, data.foreignBlockTime,
          k.voteExtensionAttestations data⟩] := by
  intro forged
  have hread := w.codec.commit_read _ _ hbz
  refine ⟨(verdict_injected hplain hread).mpr hacc, findLNPR_injected bz txs, ?_⟩
  rw [processInjected_cons hread]
  exact lone_written hvalid hpower hne (w.codec.vote_read _ _ hext) _ _

private def soloTxs : List Bytes := [encodeLNPR (lnprFor honestHost soloState.store soloState.queue 0).2]

/-- The first block of a chain behind a commit that its proposer made up. -/
private def forgedTxs : List Bytes := (injectedVoteExtensionPrefix ++ loneCommitBytes) :: soloTxs

theorem forged_commit_confirms_first_block :
    verdict soloWiring 2 soloState.store 1 forgedTxs = .accept ∧
      writtenRoots (loneCodec.processInjectedVoteExtension IterationOrder.asStored 1 .empty forgedTxs).2 =
        [⟨text "c", text "a", 0, [7], 1, 0, []⟩] := by
  have h := forged_commit_confirms soloWiring 2 soloState.store 1 soloTxs (by decide +kernel) (by decide +kernel)
    .empty (by decide +kernel) ⟨text "c", text "a", [7], 0, 0, [], []⟩ loneAddress (Hashmerchant.rootExtension 7)
    loneCommitBytes 10 (by decide) (by decide +kernel) (by decide +kernel) (by decide +kernel)
  have hbare : Hashmerchant.sampleKeeper.voteExtensionAttestations ⟨text "c", text "a", [7], 0, 0, [], []⟩ = [] := by
    decide +kernel
  rw [hbare] at h
  exact ⟨h.1, h.2.2⟩

end Terpz.App
