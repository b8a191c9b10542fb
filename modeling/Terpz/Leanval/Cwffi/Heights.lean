import Terpz.Leanval.Cwffi.CatchUp

/-! The driver's height discipline over every interleaving of calls and any application: blocks
commit at consecutive heights, and a call that commits nothing leaves the driver as it was. -/
namespace Terpz.Leanval.Cwffi
open Lib Function

/-- The notice of a height follows its successful Commit, and nothing else sends one. -/
def committedHeights (calls : List AppCall) : List Int64 :=
  calls.filterMap (fun
    | .onCommit h => some h
    | _ => none)

section
variable {σ : Type} (app : EngineApp σ)

/-- The heights a call commits, with the bytes it was given. -/
def commits (n : Node σ) (c : Int × Call) : List (Int64 × CommittedBlock) :=
  (committedHeights (n.call app c.1 c.2).2).filterMap (fun h => c.2.block.map (h, ·))

/-- Everything committed in a run, in order. -/
def commitLog (n : Node σ) : List (Int × Call) → List (Int64 × CommittedBlock)
  | [] => []
  | c :: cs => commits app n c ++ commitLog (nodeStep app n c) cs

end

section Step
variable {σ : Type} {app : EngineApp σ}

variable (app) in
/-- A decided block is committed as it stands, or the driver does not change. -/
theorem finalizeWith_cases (n : Node σ) (now : Int) (epoch : UInt64) (digest payload cert : Bytes)
    (remote : Bool) :
    (committedHeights (n.finalizeWith app now epoch digest payload cert remote).2 = [] ∧
      (n.finalizeWith app now epoch digest payload cert remote).1.driver = n.driver) ∨
    ∃ dec, n.decision epoch digest payload cert remote = some dec ∧
      committedHeights (n.finalizeWith app now epoch digest payload cert remote).2 = [dec.payload.height] ∧
      (n.finalizeWith app now epoch digest payload cert remote).1.driver = n.driver.record dec payload cert := by
  unfold Node.finalizeWith
  cases hd : n.decision epoch digest payload cert remote with
  | none => exact .inl ⟨rfl, rfl⟩
  | some dec =>
    simp only
    split
    · exact .inl ⟨rfl, rfl⟩
    · split
      · exact .inl ⟨rfl, rfl⟩
      · exact .inr ⟨dec, rfl, rfl, rfl⟩

/-- Every call commits nothing and keeps the chain, or commits the next height. -/
theorem call_commits (n : Node σ) (c : Int × Call) :
    (commits app n c = [] ∧ SameChain n.driver (nodeStep app n c).driver ∧
      (c.2.block.isSome = true → (nodeStep app n c).driver = n.driver)) ∨
    ∃ h blk, commits app n c = [(h, blk)] ∧ (n.driver.next > 0 → h = n.driver.next) ∧
      (nodeStep app n c).driver.next = h + 1 ∧
      (nodeStep app n c).driver.committed = update n.driver.committed h (some blk) := by
  have hblock (epoch : UInt64) (digest payload cert : Bytes) (remote : Bool) :
      ((committedHeights (n.finalizeWith app c.1 epoch digest payload cert remote).2).filterMap
          (fun h => some (h, (⟨payload, cert⟩ : CommittedBlock))) = [] ∧
        (n.finalizeWith app c.1 epoch digest payload cert remote).1.driver = n.driver) ∨
      ∃ h blk, (committedHeights (n.finalizeWith app c.1 epoch digest payload cert remote).2).filterMap
          (fun h => some (h, (⟨payload, cert⟩ : CommittedBlock))) = [(h, blk)] ∧
        (n.driver.next > 0 → h = n.driver.next) ∧
        (n.finalizeWith app c.1 epoch digest payload cert remote).1.driver.next = h + 1 ∧
        (n.finalizeWith app c.1 epoch digest payload cert remote).1.driver.committed =
          update n.driver.committed h (some blk) := by
    rcases finalizeWith_cases app n c.1 epoch digest payload cert remote with ⟨hh, hdr⟩ | ⟨dec, hdec, hh, hdr⟩
    · exact .inl ⟨by rw [hh]; rfl, hdr⟩
    · obtain ⟨_, hheight, _⟩ := decision_eq_some hdec
      exact .inr ⟨dec.payload.height, ⟨payload, cert⟩, by rw [hh]; rfl, hheight, by rw [hdr]; rfl, by rw [hdr]; rfl⟩
  obtain ⟨now, c⟩ := c
  cases hb : c.block with
  | none =>
    refine .inl ⟨?_, (call_without_block n now c hb).1, fun h => ?_⟩
    · rw [commits, hb]
      exact List.filterMap_none _
    · cases h
  | some blk =>
    cases c with
    | propose | verify | certify | report | checkTx | setVerifyCert => cases hb
    | finalize epoch digest payload cert =>
      rcases hblock epoch digest payload cert false with ⟨hh, hdr⟩ | h
      · exact .inl ⟨hh, ⟨congrArg Driver.next hdr, congrArg Driver.committed hdr⟩, fun _ => hdr⟩
      · exact .inr h
    | applyRemote payload cert =>
      by_cases hempty : payload.length = 0 ∨ cert.length = 0
      · have hcall : n.call app now (.applyRemote payload cert) = (n, []) := if_pos hempty
        rw [commits, nodeStep, hcall]
        exact .inl ⟨rfl, ⟨rfl, rfl⟩, fun _ => rfl⟩
      · have hcall : n.call app now (.applyRemote payload cert) =
            n.finalizeWith app now 0 (sha256 payload) payload cert true := if_neg hempty
        rw [commits, nodeStep, hcall]
        rcases hblock 0 (sha256 payload) payload cert true with ⟨hh, hdr⟩ | h
        · exact .inl ⟨hh, ⟨congrArg Driver.next hdr, congrArg Driver.committed hdr⟩, fun _ => hdr⟩
        · exact .inr h

/-- A committed block is the one that the call brought, and its payload names the height. -/
theorem mem_commits {n : Node σ} {c : Int × Call} {h : Int64} {blk : CommittedBlock} (hm : (h, blk) ∈ commits app n c) :
    c.2.block = some blk ∧ ∃ p, decodePayload blk.payload = .ok p ∧ p.height = h ∧
      (n.driver.next > 0 → h = n.driver.next) := by
  obtain ⟨now, c⟩ := c
  obtain ⟨h', hh, hmap⟩ := List.mem_filterMap.mp hm
  obtain ⟨blk', hblock, heq⟩ := Option.map_eq_some_iff.mp hmap
  obtain ⟨rfl, rfl⟩ := Prod.mk.inj heq
  refine ⟨hblock, ?_⟩
  have hdecided (epoch : UInt64) (digest payload cert : Bytes) (remote : Bool)
      (hh : h' ∈ committedHeights (n.finalizeWith app now epoch digest payload cert remote).2) :
      ∃ p, decodePayload payload = .ok p ∧ p.height = h' ∧ (n.driver.next > 0 → h' = n.driver.next) := by
    rcases finalizeWith_cases app n now epoch digest payload cert remote with ⟨hnone, -⟩ | ⟨dec, hdec, hone, -⟩
    · rw [hnone] at hh
      cases hh
    · rw [hone, List.mem_singleton] at hh
      subst hh
      obtain ⟨hdecode, hheight, -⟩ := decision_eq_some hdec
      exact ⟨dec.payload, hdecode, rfl, hheight⟩
  cases c with
  | propose | verify | certify | report | checkTx | setVerifyCert => cases hblock
  | finalize epoch digest payload cert =>
    obtain rfl := Option.some.inj hblock
    exact hdecided epoch digest payload cert false hh
  | applyRemote payload cert =>
    obtain rfl := Option.some.inj hblock
    simp only [Node.call, Node.applyRemote] at hh
    split at hh
    · cases hh
    · exact hdecided 0 _ payload cert true hh

end Step

section Run
variable {σ : Type} {app : EngineApp σ}

theorem commitLog_append (n : Node σ) (cs ds : List (Int × Call)) :
    commitLog app n (cs ++ ds) = commitLog app n cs ++ commitLog app (run (nodeStep app) n cs) ds := by
  induction cs generalizing n with
  | nil => rfl
  | cons c cs ih => rw [List.cons_append, commitLog, commitLog, ih, List.append_assoc, run_cons]

/-- Calls without a block commit nothing. -/
theorem run_quiet (n : Node σ) {cs : List (Int × Call)} (h : ∀ c ∈ cs, c.2.block = none) :
    commitLog app n cs = [] ∧ SameChain n.driver (run (nodeStep app) n cs).driver := by
  induction cs generalizing n with
  | nil => exact ⟨rfl, rfl, rfl⟩
  | cons c cs ih =>
    obtain ⟨hc, hcs⟩ := List.forall_mem_cons.mp h
    obtain ⟨hlog, hsame⟩ := ih (nodeStep app n c) hcs
    have hfirst := (@call_without_block _ app n c.1 c.2 hc).1
    refine ⟨?_, hsame.next.trans hfirst.next, hsame.committed.trans hfirst.committed⟩
    rw [commitLog, hlog, commits, hc]
    exact List.append_nil _ ▸ List.filterMap_none _

theorem toInt_succ {h : Int64} (hh : h < Int64.maxValue) : (h + 1).toInt = h.toInt + 1 := by
  have hlt := Int64.lt_iff_toInt_lt.mp hh
  have hmin := h.minValue_le_toInt
  have hmax : Int64.maxValue.toInt = 2 ^ 63 - 1 := by decide
  rw [Int64.toInt_add, show (1 : Int64).toInt = 1 from rfl]
  rw [hmax] at hlt
  have hm : Int64.minValue.toInt = - 2 ^ 63 := by decide
  rw [Int.bmod_eq_of_le]
  · omega
  · omega

/-- Consecutive heights from the current one, and the table grown by exactly the log. -/
private theorem commitLog_spec (n : Node σ) (hpos : n.driver.next > 0) (calls : List (Int × Call))
    (hmax : ∀ e ∈ commitLog app n calls, e.1 < Int64.maxValue) :
    (commitLog app n calls).map (fun e => e.1.toInt) =
      (List.range (commitLog app n calls).length).map (fun k : Nat => n.driver.next.toInt + k) ∧
    (run (nodeStep app) n calls).driver.next.toInt = n.driver.next.toInt + (commitLog app n calls).length ∧
    (run (nodeStep app) n calls).driver.next > 0 ∧
    ∀ h blk, (run (nodeStep app) n calls).driver.committed h = some blk ↔
      (h, blk) ∈ commitLog app n calls ∨
        (n.driver.committed h = some blk ∧ h ∉ (commitLog app n calls).map Prod.fst) := by
  induction calls generalizing n with
  | nil => simpa [commitLog] using hpos
  | cons c calls ih =>
    rcases call_commits n c with ⟨hnone, hsame, _⟩ | ⟨h, blk, hone, hheight, hnext, hcom⟩
    · have hlog : commitLog app n (c :: calls) = commitLog app (nodeStep app n c) calls := by
        rw [commitLog, hnone, List.nil_append]
      rw [hlog] at hmax ⊢
      have := ih (nodeStep app n c) (by rw [hsame.next]; exact hpos) hmax
      rwa [hsame.next, hsame.committed] at this
    · obtain rfl := hheight hpos
      have hlog : commitLog app n (c :: calls) = (n.driver.next, blk) :: commitLog app (nodeStep app n c) calls := by
        rw [commitLog, hone, List.singleton_append]
      rw [hlog] at hmax ⊢
      have hsucc : (n.driver.next + 1).toInt = n.driver.next.toInt + 1 :=
        toInt_succ (hmax (n.driver.next, blk) List.mem_cons_self)
      have hpos' : (nodeStep app n c).driver.next > 0 := by
        have h0 : (0 : Int64).toInt = 0 := rfl
        have := Int64.lt_iff_toInt_lt.mp hpos
        rw [hnext, gt_iff_lt, Int64.lt_iff_toInt_lt, hsucc]
        omega
      obtain ⟨hheights, hlast, hposr, htable⟩ := ih _ hpos' (fun e he => hmax e (List.mem_cons_of_mem _ he))
      rw [hnext, hsucc] at hheights hlast
      rw [run_cons]
      refine ⟨?_, ?_, hposr, ?_⟩
      · rw [List.map_cons, hheights, List.length_cons, List.range_succ_eq_map, List.map_cons, List.map_map]
        simp only [Nat.cast_zero, add_zero, List.cons.injEq, true_and]
        apply List.map_congr_left
        intro k _
        simp only [comp_apply, Nat.cast_succ]
        omega
      · rw [hlast, List.length_cons]
        push_cast
        omega
      · intro h blk'
        -- the height committed first does not come again
        have hfresh : n.driver.next ∉ (commitLog app (nodeStep app n c) calls).map Prod.fst := by
          intro hmem
          obtain ⟨e, he, hfst⟩ := List.mem_map.mp hmem
          have : e.1.toInt ∈ (commitLog app (nodeStep app n c) calls).map (fun e => e.1.toInt) :=
            List.mem_map_of_mem he
          rw [hheights, hfst] at this
          obtain ⟨k, _, hk⟩ := List.mem_map.mp this
          omega
        rw [htable, hcom, update_apply]
        by_cases hh : h = n.driver.next
        · subst hh
          have hno : ∀ b, (n.driver.next, b) ∉ commitLog app (nodeStep app n c) calls :=
            fun b hb => hfresh (List.mem_map.mpr ⟨_, hb, rfl⟩)
          simp only [if_pos, hno, hfresh, false_or, not_false_eq_true, and_true, Option.some_inj, List.mem_cons,
            Prod.mk.injEq, true_and, or_false, List.map_cons, not_true_eq_false, and_false]
          exact eq_comm
        · simp [hh]

end Run

/-- Over any calls to a fresh driver, with any application and heights below 2^63 - 1: the
heights of the successful Commits are consecutive from the first one due, the next height
follows the last, the table holds exactly what was committed, and every block call that commits
nothing changes nothing. -/
theorem driver_height_discipline {σ : Type} (app : EngineApp σ) (a : σ) (proposer : Bytes) (q : Option (σ → StoreQuery))
    (hlast : ∀ h, app.lastBlockHeight a = some h → h < Int64.maxValue) (calls : List (Int × Call))
    (hmax : ∀ e ∈ commitLog app (startNode app a proposer q) calls, e.1 < Int64.maxValue) :
    let n0 := startNode app a proposer q
    let log := commitLog app n0 calls
    let n := run (nodeStep app) n0 calls
    log.map (fun e => e.1.toInt) = (List.range log.length).map (fun k : Nat => n0.driver.next.toInt + k) ∧
    n.driver.next.toInt = n0.driver.next.toInt + log.length ∧
    (∀ h blk, n.driver.committed h = some blk ↔ (h, blk) ∈ log) ∧
    ∀ pre c post, calls = pre ++ c :: post → c.2.block.isSome = true →
      commits app (run (nodeStep app) n0 pre) c = [] →
      (nodeStep app (run (nodeStep app) n0 pre) c).driver = (run (nodeStep app) n0 pre).driver := by
  intro n0 log n
  have hpos : n0.driver.next > 0 := by
    change (newDriver app a proposer).next > 0
    simp only [newDriver]
    split
    · decide
    · rename_i h hinfo
      split
      · decide
      · rename_i hge
        have h1 := Int64.le_iff_toInt_le.mp (Int64.not_lt.mp hge)
        rw [gt_iff_lt, Int64.lt_iff_toInt_lt, toInt_succ (hlast h hinfo)]
        have hone : (1 : Int64).toInt = 1 := rfl
        have hzero : (0 : Int64).toInt = 0 := rfl
        omega
  obtain ⟨hheights, hnext, _, htable⟩ := commitLog_spec n0 hpos calls hmax
  refine ⟨hheights, hnext, ?_, ?_⟩
  · intro h blk
    rw [htable]
    have hempty : n0.driver.committed h = none := rfl
    simp [hempty, log]
  · intro pre c post _ hblock hnone
    rcases call_commits (run (nodeStep app) n0 pre) c with ⟨_, _, hsame⟩ | ⟨h, blk, hone, _⟩
    · exact hsame hblock
    · rw [hone] at hnone
      cases hnone

/-- An application whose Commit fails every other time. -/
def flakyApp : EngineApp Bool where
  lastBlockHeight _ := none
  prepareProposal a _ := (a, .ok none)
  processProposal a _ := (a, .ok none)
  finalizeBlock a _ := (a, .ok ())
  commit a := (!a, if a then .ok () else .error "commit failed")
  checkTx a _ := (a, .ok none)

def blockAt (h : Int64) : Bytes := Payload.encode ⟨h, []⟩

/-- A Commit that fails, the same block again, a gap, and the next block over catch-up. -/
def flakyCalls : List (Int × Call) :=
  [(1, .finalize 0 [] (blockAt 1) []), (2, .finalize 0 [] (blockAt 1) []), (3, .propose),
    (4, .finalize 0 [] (blockAt 3) []), (5, .applyRemote (blockAt 2) [0x01]), (6, .applyRemote (blockAt 2) [0x01])]

private theorem flakyCalls_log :
    commitLog flakyApp (startNode flakyApp false [] none) flakyCalls =
      [(1, ⟨blockAt 1, []⟩), (2, ⟨blockAt 2, [0x01]⟩)] := by
  decide +kernel

/-- Height 1 commits once, at its second try, and height 2 once over catch-up. -/
theorem driver_height_discipline_flaky :
    commitLog flakyApp (startNode flakyApp false [] none) flakyCalls =
      [(1, ⟨blockAt 1, []⟩), (2, ⟨blockAt 2, [0x01]⟩)] ∧
    (run (nodeStep flakyApp) (startNode flakyApp false [] none) flakyCalls).driver.next.toInt = 1 + 2 := by
  have hmax : ∀ e ∈ commitLog flakyApp (startNode flakyApp false [] none) flakyCalls, e.1 < Int64.maxValue := by
    rw [flakyCalls_log]
    decide
  obtain ⟨_, hnext, _⟩ := driver_height_discipline flakyApp false [] none (fun h hh => by cases hh) flakyCalls hmax
  rw [flakyCalls_log] at hnext
  exact ⟨flakyCalls_log, hnext⟩

end Terpz.Leanval.Cwffi
