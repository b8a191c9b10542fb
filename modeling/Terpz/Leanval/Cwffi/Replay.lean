import Terpz.Leanval.Cwffi.Heights

/-! What a node's application owes to its chain: as long as no block fails, a part of the state that only committed
blocks change comes from the committed payloads, whatever else the node was asked in between. -/
namespace Terpz.Leanval.Cwffi
open Lib
variable {σ α : Type}

/-- Every block that a call hands to the application is committed. -/
def Completes (app : EngineApp σ) (n : Node σ) (c : Int × Call) : Prop :=
  ∀ req ∈ requests (n.call app c.1 c.2).2, req.height ∈ committedHeights (n.call app c.1 c.2).2

instance (app : EngineApp σ) (n : Node σ) (c : Int × Call) : Decidable (Completes app n c) :=
  inferInstanceAs (Decidable (∀ req ∈ _, _))

/-- A view of the application that a committed block changes as `rel` allows, and nothing else changes. This is asked
of the states in which no block is under way. -/
structure Tracks (app : EngineApp σ) (idle : σ → Prop) (view : σ → α) (rel : α → Int64 → List Bytes → α → Prop) :
    Prop where
  prepare : ∀ a req, idle a → idle (app.prepareProposal a req).1 ∧ view (app.prepareProposal a req).1 = view a
  process : ∀ a req, idle a → idle (app.processProposal a req).1 ∧ view (app.processProposal a req).1 = view a
  checkTx : ∀ a tx, idle a → idle (app.checkTx a tx).1 ∧ view (app.checkTx a tx).1 = view a
  commit : ∀ a req, idle a → (app.finalizeBlock a req).2 = .ok () →
    (app.commit (app.finalizeBlock a req).1).2 = .ok () → idle (app.commit (app.finalizeBlock a req).1).1 ∧
      rel (view a) req.height req.txs (view (app.commit (app.finalizeBlock a req).1).1)

/-- The second view comes from the first by the payloads, executed in order. -/
def Leads (rel : α → Int64 → List Bytes → α → Prop) (v : α) : List Bytes → α → Prop
  | [], v' => v = v'
  | b :: bs, v' => ∃ p u, decodePayload b = .ok p ∧ rel v p.height p.txs u ∧ Leads rel u bs v'

theorem leads_append {rel : α → Int64 → List Bytes → α → Prop} {v u v' : α} {bs cs : List Bytes} (h : Leads rel v bs u)
    (h' : Leads rel u cs v') : Leads rel v (bs ++ cs) v' := by
  induction bs generalizing v with
  | nil =>
    cases h
    exact h'
  | cons b bs ih =>
    obtain ⟨p, x, hp, hrel, hrest⟩ := h
    exact ⟨p, x, hp, hrel, ih hrest⟩

/-- What every block keeps is kept by all of them. -/
theorem Leads.invariant {rel : α → Int64 → List Bytes → α → Prop} {I : α → Prop} {v v' : α} {bs : List Bytes}
    (h : Leads rel v bs v') (hv : I v)
    (hstep : ∀ b ∈ bs, ∀ p, decodePayload b = .ok p → ∀ v u, I v → rel v p.height p.txs u → I u) : I v' := by
  induction bs generalizing v with
  | nil =>
    cases h
    exact hv
  | cons b bs ih =>
    obtain ⟨p, u, hp, hrel, hrest⟩ := h
    refine ih hrest (hstep b List.mem_cons_self p hp v u hv hrel) (fun b' hb' => ?_)
    exact hstep b' (List.mem_cons_of_mem _ hb')

/-- The view after the payloads, if they all execute. -/
def replay (exec : α → Int64 → List Bytes → Option α) (v : α) : List Bytes → Option α
  | [] => some v
  | b :: bs => (decodePayload b).toOption.bind (fun p => (exec v p.height p.txs).bind (replay exec · bs))

theorem Leads.replay_eq {exec : α → Int64 → List Bytes → Option α} {v v' : α} {bs : List Bytes}
    (h : Leads (fun v height txs u => exec v height txs = some u) v bs v') : replay exec v bs = some v' := by
  induction bs generalizing v with
  | nil => exact congrArg some h
  | cons b bs ih =>
    obtain ⟨p, u, hp, hexec, hrest⟩ := h
    rw [replay, hp]
    exact (congrArg (Option.bind · (replay exec · bs)) hexec).trans (ih hrest)

/-- The payloads committed in a run, in order. -/
def chainOf (app : EngineApp σ) (n : Node σ) (calls : List (Int × Call)) : List Bytes :=
  (commitLog app n calls).map (fun c => c.2.payload)

namespace Tracks
variable {app : EngineApp σ} {idle : σ → Prop} {view : σ → α} {rel : α → Int64 → List Bytes → α → Prop}

/-- A decided block is executed on the view and committed. -/
private theorem finalizeWith_view (h : Tracks app idle view rel) {n : Node σ} (hidle : idle n.app) {now : Int}
    {epoch : UInt64} {digest payload cert : Bytes} {remote : Bool}
    (hok : ∀ req ∈ requests (n.finalizeWith app now epoch digest payload cert remote).2,
      req.height ∈ committedHeights (n.finalizeWith app now epoch digest payload cert remote).2) :
    idle (n.finalizeWith app now epoch digest payload cert remote).1.app ∧
    Leads rel (view n.app) ((committedHeights (n.finalizeWith app now epoch digest payload cert remote).2).map
      (fun _ => payload)) (view (n.finalizeWith app now epoch digest payload cert remote).1.app) := by
  unfold Node.finalizeWith at hok ⊢
  cases hd : n.decision epoch digest payload cert remote with
  | none => exact ⟨hidle, rfl⟩
  | some dec =>
    obtain ⟨hdecode, -⟩ := decision_eq_some hd
    have hexec := h.commit n.app (dec.request now n.driver.proposer) hidle
    simp only [hd] at hok
    simp only
    split
    · next a e hf =>
      rw [hf] at hok
      exact absurd (hok _ List.mem_cons_self) List.not_mem_nil
    · next a u hf =>
      rw [hf] at hok hexec
      split
      · next a' e hc =>
        simp only [hc] at hok
        exact absurd (hok _ List.mem_cons_self) List.not_mem_nil
      · next a' u' hc =>
        rw [hc] at hexec
        obtain ⟨hidle', hrel⟩ := hexec rfl rfl
        exact ⟨hidle', dec.payload, view a', hdecode, hrel, rfl⟩

/-- A call executes the block that it commits, and leaves the view if it commits none. -/
theorem step_view (h : Tracks app idle view rel) {n : Node σ} (hidle : idle n.app) {c : Int × Call}
    (hok : Completes app n c) : idle (nodeStep app n c).app ∧
      Leads rel (view n.app) ((commits app n c).map (fun c => c.2.payload)) (view (nodeStep app n c).app) := by
  obtain ⟨now, c⟩ := c
  have hblock (epoch : UInt64) (digest payload cert : Bytes) (remote : Bool) :
      ((committedHeights (n.finalizeWith app now epoch digest payload cert remote).2).filterMap
        (fun h => some (h, (⟨payload, cert⟩ : CommittedBlock)))).map (fun c => c.2.payload) =
      (committedHeights (n.finalizeWith app now epoch digest payload cert remote).2).map (fun _ => payload) := by
    rw [List.map_filterMap]
    exact congrFun List.filterMap_eq_map _
  have hsame {a : σ} (hkept : idle a ∧ view a = view n.app) : idle a ∧ Leads rel (view n.app) [] (view a) :=
    ⟨hkept.1, hkept.2.symm⟩
  cases c with
  | finalize epoch digest payload cert =>
    have hview := h.finalizeWith_view hidle hok
    rw [← hblock] at hview
    exact hview
  | applyRemote payload cert =>
    by_cases hempty : payload.length = 0 ∨ cert.length = 0
    · rw [commits, nodeStep, show n.call app now (.applyRemote payload cert) = (n, []) from if_pos hempty]
      exact ⟨hidle, rfl⟩
    · have hcall : n.call app now (.applyRemote payload cert) =
          n.finalizeWith app now 0 (sha256 payload) payload cert true := if_neg hempty
      rw [Completes, hcall] at hok
      have hview := h.finalizeWith_view hidle hok
      rw [← hblock] at hview
      rw [commits, nodeStep, hcall]
      exact hview
  | propose =>
    have hkept := h.prepare n.app
      ⟨if n.driver.next < 1 then 1 else n.driver.next, now, 4194304, n.driver.mempool, n.driver.proposer⟩ hidle
    refine hsame (a := (n.propose app now).1.app) ?_
    unfold Node.propose
    dsimp only
    split <;> next heq => simpa only [heq] using hkept
  | verify digest payload =>
    refine hsame (a := (n.verify app now digest payload).1.app) ?_
    unfold Node.verify
    dsimp only
    split
    · exact ⟨hidle, rfl⟩
    · split
      · exact ⟨hidle, rfl⟩
      · next p _ =>
        have hkept := h.process n.app ⟨p.txs, digest, p.height, now, n.driver.proposer⟩ hidle
        split
        · exact ⟨hidle, rfl⟩
        · split <;> next heq => simpa only [heq] using hkept
  | certify digest => exact ⟨hidle, rfl⟩
  | report kind =>
    refine hsame (a := (n.report kind).app) ?_
    unfold Node.report
    split <;> exact ⟨hidle, rfl⟩
  | checkTx tx =>
    have hkept := h.checkTx n.app tx hidle
    refine hsame (a := (n.checkTx app tx).1.app) ?_
    unfold Node.checkTx
    split <;> next heq => simpa only [heq] using hkept
  | setVerifyCert v => exact ⟨hidle, rfl⟩

/-- The view of a node comes from its first one by what it committed, whatever else it was asked. -/
theorem run_view (h : Tracks app idle view rel) {n : Node σ} (hidle : idle n.app) {calls : List (Int × Call)}
    (hok : Along (nodeStep app) (Completes app) n calls) : idle (run (nodeStep app) n calls).app ∧
      Leads rel (view n.app) (chainOf app n calls) (view (run (nodeStep app) n calls).app) := by
  induction calls generalizing n with
  | nil => exact ⟨hidle, rfl⟩
  | cons c calls ih =>
    obtain ⟨hidle', hstep⟩ := h.step_view hidle hok.1
    obtain ⟨hend, hrest⟩ := ih hidle' hok.2
    rw [chainOf, commitLog, List.map_append]
    exact ⟨hend, leads_append hstep hrest⟩

end Tracks

end Terpz.Leanval.Cwffi
