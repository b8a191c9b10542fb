import Terpz.Leanval.Ffi.Automaton

/-! Payloads travel beside the votes. Every store answers a digest with bytes that hash to it, whoever sent them, so a
block that consensus commits is the one its certificate names. Which of the decided blocks a node commits depends on the
payloads it holds when they are reported. -/
namespace Terpz.Leanval.Ffi
open Lib Lib.ContentStore Lib.DoublingTree Function Cwffi

/-- A height that the driver takes for its next block. -/
def Due (next h : Int64) : Prop := next > 0 → h = next

instance (next h : Int64) : Decidable (Due next h) := inferInstanceAs (Decidable (_ → _))

/-- The blocks that a chain takes from the decided payloads: of each height the first. -/
def taken (next : Int64) : List Bytes → List Bytes
  | [] => []
  | b :: bs =>
    match decodePayload b with
    | .error _ => taken next bs
    | .ok p => if Due next p.height then b :: taken (p.height + 1) bs else taken next bs

theorem taken_prefix {bs cs : List Bytes} (h : bs <+: cs) (next : Int64) : taken next bs <+: taken next cs := by
  induction bs generalizing cs next with
  | nil => exact List.nil_prefix
  | cons b bs ih =>
    obtain ⟨t, rfl⟩ := h
    have htail : bs <+: bs ++ t := List.prefix_append bs t
    rw [List.cons_append, taken, taken]
    split
    · exact ih htail next
    · split
      · exact List.cons_prefix_cons.mpr ⟨rfl, ih htail _⟩
      · exact ih htail next

/-- The digests that a list of events reports as final. -/
def finalized (evs : List Event) : List Bytes :=
  evs.filterMap (fun
    | .report _ (.finalization f) => some f.proposal.payload
    | _ => none)

namespace Engine
variable {σ : Type}

/-- The store, and what the threads have read from it, are under their hashes. -/
structure Addressed (e : Engine σ) : Prop where
  store : ContentStore.Addressed sha256 e.store
  found : ∀ p ∈ e.found, sha256 p.2 = p.1

theorem addressed_fresh (n : Node σ) : (fresh n).Addressed := ⟨addressed_empty, nofun⟩

theorem proposalEntry_hash {p entry : Bytes × Bytes} (h : proposalEntry p = some entry) : sha256 entry.2 = entry.1 := by
  unfold proposalEntry at h
  split at h
  · cases h
  · split at h
    · obtain rfl := Option.some.inj h
      rfl
    · next heq =>
      obtain rfl := Option.some.inj h
      exact not_not.mp heq

section Steps
variable {app : EngineApp σ} {cw : Commonware}

private theorem addressed_storeProposal {e : Engine σ} (h : e.Addressed) (k : Nat) : (e.storeProposal k).Addressed := by
  unfold storeProposal
  split
  · exact h
  · next p _ =>
    dsimp only
    split
    · exact ⟨h.store, h.found⟩
    · next digest payload hentry => exact ⟨h.store.update (proposalEntry_hash hentry), h.found⟩

private theorem addressed_findPayload {e : Engine σ} (h : e.Addressed) (digest : Bytes) :
    (e.findPayload digest).Addressed := by
  unfold findPayload
  split
  · exact h
  · next bytes hbytes =>
    refine ⟨h.store, fun p hp => ?_⟩
    rcases List.mem_append.mp hp with hp | hp
    · exact h.found p hp
    · obtain rfl := List.mem_singleton.mp hp
      exact h.store digest bytes hbytes

private theorem addressed_verify {e : Engine σ} (h : e.Addressed) (now : Int) (k : Nat) :
    (e.verify app now k).Addressed := by
  unfold verify
  split
  · exact h
  · exact ⟨h.store, fun p hp => h.found p (List.mem_of_mem_eraseIdx hp)⟩

theorem addressed_step {e : Engine σ} (h : e.Addressed) (ev : Event) : (e.step app cw ev).Addressed := by
  cases ev with
  | propose now =>
    rw [step, propose]
    split <;> exact ⟨h.store, h.found⟩
  | storeProposal k => exact addressed_storeProposal h k
  | findPayload digest => exact addressed_findPayload h digest
  | verify now k => exact addressed_verify h now k
  | certify digest => exact h
  | receive bytes => exact ⟨h.store.update rfl, h.found⟩
  | report now a => cases a <;> exact ⟨h.store, h.found⟩
  | checkTx tx => exact ⟨h.store, h.found⟩
  | setVerifyCert v => exact ⟨h.store, h.found⟩
  | catchUp now payload cert => exact ⟨h.store, h.found⟩
  | start => exact ⟨addressed_empty, h.found⟩

/-- An event moves the driver by the calls it makes. -/
theorem step_node (e : Engine σ) (ev : Event) :
    (e.step app cw ev).node = run (nodeStep app) e.node (e.calls cw ev) := by
  cases ev with
  | propose now =>
    rw [step, propose]
    split <;> next heq => exact (congrArg Prod.fst heq).symm
  | storeProposal k =>
    rw [step, storeProposal]
    split
    · rfl
    · dsimp only
      split <;> rfl
  | findPayload digest =>
    rw [step, findPayload]
    split <;> rfl
  | verify now k =>
    rw [step, verify, calls]
    split <;> next heq => rw [heq]; rfl
  | report now a => cases a <;> rfl
  | certify | receive | checkTx | setVerifyCert | catchUp | start => rfl

/-- Every run of a process is a run of its driver. -/
theorem run_node (e : Engine σ) (evs : List Event) :
    (run (step app cw) e evs).node = run (nodeStep app) e.node (trace (step app cw) (calls cw) e evs) ∧
    trace (step app cw) (commits app cw) e evs = commitLog app e.node (trace (step app cw) (calls cw) e evs) := by
  induction evs generalizing e with
  | nil => exact ⟨rfl, rfl⟩
  | cons ev evs ih =>
    obtain ⟨hrun, hlog⟩ := ih (e.step app cw ev)
    rw [step_node] at hrun hlog
    rw [trace, trace, commitLog_append, run_append, run_cons]
    exact ⟨hrun, congrArg (commits app cw e ev ++ ·) hlog⟩

/-- An event asks the driver to commit at most one block, with its last call. -/
private theorem calls_cases (cw : Commonware) (e : Engine σ) (ev : Event) : ∃ quiet, (∀ c ∈ quiet, c.2.block = none) ∧
    (e.calls cw ev = quiet ∨ ∃ c, e.calls cw ev = quiet ++ [c]) := by
  cases ev with
  | report now a =>
    refine ⟨[(now, .report a.parts.1)], List.forall_mem_singleton.mpr rfl, ?_⟩
    cases a with
    | finalization f => exact .inr ⟨_, rfl⟩
    | _ => exact .inl rfl
  | catchUp now payload cert => exact ⟨[], nofun, .inr ⟨_, rfl⟩⟩
  | verify now k =>
    refine ⟨_, fun c hc => ?_, .inl rfl⟩
    obtain ⟨p, -, rfl⟩ := List.mem_map.mp hc
    rfl
  | storeProposal | findPayload | receive | start => exact ⟨[], nofun, .inl rfl⟩
  | propose | certify | checkTx | setVerifyCert => exact ⟨_, List.forall_mem_singleton.mpr rfl, .inl rfl⟩

/-- An event commits nothing and keeps the chain, or commits one block at the next height. -/
theorem step_commits (app : EngineApp σ) (cw : Commonware) (e : Engine σ) (ev : Event) :
    (e.commits app cw ev = [] ∧ SameChain e.node.driver (e.step app cw ev).node.driver) ∨
    ∃ h blk, e.commits app cw ev = [(h, blk)] ∧ (e.node.driver.next > 0 → h = e.node.driver.next) ∧
      (e.step app cw ev).node.driver.next = h + 1 ∧
      (e.step app cw ev).node.driver.committed = update e.node.driver.committed h (some blk) := by
  obtain ⟨quiet, hquiet, hcalls | ⟨c, hcalls⟩⟩ := calls_cases cw e ev
  · rw [step_node, commits, hcalls]
    exact .inl (run_quiet e.node hquiet)
  · obtain ⟨hlog, hsame⟩ := @run_quiet _ app e.node _ hquiet
    rw [step_node, commits, hcalls, commitLog_append, hlog, run_append, run_cons, run_nil, commitLog, commitLog,
      List.nil_append, List.append_nil]
    rcases @call_commits _ app (run (nodeStep app) e.node quiet) c with
      ⟨hnone, hchain, -⟩ | ⟨h, blk, hone, hheight, hnext, hcom⟩
    · exact .inl ⟨hnone, hchain.next.trans hsame.next, hchain.committed.trans hsame.committed⟩
    · rw [hsame.next] at hheight
      rw [hsame.committed] at hcom
      exact .inr ⟨h, blk, hone, hheight, hnext, hcom⟩

/-- Blocks come from reports and from catch-up. -/
theorem commits_cases {e : Engine σ} {ev : Event} (h : e.commits app cw ev ≠ []) :
    (∃ now f, ev = .report now (.finalization f)) ∨ ∃ now payload cert, ev = .catchUp now payload cert := by
  cases ev with
  | report now a =>
    cases a with
    | finalization f => exact .inl ⟨now, f, rfl⟩
    | _ => exact absurd rfl h
  | catchUp now payload cert => exact .inr ⟨now, payload, cert, rfl⟩
  | verify now k =>
    refine absurd (run_quiet e.node (fun c hc => ?_)).1 h
    obtain ⟨p, -, rfl⟩ := List.mem_map.mp hc
    rfl
  | _ => exact absurd rfl h

end Steps

section Chain
variable (app : EngineApp σ) (cw : Commonware)

/-- The payload that an event hands to the driver for commitment. -/
def decided (e : Engine σ) : Event → List Bytes
  | .report _ (.finalization f) => (e.store f.proposal.payload).toList
  | _ => []

/-- A finalization finds its payload in the store, and the block is committed if it is due. Nothing is fetched. -/
def Prompt (e : Engine σ) : Event → Prop
  | .report now (.finalization f) => ∃ b, e.store f.proposal.payload = some b ∧
      ∀ p, decodePayload b = .ok p → Due e.node.driver.next p.height →
        e.commits app cw (.report now (.finalization f)) ≠ []
  | .catchUp _ _ _ => False
  | _ => True

variable {app cw}

theorem commits_report (e : Engine σ) (now : Int) (f : Finalization) :
    e.commits app cw (.report now (.finalization f)) = Cwffi.commits app (e.node.report 6) (now, e.finalizeCall cw f) :=
  List.append_nil _

/-- A reported finalization commits the stored payload of its digest, when that is due, and nothing else. -/
theorem report_commits {e : Engine σ} {now : Int} {f : Finalization} {h : Int64} {blk : CommittedBlock}
    (hc : e.commits app cw (.report now (.finalization f)) = [(h, blk)]) :
    ∃ b p, e.store f.proposal.payload = some b ∧ blk = ⟨b, cw.encodeLcert f⟩ ∧ decodePayload b = .ok p ∧
      p.height = h ∧ Due e.node.driver.next h := by
  rw [commits_report] at hc
  obtain ⟨hblock, p, hdecode, hheight, hdue⟩ := mem_commits (hc ▸ List.mem_singleton_self _)
  obtain rfl := Option.some.inj hblock
  cases hb : e.store f.proposal.payload with
  | none =>
    rw [hb] at hdecode
    cases hdecode
  | some b =>
    rw [hb] at hdecode
    exact ⟨b, p, rfl, rfl, hdecode, hheight, hdue⟩

/-- An event under which everything decided is committed promptly extends the chain as `taken` does. -/
private theorem prompt_step {e : Engine σ} {ev : Event} (h : Prompt app cw e ev) (bs : List Bytes) :
    taken e.node.driver.next (e.decided ev ++ bs) =
      (e.commits app cw ev).map (fun c => c.2.payload) ++ taken (e.step app cw ev).node.driver.next bs := by
  rcases step_commits app cw e ev with ⟨hnone, hchain⟩ | ⟨height, blk, hone, hheight, hnext, -⟩
  · rw [hnone, hchain.next]
    cases ev with
    | report now a =>
      cases a with
      | finalization f =>
        obtain ⟨b, hb, hcommit⟩ := h
        rw [decided, hb, Option.toList_some, List.singleton_append, taken]
        split
        · rfl
        · next p hp =>
          rw [if_neg (fun hdue => hcommit p hp hdue hnone)]
          rfl
      | _ => rfl
    | _ => rfl
  · rcases commits_cases (by rw [hone]; exact List.cons_ne_nil _ _) with ⟨now, f, rfl⟩ | ⟨now, payload, cert, rfl⟩
    · obtain ⟨b, p, hb, rfl, hp, rfl, hdue⟩ := report_commits hone
      rw [decided, hb, Option.toList_some, List.singleton_append, taken, hp, hone, hnext]
      exact if_pos hdue
    · exact absurd h id

/-- The chain of a prompt run is what the decided payloads leave of each height. -/
theorem chain_eq_taken {e : Engine σ} {evs : List Event} (h : Along (step app cw) (Prompt app cw) e evs) :
    (trace (step app cw) (commits app cw) e evs).map (fun c => c.2.payload) =
      taken e.node.driver.next (trace (step app cw) decided e evs) := by
  induction evs generalizing e with
  | nil => rfl
  | cons ev evs ih =>
    rw [trace, trace, List.map_append, ih h.2, prompt_step h.1]

/-- In a prompt run the decided payloads hash to the digests reported. -/
theorem decided_hash {e : Engine σ} (he : e.Addressed) {evs : List Event}
    (h : Along (step app cw) (Prompt app cw) e evs) :
    (trace (step app cw) decided e evs).map sha256 = finalized evs := by
  induction evs generalizing e with
  | nil => rfl
  | cons ev evs ih =>
    rw [trace, List.map_append, ih (addressed_step he ev) h.2, finalized, finalized, List.filterMap_cons]
    cases ev with
    | report now a =>
      cases a with
      | finalization f =>
        obtain ⟨b, hb, -⟩ := h.1
        rw [decided, hb, Option.toList_some, List.map_singleton, he.store _ b hb, List.singleton_append]
      | _ => rfl
    | _ => rfl

/-- The payloads committed in a run, in order. -/
def chain (app : EngineApp σ) (cw : Commonware) (e : Engine σ) (evs : List Event) : List Bytes :=
  (trace (step app cw) (commits app cw) e evs).map (fun c => c.2.payload)

end Chain

end Engine

/-- Two nodes that start at one height, are reported the same finalizations as far as the shorter report goes, hold each
payload when it is reported and commit it when it is due, have the same chain as far as the shorter chain goes, unless
two of their payloads collide. -/
theorem prompt_chains_agree {σ τ : Type} (app : EngineApp σ) (app' : EngineApp τ) (cw : Commonware) (n : Node σ)
    (n' : Node τ) (hnext : n.driver.next = n'.driver.next) {evs evs' : List Event}
    (h : Along (Engine.step app cw) (Engine.Prompt app cw) (.fresh n) evs)
    (h' : Along (Engine.step app' cw) (Engine.Prompt app' cw) (.fresh n') evs')
    (hfinal : finalized evs <+: finalized evs') :
    Engine.chain app cw (.fresh n) evs <+: Engine.chain app' cw (.fresh n') evs' ∨
    Collision sha256 (trace (Engine.step app cw) Engine.decided (.fresh n) evs)
      (trace (Engine.step app' cw) Engine.decided (.fresh n') evs') := by
  rw [← Engine.decided_hash (Engine.addressed_fresh n) h, ← Engine.decided_hash (Engine.addressed_fresh n') h']
    at hfinal
  rcases prefix_or_collision hfinal with hprefix | hcol
  · refine .inl ?_
    rw [Engine.chain, Engine.chain, Engine.chain_eq_taken h, Engine.chain_eq_taken h']
    exact hnext ▸ taken_prefix hprefix _
  · exact .inr hcol

section Sample

/-- A wire on which a finalization is its digest. -/
def digestWire : Commonware := ⟨fun f => f.proposal.payload, fun _ _ => none, fun _ => true, some, fun _ _ => true⟩

def finalOf (b : Bytes) : Finalization :=
  ⟨⟨0, 1, 0, sha256 b, sha256_length b⟩, ⟨⟨[true], by decide⟩, [some (List.replicate 64 0x51)]⟩⟩

def idleNode : Node Unit := startNode (idleApp Unit) () [] none

/-- A block arrives and is reported final. -/
def arrives (b : Bytes) : List Event := [.receive b, .report 1 (.finalization (finalOf b))]

private theorem arrives_prompt : Along (Engine.step (idleApp Unit) digestWire) (Engine.Prompt (idleApp Unit) digestWire)
    (.fresh idleNode) (arrives emptyBlock ++ arrives (blockAt 2)) := by
  have h1 : ((Engine.fresh idleNode).receive emptyBlock).store (sha256 emptyBlock) = some emptyBlock := update_self ..
  have h2 : (run (Engine.step (idleApp Unit) digestWire) (.fresh idleNode)
      (arrives emptyBlock ++ [.receive (blockAt 2)])).store (sha256 (blockAt 2)) = some (blockAt 2) := update_self ..
  exact ⟨trivial, ⟨_, h1, fun _ _ _ => by decide +kernel⟩, trivial, ⟨_, h2, fun _ _ _ => by decide +kernel⟩, trivial⟩

end Sample

/-- A node that saw one block and a node that saw two. -/
theorem prompt_chains_agree_two_blocks :
    Engine.chain (idleApp Unit) digestWire (.fresh idleNode) (arrives emptyBlock) <+:
      Engine.chain (idleApp Unit) digestWire (.fresh idleNode) (arrives emptyBlock ++ arrives (blockAt 2)) ∨
    Collision sha256 (trace (Engine.step (idleApp Unit) digestWire) Engine.decided (.fresh idleNode)
      (arrives emptyBlock))
      (trace (Engine.step (idleApp Unit) digestWire) Engine.decided (.fresh idleNode)
        (arrives emptyBlock ++ arrives (blockAt 2))) :=
  prompt_chains_agree (idleApp Unit) (idleApp Unit) digestWire idleNode idleNode rfl arrives_prompt.append.1
    arrives_prompt ⟨_, rfl⟩

section Late
variable {σ : Type} {app : EngineApp σ} {cw : Commonware}

/-- A finalization whose payload is not there leaves the driver where it was. -/
private theorem report_missing {e : Engine σ} {f : Finalization} (h : e.store f.proposal.payload = none) (now : Int) :
    e.commits app cw (.report now (.finalization f)) = [] ∧
      (e.step app cw (.report now (.finalization f))).node = e.node := by
  have hcall : (e.node.report 6).call app now (e.finalizeCall cw f) = (e.node.report 6, []) := by
    rw [Engine.finalizeCall, h]
    rfl
  constructor
  · rw [Engine.commits_report, Cwffi.commits, hcall]
    rfl
  · exact congrArg Prod.fst hcall

/-- A finalization whose payload is there, and which the driver would commit, commits it. -/
private theorem report_held {e : Engine σ} {f : Finalization} {b : Bytes} {p : Cwffi.Payload} {now : Int}
    (hb : e.store f.proposal.payload = some b) (hp : decodePayload b = .ok p)
    (hc : Cwffi.commits app e.node (now, .finalize f.proposal.epoch f.proposal.payload b (cw.encodeLcert f)) ≠ []) :
    e.commits app cw (.report now (.finalization f)) = [(p.height, ⟨b, cw.encodeLcert f⟩)] ∧
      (e.step app cw (.report now (.finalization f))).node.driver.next = p.height + 1 := by
  have hcommits : e.commits app cw (.report now (.finalization f)) =
      Cwffi.commits app e.node (now, .finalize f.proposal.epoch f.proposal.payload b (cw.encodeLcert f)) := by
    rw [Engine.commits_report, Engine.finalizeCall, hb]
    rfl
  rcases Engine.step_commits app cw e (.report now (.finalization f)) with
    ⟨hnone, -⟩ | ⟨h, blk, hone, -, hnext, -⟩
  · exact absurd (hcommits.symm.trans hnone) hc
  · obtain ⟨b', p', hb', rfl, hp', rfl, -⟩ := Engine.report_commits hone
    obtain rfl := Option.some.inj (hb.symm.trans hb')
    obtain rfl := Except.ok.inj (hp.symm.trans hp')
    exact ⟨hone, hnext⟩

private theorem not_due_succ {h : Int64} (hpos : 0 < h) (hmax : h < Int64.maxValue) : ¬ Due (h + 1) h := by
  have hsucc := toInt_succ hmax
  have hpos := Int64.lt_iff_toInt_lt.mp hpos
  have h0 : (0 : Int64).toInt = 0 := rfl
  intro hdue
  have heq := congrArg Int64.toInt (hdue (Int64.lt_iff_toInt_lt.mpr (by omega)))
  omega

private theorem report_past {e : Engine σ} {f : Finalization} {b : Bytes} {p : Cwffi.Payload}
    (hb : e.store f.proposal.payload = some b) (hp : decodePayload b = .ok p)
    (hpast : ¬ Due e.node.driver.next p.height) (now : Int) :
    e.commits app cw (.report now (.finalization f)) = [] := by
  rcases Engine.step_commits app cw e (.report now (.finalization f)) with ⟨hnone, -⟩ | ⟨h, blk, hone, -⟩
  · exact hnone
  · obtain ⟨b', p', hb', -, hp', rfl, hdue⟩ := Engine.report_commits hone
    obtain rfl := Option.some.inj (hb.symm.trans hb')
    obtain rfl := Except.ok.inj (hp.symm.trans hp')
    exact absurd hdue hpast

end Late

/-- Whatever two decided blocks of one height are, and whatever application executes either: of two nodes that are
reported both finalizations in the same order, the one that holds both payloads commits the first block, and the one
that receives the first payload only after its report commits the second block at that height. -/
theorem late_payload_forks {σ : Type} (app : EngineApp σ) (cw : Commonware) (n : Node σ) (now : Int) {a b : Bytes}
    {fa fb : Finalization} {pa pb : Cwffi.Payload} (ha : decodePayload a = .ok pa) (hb : decodePayload b = .ok pb)
    (hheight : pa.height = pb.height) (hpos : 0 < n.driver.next) (hmax : pa.height < Int64.maxValue)
    (hne : sha256 a ≠ sha256 b) (hfa : fa.proposal.payload = sha256 a) (hfb : fb.proposal.payload = sha256 b)
    (hca : Cwffi.commits app n (now, .finalize fa.proposal.epoch (sha256 a) a (cw.encodeLcert fa)) ≠ [])
    (hcb : Cwffi.commits app n (now, .finalize fb.proposal.epoch (sha256 b) b (cw.encodeLcert fb)) ≠ []) :
    let early : List Event :=
      [.receive a, .receive b, .report now (.finalization fa), .report now (.finalization fb)]
    let late : List Event :=
      [.receive b, .report now (.finalization fa), .receive a, .report now (.finalization fb)]
    finalized early = finalized late ∧ Engine.chain app cw (.fresh n) early = [a] ∧
      Engine.chain app cw (.fresh n) late = [b] := by
  intro early late
  refine ⟨rfl, ?_, ?_⟩
  · -- both payloads are there: the first is committed, and its height is not due again
    let held := ((Engine.fresh n).receive a).receive b
    have hsa : held.store fa.proposal.payload = some a := by
      rw [hfa]
      exact (update_of_ne hne _ _).trans (update_self ..)
    have hsb : (held.step app cw (.report now (.finalization fa))).store fb.proposal.payload = some b := by
      rw [hfb]
      exact update_self ..
    obtain ⟨hfirst, hnext⟩ := report_held (e := held) hsa ha (hfa ▸ hca)
    obtain ⟨-, -, -, -, -, -, hdue⟩ := Engine.report_commits hfirst
    have hpast : ¬ Due (held.step app cw (.report now (.finalization fa))).node.driver.next pb.height := by
      rw [hnext, hheight]
      exact not_due_succ (hheight ▸ hdue hpos ▸ hpos) (hheight ▸ hmax)
    have htrace : trace (Engine.step app cw) (Engine.commits app cw) (.fresh n) early =
        held.commits app cw (.report now (.finalization fa)) ++
          ((held.step app cw (.report now (.finalization fa))).commits app cw (.report now (.finalization fb)) ++ []) :=
      rfl
    rw [Engine.chain, htrace, hfirst, report_past hsb hb hpast]
    rfl
  · let waiting := (Engine.fresh n).receive b
    have hsa : waiting.store fa.proposal.payload = none := by
      rw [hfa]
      exact update_of_ne hne _ _
    obtain ⟨hfirst, hnode⟩ := @report_missing _ app cw _ _ hsa now
    let arrived := (waiting.step app cw (.report now (.finalization fa))).receive a
    have hsb : arrived.store fb.proposal.payload = some b := by
      rw [hfb]
      exact (update_of_ne hne.symm _ _).trans (update_self ..)
    have harrived : arrived.node = n := hnode
    obtain ⟨hsecond, -⟩ := report_held hsb hb (show Cwffi.commits app arrived.node _ ≠ [] from harrived ▸ hfb ▸ hcb)
    have htrace : trace (Engine.step app cw) (Engine.commits app cw) (.fresh n) late =
        waiting.commits app cw (.report now (.finalization fa)) ++
          (arrived.commits app cw (.report now (.finalization fb)) ++ []) := rfl
    rw [Engine.chain, htrace, hfirst, hsecond]
    rfl

/-- Two first blocks, the empty one and another. -/
theorem late_payload_forks_first_block :
    Engine.chain (idleApp Unit) digestWire (.fresh idleNode) [.receive emptyBlock, .receive forgedBlock,
      .report 1 (.finalization (finalOf emptyBlock)), .report 1 (.finalization (finalOf forgedBlock))] = [emptyBlock] ∧
    Engine.chain (idleApp Unit) digestWire (.fresh idleNode) [.receive forgedBlock,
      .report 1 (.finalization (finalOf emptyBlock)), .receive emptyBlock,
      .report 1 (.finalization (finalOf forgedBlock))] = [forgedBlock] :=
  (@late_payload_forks _ (idleApp Unit) digestWire idleNode 1 emptyBlock forgedBlock (finalOf emptyBlock)
    (finalOf forgedBlock) ⟨1, []⟩ ⟨1, [[0xde, 0xad]]⟩ (by decide +kernel) (by decide +kernel) rfl (by decide +kernel)
      (by decide +kernel) (by decide +kernel) rfl rfl
    (by decide +kernel) (by decide +kernel)).2

section Network
variable {ι σ : Type} [DecidableEq ι] (app : EngineApp σ) (cw : Commonware)

/-- A network of processes takes the events of its members in any order. -/
def networkStep (w : ι → Engine σ) (ev : ι × Event) : ι → Engine σ := update w ev.1 ((w ev.1).step app cw ev.2)

/-- What a member fetches is in the table of a member at that moment. -/
def Fetched (w : ι → Engine σ) : ι × Event → Prop
  | (_, .catchUp _ payload cert) => ∃ j h, (w j).node.driver.committed h = some ⟨payload, cert⟩
  | _ => True

/-- A block beside the certificate of a reported finalization of its own hash. -/
def Final (evs : List (ι × Event)) (blk : CommittedBlock) : Prop :=
  ∃ i now f, (i, .report now (.finalization f)) ∈ evs ∧ blk.cert = cw.encodeLcert f ∧
    sha256 blk.payload = f.proposal.payload

/-- The members' stores are under their hashes, and their tables hold final blocks. -/
private def Sound (evs : List (ι × Event)) (w : ι → Engine σ) : Prop :=
  ∀ i, (w i).Addressed ∧ ∀ h blk, (w i).node.driver.committed h = some blk → Final cw evs blk

variable {app cw} {evs : List (ι × Event)}

omit [DecidableEq ι] in
/-- What a member of a sound network commits is final. -/
private theorem final_of_commits {w : ι → Engine σ} (hw : Sound cw evs w) {ev : ι × Event} (hev : ev ∈ evs)
    (hfetch : Fetched w ev) {h : Int64} {blk : CommittedBlock}
    (hc : (w ev.1).commits app cw ev.2 = [(h, blk)]) : Final cw evs blk := by
  obtain ⟨i, ev⟩ := ev
  rcases Engine.commits_cases (by rw [hc]; exact List.cons_ne_nil _ _) with
    ⟨now, f, rfl⟩ | ⟨now, payload, cert, rfl⟩
  · obtain ⟨b, p, hb, rfl, -⟩ := Engine.report_commits hc
    exact ⟨i, now, f, hev, rfl, (hw i).1.store _ b hb⟩
  · have hc : Cwffi.commits app (w i).node (now, .applyRemote payload cert) = [(h, blk)] :=
      (List.append_nil _).symm.trans hc
    obtain ⟨hblock, -⟩ := mem_commits (hc ▸ List.mem_singleton_self (h, blk))
    obtain rfl := Option.some.inj hblock
    obtain ⟨j, height, hj⟩ := hfetch
    exact (hw j).2 height _ hj

private theorem sound_step {w : ι → Engine σ} (hw : Sound cw evs w) {ev : ι × Event} (hev : ev ∈ evs)
    (hfetch : Fetched w ev) : Sound cw evs (networkStep app cw w ev) := by
  intro j
  unfold networkStep
  by_cases hj : j = ev.1
  · subst hj
    rw [update_self]
    refine ⟨Engine.addressed_step (hw ev.1).1 ev.2, fun h blk hcom => ?_⟩
    rcases Engine.step_commits app cw (w ev.1) ev.2 with ⟨-, hchain⟩ | ⟨h', blk', hone, -, -, htable⟩
    · rw [hchain.committed] at hcom
      exact (hw ev.1).2 h blk hcom
    · rw [htable, update_apply] at hcom
      split at hcom
      · obtain rfl := Option.some.inj hcom
        exact final_of_commits hw hev hfetch hone
      · exact (hw ev.1).2 h blk hcom
  · rw [update_of_ne hj]
    exact hw j

private theorem sound_run {w : ι → Engine σ} (hw : Sound cw evs w) {part : List (ι × Event)} (hsub : part ⊆ evs)
    (h : Along (networkStep app cw) Fetched w part) : Sound cw evs (run (networkStep app cw) w part) := by
  induction part generalizing w with
  | nil => exact hw
  | cons ev part ih =>
    obtain ⟨hev, hsub⟩ := List.cons_subset.mp hsub
    exact ih (sound_step hw hev h.1) hsub h.2

/-- The digest in the wire of a certificate. -/
def digestField (cert : Bytes) : Bytes := (cert.drop 22).take 32

theorem digestField_encodeLcert (f : Finalization) : digestField (cw.encodeLcert f) = f.proposal.payload := by
  have hwire : cw.encodeLcert f = (lcertMagic ++ lcertVersion :: (putU64 f.proposal.epoch ++ putU64 f.proposal.view)) ++
      (f.proposal.payload ++ (cw.encodeLcert f).drop 54) := by
    rw [Commonware.encodeLcert, encodeLcert_eq, drop_lcertHeader f.proposal.payload_length]
    simp only [Finalization.leanCert, lcertHeader, List.append_assoc, List.cons_append]
  rw [digestField, hwire, List.drop_left' (by simp [lcertMagic]), List.take_left' f.proposal.payload_length]

end Network

/-- In any network of fresh processes, over any interleaving of their threads, of gossip with any bytes and of catch-up
from one another: every block in every table was reported final with the certificate beside it, whose digest is the hash
of the block; and two blocks under certificates of one digest are the same block or a collision. -/
theorem committed_blocks_final {ι σ : Type} [DecidableEq ι] (app : EngineApp σ) (cw : Commonware) (nodes : ι → Node σ)
    (hempty : ∀ i h, (nodes i).driver.committed h = none) (evs : List (ι × Event))
    (hfetch : Along (networkStep app cw) Fetched (fun i => .fresh (nodes i)) evs) :
    let w := run (networkStep app cw) (fun i => .fresh (nodes i)) evs
    (∀ i h blk, (w i).node.driver.committed h = some blk →
      Final cw evs blk ∧ digestField blk.cert = sha256 blk.payload) ∧
    ∀ i h blk j h' blk', (w i).node.driver.committed h = some blk → (w j).node.driver.committed h' = some blk' →
      digestField blk.cert = digestField blk'.cert →
      blk.payload = blk'.payload ∨ Collision sha256 [blk.payload] [blk'.payload] := by
  intro w
  have hsound : Sound cw evs w := by
    refine sound_run (fun i => ⟨Engine.addressed_fresh _, fun h blk hcom => ?_⟩) (List.Subset.refl _) hfetch
    rw [show (Engine.fresh (nodes i)).node = nodes i from rfl, hempty] at hcom
    cases hcom
  have hfinal : ∀ i h blk, (w i).node.driver.committed h = some blk →
      Final cw evs blk ∧ digestField blk.cert = sha256 blk.payload := by
    intro i h blk hcom
    obtain ⟨k, now, f, hev, hcert, hhash⟩ := (hsound i).2 h blk hcom
    refine ⟨⟨k, now, f, hev, hcert, hhash⟩, ?_⟩
    rw [hcert, digestField_encodeLcert, hhash]
  refine ⟨hfinal, fun i h blk j h' blk' hi hj heq => ?_⟩
  rw [(hfinal i h blk hi).2, (hfinal j h' blk' hj).2] at heq
  exact eq_or_collision List.mem_cons_self List.mem_cons_self heq

/-- One member commits the first block from its engine, the other fetches it. -/
theorem committed_blocks_final_fetched :
    let evs : List (Bool × Event) := (arrives emptyBlock).map (true, ·) ++
      [(false, .catchUp 2 emptyBlock (digestWire.encodeLcert (finalOf emptyBlock)))]
    let w := run (networkStep (idleApp Unit) digestWire) (fun _ => .fresh idleNode) evs
    (w false).node.driver.committed 1 = some ⟨emptyBlock, digestWire.encodeLcert (finalOf emptyBlock)⟩ ∧
    digestField (digestWire.encodeLcert (finalOf emptyBlock)) = sha256 emptyBlock := by
  intro evs w
  have hfetched : (w false).node.driver.committed 1 =
      some ⟨emptyBlock, digestWire.encodeLcert (finalOf emptyBlock)⟩ := by decide +kernel
  have halong : Along (networkStep (idleApp Unit) digestWire) Fetched (fun _ => .fresh idleNode) evs :=
    ⟨trivial, trivial, ⟨true, 1, by decide +kernel⟩, trivial⟩
  exact ⟨hfetched, ((committed_blocks_final (idleApp Unit) digestWire (fun _ => idleNode) (fun _ _ => rfl) evs
    halong).1 false 1 _ hfetched).2⟩

end Terpz.Leanval.Ffi
