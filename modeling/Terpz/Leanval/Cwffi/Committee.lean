import Terpz.Lib.Run
import Terpz.Leanval.Keeper.Block
import Terpz.Leanval.Cwffi.Replay
import Terpz.Leanval.Cwffi.Replica

/-! A node over whole runs: the engine keeps the committee it was started with, while every
finalization reads the committee again from the committed store. The two agree as long as the
blocks of an epoch leave the seated keys alone. -/
namespace Terpz.Leanval.Cwffi
open Lib Keeper

structure Version where
  store : Store
  height : Int64

/-- The committed state, and the state of a block that is executed and not committed. -/
structure AppState where
  committed : Version
  working : Option Version

/-- The settings of leanval, and the answers of the rest of the application. -/
structure AppConfig where
  host : Host
  requireLNPR : Bool
  blocksPerPeriod : Int64
  initialHeight : Int64
  refuses : Version → RequestFinalizeBlock → Option String
  /-- What a failed block leaves of the state it was executed on. -/
  leftover : Version → RequestFinalizeBlock → Version
  prepare : AppState → RequestPrepareProposal → Except String (Option (List Bytes))
  process : AppState → RequestProcessProposal → Except String (Option ProposalStatus)
  check : Version → Bytes → Except String (Option UInt32)

/-- The application behind the SDK's BaseApp, which is assumed: it keeps the state of an executed block until the
commit, also when the block fails, and only the check of a proposal above the initial height drops it. -/
def terpApp (c : AppConfig) : EngineApp AppState where
  lastBlockHeight s := some s.committed.height
  prepareProposal s req := (s, c.prepare s req)
  processProposal s req :=
    let s := if c.initialHeight < req.height then { s with working := none } else s
    (s, c.process s req)
  finalizeBlock s req :=
    let base := s.working.getD s.committed
    let failed := { s with working := some (c.leftover base req) }
    match c.refuses base req with
    | some e => (failed, .error e)
    | none =>
      match finalizeTxs c.host c.requireLNPR base.store req.txs (periodFromHeight c.blocksPerPeriod req.height) with
      | .error e => (failed, .error e)
      | .ok st => ({ s with working := some ⟨st, req.height⟩ }, .ok ())
  commit s :=
    match s.working with
    | none => (s, .error "no block to commit")
    | some v => (⟨v, none⟩, .ok ())
  checkTx s tx := (s, c.check s.committed tx)

/-- Queries see the committed store. -/
def committedQuery (s : AppState) : StoreQuery := subspaceQuery s.committed.store

/-- A running simplex engine: its epoch and the committee it was started with. -/
structure Engine where
  epoch : UInt64
  participants : Bytes
  weights : List UInt64
  deriving DecidableEq

structure ServerConfig where
  app : AppConfig
  localKey : Bytes
  /-- LEAN_CW_SKIP. -/
  skip : Bool
  verifyFinalization : VerifyCert

structure Server where
  node : Node AppState
  engine : Option Engine
  /-- The epoch of the last start that succeeded. -/
  epoch : UInt64

namespace Server

def store (s : Server) : Store := s.node.app.committed.store

def skipCommonwareEngine (cfg : ServerConfig) (pks : Bytes) : Bool :=
  cfg.skip || cfg.localKey.length != 32 ||
    !(List.range (pks.length / 32)).any (fun i => (pks.drop (i * 32)).take 32 == cfg.localKey)

/-- A running engine is stopped first. `started` is the outcome of the attempts to start, each
of which installs the verifier. -/
def startEpoch (cfg : ServerConfig) (s : Server) (epoch : UInt64) (pks : Bytes) (started : Bool) : Server :=
  let pks := if pks.length = 0 then s.node.participants epoch else pks
  if skipCommonwareEngine cfg pks then { s with engine := none }
  else
    let w := s.node.participantsWeights epoch
    let weights := if w.1.length = pks.length then w.2 else List.replicate (pks.length / 32) 1
    let node := s.node.setVerifyCert cfg.verifyFinalization
    if started then ⟨node, some ⟨epoch, pks, weights⟩, epoch⟩ else ⟨node, none, s.epoch⟩

/-- A node outside the new committee keeps the engine it has. -/
def rotate (cfg : ServerConfig) (s : Server) (epoch : UInt64) (started : Bool) : Server :=
  if epoch ≤ s.epoch ∧ s.engine.isSome = true then s
  else if skipCommonwareEngine cfg (s.node.participants epoch) then s
  else s.startEpoch cfg epoch (s.node.participants epoch) started

end Server

inductive ServerEvent where
  | call (now : Int) (c : Call)
  | startEpoch (epoch : UInt64) (pks : Bytes) (started : Bool)
  | rotate (epoch : UInt64) (started : Bool)

def serverStep (cfg : ServerConfig) (s : Server) : ServerEvent → Server
  | .call now c => { s with node := (s.node.call (terpApp cfg.app) now c).1 }
  | .startEpoch epoch pks started => s.startEpoch cfg epoch pks started
  | .rotate epoch started => s.rotate cfg epoch started

def serverStart (cfg : ServerConfig) (v : Version) (proposer : Bytes) : Server :=
  ⟨⟨{ newDriver (terpApp cfg.app) ⟨v, none⟩ proposer with storeQuery := some committedQuery }, ⟨v, none⟩⟩, none, 0⟩

/-- A finalization from the running engine's epoch is checked, and its votes are built, with the
keys and weights the engine was started with. -/
def Resolves (cfg : ServerConfig) (s : Server) : ServerEvent → Prop
  | .call now (.finalize epoch digest payload cert) =>
    ∀ e, s.engine = some e → e.epoch = epoch →
      s.node.participantsAndWeights epoch = (e.participants, e.weights) ∧
      ∀ r ∈ requests (s.node.call (terpApp cfg.app) now (.finalize epoch digest payload cert)).2,
        underweight (parseLeanCert cert).1 (parseLeanCert cert).2 e.weights = false ∧
        r.decidedLastCommit = lastCommitFromCert (parseLeanCert cert).1 e.participants e.weights
  | _ => True

/-- The store seats someone, and its answers can be read. -/
def Seated (st : Store) : Prop := Addressable st ∧ ∃ s, Seatable s ∧ (roster st).Member s

/-- No block fails; while an engine runs, the committed blocks leave the 32-byte members alone; an engine is started
with the committee the store shows. -/
def Undisturbed (cfg : ServerConfig) (s : Server) : ServerEvent → Prop
  | .call now c => Completes (terpApp cfg.app) s.node (now, c) ∧ (s.engine.isSome = true →
      Addressable s.store ∧ (roster s.store).count < 2 ^ 32 ∧
      ∀ b ∈ commits (terpApp cfg.app) s.node (now, c), ∀ p blob, decodePayload b.2.payload = .ok p →
        findLNPR p.txs = some blob → Quiet Seatable s.store blob)
  | .startEpoch epoch pks _ => Seated s.store ∧ (pks = [] ∨ pks = s.node.participants epoch)
  | .rotate _ _ => Seated s.store

/-- While no block is under way, the committed store changes by the transactions of the committed blocks. -/
private theorem committed_tracks (c : AppConfig) : Tracks (terpApp c) (fun a => a.working = none)
    (fun a => a.committed.store)
    (fun st _ txs st' => ∃ period, finalizeTxs c.host c.requireLNPR st txs period = .ok st') where
  prepare a req hidle := ⟨hidle, rfl⟩
  process a req hidle := by
    simp only [terpApp]
    split
    · exact ⟨rfl, rfl⟩
    · exact ⟨hidle, rfl⟩
  checkTx a tx hidle := ⟨hidle, rfl⟩
  commit a req hidle hf _ := by
    simp only [terpApp, hidle, Option.getD_none] at hf ⊢
    cases hrefuse : c.refuses a.committed req with
    | some e =>
      rw [hrefuse] at hf
      cases hf
    | none =>
      simp only [hrefuse] at hf ⊢
      cases hexec : finalizeTxs c.host c.requireLNPR a.committed.store req.txs
          (periodFromHeight c.blocksPerPeriod req.height) with
      | error e =>
        rw [hexec] at hf
        cases hf
      | ok st => exact ⟨rfl, _, hexec⟩

/-- The engine's committee is the one some earlier store seated, and its members are seated still. -/
structure Seats (st : Store) (e : Engine) : Prop where
  origin : ∃ st0 s, Addressable st0 ∧ Seatable s ∧ (roster st0).Member s ∧
    (roster st0).SameOn Seatable (roster st) ∧
        bondedParticipantsWeights (subspaceQuery st0) e.epoch = (e.participants, e.weights)

/-- What every state of an undisturbed run satisfies. -/
structure Steered (s : Server) : Prop where
  query : s.node.driver.storeQuery = some committedQuery
  idle : s.node.app.working = none
  sound : Sound s.store
  seats : ∀ e, s.engine = some e → Seats s.store e

theorem Seats.member {st : Store} {e : Engine} (h : Seats st e) : ∃ s, Seatable s ∧ (roster st).Member s := by
  obtain ⟨st0, s, _, hs, hm, hsame, _⟩ := h.origin
  exact ⟨s, hs, (hsame.member_iff hs).mpr hm⟩

theorem Seats.committee {st : Store} {e : Engine} (h : Seats st e) (ha : Addressable st) (epoch : UInt64) :
    bondedParticipantsWeights (subspaceQuery st) epoch = (e.participants, e.weights) := by
  obtain ⟨st0, s, ha0, hs, hm, hsame, heq⟩ := h.origin
  rw [← heq]
  exact committee_congr ha0 ha hsame hs hm e.epoch epoch

theorem Seats.step {st st' : Store} {e : Engine} (h : Seats st e) (hsame : (roster st).SameOn Seatable (roster st')) :
    Seats st' e := by
  obtain ⟨st0, s, ha0, hs, hm, hsame0, heq⟩ := h.origin
  exact ⟨st0, s, ha0, hs, hm, hsame0.trans hsame, heq⟩

theorem committedQuery_eq (s : Server) : committedQuery s.node.app = subspaceQuery s.store := rfl

section Steps
variable {cfg : ServerConfig} {s : Server}

private theorem steered_call (h : Steered s) {now : Int} {c : Call} (hc : Undisturbed cfg s (.call now c)) :
    Steered (serverStep cfg s (.call now c)) := by
  obtain ⟨hok, hquiet⟩ := hc
  obtain ⟨hidle, hview⟩ := (committed_tracks cfg.app).step_view h.idle hok
  have hquery : (serverStep cfg s (.call now c)).node.driver.storeQuery = some committedQuery :=
    (call_wiring s.node now c).1.trans h.query
  rcases @call_commits _ (terpApp cfg.app) s.node (now, c) with ⟨hnone, -⟩ | ⟨height, blk, hone, -⟩
  · rw [hnone] at hview
    have hst : s.store = (serverStep cfg s (.call now c)).store := hview
    exact ⟨hquery, hidle, hst ▸ h.sound, fun e he => hst ▸ h.seats e he⟩
  · rw [hone] at hview
    obtain ⟨p, u, hp, ⟨period, hf⟩, hst⟩ := hview
    have hst : u = (serverStep cfg s (.call now c)).store := hst
    refine ⟨hquery, hidle, hst ▸ h.sound.finalizeTxs hf, ?_⟩
    intro e he
    have he : s.engine = some e := he
    obtain ⟨_, hcount, hquiet⟩ := hquiet (by rw [he]; rfl)
    obtain ⟨t, _, hm⟩ := (h.seats e he).member
    have hsame := finalizeTxs_sameOn h.sound hm hcount
      (fun blob hb => hquiet (height, blk) (hone ▸ List.mem_cons_self) p blob hp hb) hf
    exact hst ▸ (h.seats e he).step hsame

private theorem steered_startEpoch (h : Steered s) {epoch : UInt64} {pks : Bytes} (started : Bool)
    (hseated : Seated s.store) (hpks : pks = [] ∨ pks = s.node.participants epoch) :
    Steered (s.startEpoch cfg epoch pks started) := by
  have hp := participants_of_query h.query epoch
  have hw := participantsWeights_of_query h.query epoch
  have hlist : (if pks.length = 0 then s.node.participants epoch else pks) = s.node.participants epoch := by
    rcases hpks with rfl | rfl
    · rfl
    · exact ite_self _
  obtain ⟨ha, t, hs, hm⟩ := hseated
  unfold Server.startEpoch
  rw [hlist, hw, hp]
  generalize hcommittee : bondedParticipantsWeights (committedQuery s.node.app) epoch = w
  simp only [if_true]
  split
  · exact ⟨h.query, h.idle, h.sound, fun e he => by cases he⟩
  · split
    · refine ⟨h.query, h.idle, h.sound, ?_⟩
      intro e he
      obtain rfl := Option.some.inj he
      exact ⟨s.store, t, ha, hs, hm, Roster.SameOn.refl _ _, hcommittee⟩
    · exact ⟨h.query, h.idle, h.sound, fun e he => by cases he⟩

theorem steered_step (h : Steered s) (ev : ServerEvent) (hev : Undisturbed cfg s ev) :
    Steered (serverStep cfg s ev) := by
  cases ev with
  | call now c => exact steered_call h hev
  | startEpoch epoch pks started => exact steered_startEpoch h started hev.1 hev.2
  | rotate epoch started =>
    simp only [serverStep, Server.rotate]
    split
    · exact h
    · split
      · exact h
      · exact steered_startEpoch h started hev (.inr rfl)

theorem steered_resolves (h : Steered s) (ev : ServerEvent) (hev : Undisturbed cfg s ev) : Resolves cfg s ev := by
  cases ev with
  | startEpoch epoch pks started => trivial
  | rotate epoch started => trivial
  | call now c =>
    cases c with
    | finalize epoch digest payload cert =>
      intro e he _
      obtain ⟨ha, _⟩ := hev.2 (by rw [he]; rfl)
      have hcommittee := (h.seats e he).committee ha epoch
      obtain ⟨t, hs, hm⟩ := (h.seats e he).member
      have hread : s.node.participantsAndWeights epoch = (e.participants, e.weights) := by
        have hne := committee_ne_nil ha hs hm epoch
        rw [← committedQuery_eq] at hne hcommittee
        rw [participantsAndWeights_of_query h.query epoch hne, hcommittee]
      refine ⟨hread, ?_⟩
      intro r hr
      obtain ⟨dec, hd, rfl⟩ := mem_requests_finalizeWith.mp hr
      obtain ⟨_, _, _, hpart, hparse, _, hunder⟩ := decision_eq_some hd
      obtain ⟨hpks, hweights⟩ := Prod.mk.inj (hpart.trans hread)
      rw [← hparse, ← hweights, ← hpks]
      exact ⟨hunder, rfl⟩
    | _ => trivial

end Steps

theorem steered_start (cfg : ServerConfig) {v : Version} (hr : Sound v.store) (proposer : Bytes) :
    Steered (serverStart cfg v proposer) :=
  ⟨rfl, rfl, hr, fun e he => by cases he⟩

/-- In every undisturbed run every finalization of the running engine's epoch is resolved in the
committee that the engine was started with. -/
theorem finalizations_resolve_in_started_committee {cfg : ServerConfig} {v : Version} {proposer : Bytes}
    (hr : Reachable cfg.app.host v.store) {evs pre post : List ServerEvent} {ev : ServerEvent}
    (h : Along (serverStep cfg) (Undisturbed cfg) (serverStart cfg v proposer) evs) (hsplit : evs = pre ++ ev :: post) :
    Resolves cfg (run (serverStep cfg) (serverStart cfg v proposer) pre) ev := by
  subst hsplit
  refine steered_resolves ?_ ev h.at_step
  exact Along.invariant (I := Steered) (fun s ev hs hev => steered_step hs ev hev)
    (steered_start cfg hr.sound proposer) h.append.1

/-- A node of a chain that nothing but leanval can refuse a block on. -/
def plainConfig (localKey : Bytes) : ServerConfig where
  app :=
    { host := stwoHost, requireLNPR := false, blocksPerPeriod := 600, initialHeight := 1
      refuses := fun _ _ => none, leftover := fun v _ => v
      prepare := fun _ req => .ok (some req.txs), process := fun _ _ => .ok (some .accept),
      check := fun _ _ => .ok (some 0) }
  localKey := localKey
  skip := false
  verifyFinalization := fun _ _ _ => true

/-- The engine's call for a block with a certificate of the seats. -/
def blockCall (height : Int64) (txs : List Bytes) (seats : List UInt32) : Call :=
  .finalize 0 (sha256 (Payload.encode ⟨height, txs⟩)) (Payload.encode ⟨height, txs⟩)
    (encodeLcert ⟨0, 1, sha256 (Payload.encode ⟨height, txs⟩), seats.map (fun i => ⟨i, List.replicate 64 0x51⟩), []⟩)

/-- A chain of one validator. -/
def soleGenesis : GenesisState := ⟨true, [⟨keyOf 0xb2, 2⟩], 0⟩

def soleStart : Server :=
  serverStart (plainConfig (keyOf 0xb2)) ⟨genesisStore ∅ soleGenesis, 0⟩ [1]

def refreshRow : SubjectProof :=
  ⟨keyOf 0xb2, 2, dummyStwoProveBoundRoots 0 (keyOf 0xb2) 2 (lastObjectRoots (genesisStore ∅ soleGenesis))⟩

/-- A joiner whose key sorts before the member's. -/
def joinerRow : SubjectProof := ⟨keyOf 0xa1, 5, stwoMagic ++ valsetInstanceBytes 0 1 5⟩

def soleEngine : Engine := ⟨0, keyOf 0xb2, [2]⟩

/-- The engine is started, and the first block of its epoch carries a record with these rows. -/
def afterRecord (rows : List SubjectProof) : Server :=
  run (serverStep (plainConfig (keyOf 0xb2))) soleStart
    [.startEpoch 0 [] true, .call 1 (blockCall 1 [encodeLNPR ⟨0, rows⟩] [0])]

private theorem joiner_takes_seat : (afterRecord [refreshRow, joinerRow]).engine = some soleEngine ∧
    (afterRecord [refreshRow, joinerRow]).node.participantsAndWeights 0 ≠
        (soleEngine.participants, soleEngine.weights) ∧
    (∃ r ∈ requests ((afterRecord [refreshRow, joinerRow]).node.call (terpApp (plainConfig (keyOf 0xb2)).app) 2
        (blockCall 2 [] [0])).2, r.decidedLastCommit = ⟨0, [⟨⟨address (keyOf 0xa1), 5⟩, .commit⟩]⟩) := by
  decide +kernel

/-- The member's signature at seat 0 is credited to the joiner, with the joiner's weight. -/
theorem joiner_shifts_certificate_seats :
    Reachable stwoHost (genesisStore ∅ soleGenesis) ∧ (afterRecord [refreshRow, joinerRow]).engine = some soleEngine ∧
    (∃ r ∈ requests ((afterRecord [refreshRow, joinerRow]).node.call (terpApp (plainConfig (keyOf 0xb2)).app) 2
        (blockCall 2 [] [0])).2, r.decidedLastCommit = ⟨0, [⟨⟨address (keyOf 0xa1), 5⟩, .commit⟩]⟩) ∧
    ¬ Resolves (plainConfig (keyOf 0xb2)) (afterRecord [refreshRow, joinerRow]) (.call 2 (blockCall 2 [] [0])) := by
  obtain ⟨hengine, hread, hreq⟩ := joiner_takes_seat
  refine ⟨⟨soleGenesis, _, [], rfl, rfl⟩, hengine, hreq, ?_⟩
  intro hres
  exact hread (hres soleEngine hengine rfl).1

private theorem undisturbed_block {s : Server} {now : Int} {height : Int64} {txs : List Bytes} {seats : List UInt32}
    (hok : Completes (terpApp (plainConfig (keyOf 0xb2)).app) s.node (now, blockCall height txs seats))
    (ha : Addressable s.store) (hcount : (roster s.store).count < 2 ^ 32)
    (hq : ∀ blob, (decodePayload (Payload.encode ⟨height, txs⟩)).toOption.bind (fun p => findLNPR p.txs) = some blob →
      Quiet Seatable s.store blob) :
    Undisturbed (plainConfig (keyOf 0xb2)) s (.call now (blockCall height txs seats)) := by
  refine ⟨hok, fun _ => ⟨ha, hcount, ?_⟩⟩
  intro b hb p blob hp hf
  obtain ⟨hblock, -⟩ := mem_commits hb
  have hpayload : b.2.payload = Payload.encode ⟨height, txs⟩ := by rw [← Option.some.inj hblock]
  refine hq blob ?_
  rw [← hpayload, hp]
  exact hf

/-- The started node before its first block. -/
def soleStarted : Server := serverStep (plainConfig (keyOf 0xb2)) soleStart (.startEpoch 0 [] true)

private theorem sole_run_facts :
    ((∀ b ∈ [bitfieldPrefix, depositIndexPrefix, ebPrefix],
        (subspaceQuery soleStart.store subspacePath [b]).length < 2 ^ 63) ∧
      depositIndexOf soleStart.store (keyOf 0xb2) = some 0 ∧ bitIsSet soleStart.store 0 = true) ∧
    ((∀ b ∈ [bitfieldPrefix, depositIndexPrefix, ebPrefix],
        (subspaceQuery soleStarted.store subspacePath [b]).length < 2 ^ 63) ∧
      (roster soleStarted.store).count + 1 < 2 ^ 32 ∧
      depositIndexOf soleStarted.store (keyOf 0xb2) = some 0 ∧ bitIsSet soleStarted.store 0 = true) ∧
    ((∀ b ∈ [bitfieldPrefix, depositIndexPrefix, ebPrefix],
        (subspaceQuery (afterRecord [refreshRow]).store subspacePath [b]).length < 2 ^ 63) ∧
      (roster (afterRecord [refreshRow]).store).count < 2 ^ 32 ∧ (afterRecord [refreshRow]).engine = some soleEngine) ∧
    (decodePayload (Payload.encode ⟨1, [encodeLNPR ⟨0, [refreshRow]⟩]⟩)).toOption.bind (fun p => findLNPR p.txs) =
      some ⟨0, [refreshRow]⟩ ∧
    (decodePayload (Payload.encode ⟨2, []⟩)).toOption.bind (fun p => findLNPR p.txs) = none := by
  decide +kernel

/-- A record that only refreshes the member leaves seat 0 where it was. -/
theorem refreshed_member_keeps_seat :
    (afterRecord [refreshRow]).engine = some soleEngine ∧
    Resolves (plainConfig (keyOf 0xb2)) (afterRecord [refreshRow]) (.call 2 (blockCall 2 [] [0])) := by
  obtain ⟨⟨ha0, hi0, hb0⟩, ⟨ha1, hc1, hi1, hb1⟩, ⟨ha2, hc2, he2⟩, hrec, hnone⟩ := sole_run_facts
  have hstart : Undisturbed (plainConfig (keyOf 0xb2)) soleStart (.startEpoch 0 [] true) :=
    ⟨⟨ha0, keyOf 0xb2, rfl, 0, hi0, hb0⟩, .inl rfl⟩
  have hfirst : Undisturbed (plainConfig (keyOf 0xb2)) soleStarted
      (.call 1 (blockCall 1 [encodeLNPR ⟨0, [refreshRow]⟩] [0])) := by
    refine undisturbed_block (by decide +kernel) ha1 (by omega) ?_
    intro blob hblob
    obtain rfl := Option.some.inj (hrec.symm.trans hblob)
    refine ⟨hc1, ?_⟩
    intro row hrow _
    obtain rfl := List.mem_singleton.mp hrow
    exact ⟨fun _ => ⟨0, hi1, hb1⟩, fun _ => by decide⟩
  have hsecond : Undisturbed (plainConfig (keyOf 0xb2)) (afterRecord [refreshRow])
      (.call 2 (blockCall 2 [] [0])) := by
    refine undisturbed_block (by decide +kernel) ha2 hc2 ?_
    intro blob hblob
    rw [hnone] at hblob
    cases hblob
  have halong : Along (serverStep (plainConfig (keyOf 0xb2))) (Undisturbed (plainConfig (keyOf 0xb2))) soleStart
      ([.startEpoch 0 [] true, .call 1 (blockCall 1 [encodeLNPR ⟨0, [refreshRow]⟩] [0])] ++
        .call 2 (blockCall 2 [] [0]) :: []) :=
    Along.cons hstart (Along.cons hfirst (Along.cons hsecond (Along.nil _)))
  exact ⟨he2, finalizations_resolve_in_started_committee ⟨soleGenesis, _, [], rfl, rfl⟩ halong rfl⟩

end Terpz.Leanval.Cwffi
