import Terpz.Hashmerchant.Keeper.Abci
import Terpz.Leanval.Keeper.Proposal
import Terpz.Leanval.Cwffi.Replay

/-! The application that the engine drives, as far as its proposals and blocks pass through `x/leanval` and
`x/hashmerchant`. The other modules enter by what they answer.

The BaseApp around the handlers belongs to the SDK and is assumed here: a block is executed on a branch of the committed
state, the branch is kept until it is committed, also when the block fails, and only the check of a proposal above the
initial height drops it. -/
namespace Terpz.App
open Lib Lib.PrefixStore Leanval Leanval.Keeper Leanval.Cwffi
open Hashmerchant (Codec Tally IterationOrder)

/-- What the rest of a block does to the state of `x/hashmerchant`. -/
inductive Traffic where
  | message (d : Hashmerchant.Delivery)
  | transfers (balances : Bytes → Text → Int)

/-- A block that is executed and not committed yet. -/
structure Branch (ρ : Type) where
  height : Int64
  store : Store
  merchant : Hashmerchant.State
  rest : ρ

/-- The modules that are not modelled. -/
structure Others (ρ : Type) where
  /-- The code of a transaction that decodes. -/
  runTx : ρ → Bytes → UInt32
  /-- The code of a transaction that does not. -/
  refused : UInt32
  refused_ne_zero : refused ≠ 0
  /-- Everything between the two halves of a block; an error fails the block. -/
  deliver : Store → Hashmerchant.State → ρ → RequestFinalizeBlock → Except String (ρ × List Traffic)
  /-- What a block that fails leaves in the branch that it was executed on. -/
  leftover : Branch ρ → RequestFinalizeBlock → Branch ρ

structure Wiring (k : Hashmerchant.Keeper) (ρ : Type) where
  host : Host
  stwo : StwoEnv
  ssleBin : Option SsleBin
  requireLNPR : Bool
  codec : Codec k
  /-- The order in which the maps of a tally happen to be visited. -/
  order : ∀ t : Tally, IterationOrder t
  others : Others ρ
  initialHeight : Int64

/-- The committed state, and what the process holds beside it: an executed block, the staged record, the queue of
membership requests, the store last bound to the keeper and the period length. -/
structure State (ρ : Type) where
  height : Int64
  store : Store
  merchant : Hashmerchant.State
  rest : ρ
  branch : Option (Branch ρ)
  staged : Option LNPRBlob
  queue : Queue
  bound : Store
  live : Int64

/-- The period length of the process once a store is bound. -/
def periodLength (live : Int64) (st : Store) : Int64 :=
  if 8 ≤ (get st periodParamKey).length then
    if getI64 (get st periodParamKey) ≤ 0 then blocksPerPeriod else getI64 (get st periodParamKey)
  else live

theorem periodLength_idem (live : Int64) (st : Store) :
    periodLength (periodLength live st) st = periodLength live st := by
  unfold periodLength
  split <;> rfl

section
variable {k : Hashmerchant.Keeper} {ρ : Type} (w : Wiring k ρ)

def State.bindContext (a : State ρ) (st : Store) : State ρ := { a with bound := st, live := periodLength a.live st }

/-- What a block is executed on. -/
def State.base (a : State ρ) : Branch ρ := a.branch.getD ⟨a.height, a.store, a.merchant, a.rest⟩

/-- The store that a proposal is made and judged by. Before the first commit the branch holds the genesis. -/
def State.proposalStore (a : State ρ) (height : Int64) : Store :=
  if height = w.initialHeight then a.base.store else a.store

/-- The proposal over the last commit as the consensus hands it in. -/
def prepareWith (votes : List Hashmerchant.ExtendedVoteInfo) (a : State ρ) (req : PrepareRequest) :
    State ρ × Except String (Option (List Bytes)) :=
  let st := a.proposalStore w req.height
  let a := a.bindContext st
  match wrapPrepareProposal w.host w.ssleBin a.live (some (.ok (some (w.codec.prepareProposalHandler votes req.txs))))
      st a.queue req with
  | .error e => (a, .error e)
  | .ok p => ({ a with queue := p.queue, bound := p.store }, .ok (some p.txs))

/-- The driver asks without a last commit. -/
def prepareProposal (a : State ρ) (req : RequestPrepareProposal) : State ρ × Except String (Option (List Bytes)) :=
  prepareWith w [] a ⟨req.height, req.txs, req.proposerAddress⟩

/-- The verdict on a proposal, by a store and the period length. -/
def verdict (live : Int64) (st : Store) (height : Int64) (txs : List Bytes) : ProposalStatus :=
  match (checkLNPR w.host w.requireLNPR live st height txs).2 with
  | .error _ => .reject
  | .ok _ =>
    match checkSSLE w.stwo live height txs with
    | .error _ => .reject
    | .ok _ => if w.codec.processProposalHandler txs then .accept else .reject

def processProposal (a : State ρ) (req : RequestProcessProposal) : State ρ × Except String (Option ProposalStatus) :=
  let a := { a with branch := if w.initialHeight < req.height then none else a.branch }
  let st := a.proposalStore w req.height
  let a := a.bindContext st
  ({ a with bound := (checkLNPR w.host w.requireLNPR a.live st req.height req.txs).1 },
    .ok (some (verdict w a.live st req.height req.txs)))

/-- The record of a block is verified and staged; without one, what was staged before stays. -/
def processInjectedLNPR (staged : Option LNPRBlob) (st : Store) (txs : List Bytes) :
    Except String (Store × Option LNPRBlob) :=
  match findLNPR txs with
  | none => if w.requireLNPR then .error "leanval: required LNPR omitted at finalize" else .ok (st, staged)
  | some blob =>
    match verifyLNPR w.host st blob false with
    | (_, .error e) => .error e
    | (st, .ok _) => .ok (st, some blob)

def applyStagedLNPR (st : Store) : Option LNPRBlob → Except String Store
  | none => .ok st
  | some blob =>
    match applyLNPR w.host st blob with
    | (_, .error e) => .error e
    | (st, .ok _) => .ok st

def trafficStep (k : Hashmerchant.Keeper) (s : Hashmerchant.State) : Traffic → Hashmerchant.State
  | .message d => k.deliver s d
  | .transfers balances => { s with balances := balances }

/-- The end of a block: the staged record is applied and the validator updates are sent. -/
def endBlocker (period : UInt64) (st : Store) (staged : Option LNPRBlob) : Except String Store :=
  (applyStagedLNPR w st staged).map (fun st => if ownsValset st then (validatorUpdates st period).1 else st)

/-- The staged record is taken up by the end of the block, and stays when a block fails before it. -/
def finalizeBlock (a : State ρ) (req : RequestFinalizeBlock) : State ρ × Except String Unit :=
  let b := a.base
  let m := (w.codec.processInjectedVoteExtension w.order req.height.toUInt64 b.merchant req.txs).1
  -- replaced below if the block is executed
  let a := { a.bindContext b.store with branch := some (w.others.leftover b req) }
  match processInjectedLNPR w a.staged b.store req.txs with
  | .error e => (a, .error e)
  | .ok (st, staged) =>
    let a := { a with staged := staged, bound := st }
    match w.others.deliver st m b.rest req with
    | .error e => (a, .error e)
    | .ok (rest, traffic) =>
      let m := (traffic.foldl (trafficStep k) m).endBlocker req.height.toUInt64
      let a := { a with staged := none }
      match endBlocker w (periodFromHeight a.live req.height) st staged with
      | .error e => (a, .error e)
      | .ok st =>
        let rows := (staged.map (·.subjects)).getD []
        ({ a with branch := some ⟨req.height, st, m, rest⟩, queue := rows.foldl Queue.forgetRow a.queue, bound := st },
          .ok ())

def commit (a : State ρ) : State ρ × Except String Unit :=
  match a.branch with
  | none => (a, .error "no block to commit")
  | some b => ({ a with height := b.height, store := b.store, merchant := b.merchant, rest := b.rest, branch := none },
      .ok ())

/-- Membership requests are accepted by their form alone; injected kinds do not decode. -/
def checkTxCode (a : State ρ) (tx : Bytes) : UInt32 :=
  if isMembershipTx tx then
    match decodeJoin tx with
    | some j => if (validateJoin j).isOk then 0 else 1
    | none =>
      match decodeLeave tx with
      | some l => if (validateLeave l).isOk then 0 else 1
      | none => 1
  else if hasPrefix tx prefixLNPR || hasPrefix tx prefixSSLE then w.others.refused
  else w.others.runTx a.rest tx

/-- An accepted request is queued. -/
def checkTx (a : State ρ) (tx : Bytes) : State ρ × Except String (Option UInt32) :=
  let code := checkTxCode w a tx
  (if code = 0 then { a with queue := noteMembershipTx a.bound a.queue tx } else a, .ok (some code))

/-- The application behind the driver. -/
def terpApp : EngineApp (State ρ) where
  lastBlockHeight a := some a.height
  prepareProposal := prepareProposal w
  processProposal := processProposal w
  finalizeBlock := finalizeBlock w
  commit := commit
  checkTx := checkTx w

/-- The part of the state that membership is read from. -/
def State.chainView (a : State ρ) : Store × Int64 := (a.store, periodLength a.live a.store)

/-- A block on that part. -/
def execBlock (v : Store × Int64) (height : Int64) (txs : List Bytes) : Option (Store × Int64) :=
  (finalizeTxs w.host w.requireLNPR v.1 txs (periodFromHeight v.2 height)).toOption.map
    (fun st => (st, periodLength v.2 st))

end
end Terpz.App
