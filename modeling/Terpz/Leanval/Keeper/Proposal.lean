import Terpz.Leanval.Keeper.Block
import Terpz.Leanval.Keeper.Queue
import Terpz.Leanval.Keeper.Ssle

/-! Preparing and checking a proposal. The record goes first, or second behind a vote extension
of the inner handler, and the ticket right after it. -/
namespace Terpz.Leanval.Keeper
open Lib

/-- The first transaction that decodes as a record, and its position. -/
def findLNPRAt (txs : List Bytes) : Option (LNPRBlob × Nat) :=
  txs.zipIdx.findSome? (fun e => (decodeLNPR e.1).map (·, e.2))

def expectedLNPRIndex : List Bytes → Nat
  | [] => 0
  | tx :: _ => if hasPrefix tx prefixHMVE then 1 else 0

/-- Records already among the transactions are dropped first. -/
def injectLNPR (txs : List Bytes) (lnpr : Bytes) : List Bytes :=
  let out := txs.filter (fun tx => !hasPrefix tx prefixLNPR)
  out.insertIdx (expectedLNPRIndex out) lnpr

/-- The slot behind the record, or without one behind the last vote extension. -/
def ssleSlot : Nat → Nat → List Bytes → Nat
  | _, idx, [] => idx
  | i, idx, tx :: rest =>
    if hasPrefix tx prefixLNPR then i + 1
    else ssleSlot (i + 1) (if hasPrefix tx prefixHMVE then i + 1 else idx) rest

def injectSSLE (txs : List Bytes) (ssle : Bytes) : List Bytes :=
  let out := txs.filter (fun tx => !hasPrefix tx prefixSSLE)
  out.insertIdx (ssleSlot 0 0 out) ssle

/-- lean-ssle: period, height and proposer as arguments, the ticket and its proof in one output. -/
abbrev SsleBin := UInt64 → Int64 → Bytes → Except String Bytes

def proveSSLE (bin : Option SsleBin) (period : UInt64) (height : Int64) (proposer : Bytes) :
    Except String (Bytes × Bytes) := do
  match bin with
  | none => .error "leanval: lean-ssle not on PATH"
  | some prove =>
    match prove period height proposer with
    | .error e => .error ("leanval: ssle prove: " ++ e)
    | .ok out =>
      failIf (out.length < 32 + 10 ∨ slice out 32 36 ≠ stwoMagic) "leanval: ssle prove missing STWO"
      failIf (containsBytes out dummyMagic) "leanval: ssle prove emitted Dummy"
      pure (out.take 32, out.drop 32)

def buildSSLE (bin : Option SsleBin) (period : UInt64) (height : Int64) (proposer : Bytes) : Bytes :=
  match proveSSLE bin period height proposer with
  | .error _ => []
  | .ok (ticket, proof) => encodeSSLE ⟨period, height, ticket, proposer, proof⟩

structure PrepareRequest where
  height : Int64
  txs : List Bytes
  proposerAddress : Bytes

/-- The answer of the inner handler to the request; a nil response is an inner `none`. -/
abbrev InnerAnswer := Except String (Option (List Bytes))

/-- What a prepared proposal leaves behind and returns. -/
structure Prepared where
  store : Store
  queue : Queue
  txs : List Bytes

/-- The transactions the inner handler returns; without a handler, those of the request. -/
def innerTxs (inner : Option InnerAnswer) (txs : List Bytes) : Except String (List Bytes) :=
  match inner with
  | some answer => answer.map (·.getD [])
  | none => .ok txs

/-- The queue once the membership requests of a proposal are noted, and those the inner handler kept. -/
def notedQueue (st : Store) (q : Queue) (incoming txs : List Bytes) : Queue :=
  (txs.filter isMembershipTx).foldl (noteMembershipTx st) (incoming.foldl (noteMembershipTx st) q)

/-- Membership requests are queued, from the request and from what the inner handler kept, and
never stay among the transactions. -/
def wrapPrepareProposal (h : Host) (bin : Option SsleBin) (live : Int64) (inner : Option InnerAnswer) (st : Store)
    (q : Queue) (req : PrepareRequest) : Except String Prepared := do
  let txs ← innerTxs inner req.txs
  let period := periodFromHeight live req.height
  let q := notedQueue st q req.txs txs
  let (st, lnpr) := buildLNPR h st q period
  let txs := injectLNPR (txs.filter (fun tx => !isMembershipTx tx)) lnpr
  let ssle := buildSSLE bin period req.height req.proposerAddress
  pure ⟨st, q, if ssle.length > 0 then injectSSLE txs ssle else txs⟩

def checkLNPR (h : Host) (requireLNPR : Bool) (live : Int64) (st : Store) (height : Int64) (txs : List Bytes) :
    Store × Except String Unit :=
  match findLNPRAt txs with
  | none => (st, failIf requireLNPR "leanval: required LNPR omitted")
  | some (blob, idx) =>
    let want := periodFromHeight live height
    if idx ≠ expectedLNPRIndex txs then
      (st, .error ("leanval: LNPR at wrong index " ++ toString idx ++ " (want " ++ toString (expectedLNPRIndex txs) ++
        "; HMVE-first compose)"))
    else if blob.period ≠ want then
      (st, .error ("leanval: LNPR period " ++ toString blob.period ++ " != height period " ++ toString want))
    else verifyLNPR h st blob false

/-- The transactions open with the element, or with a vote extension and then the element. -/
def InSlot (lnpr : Bytes) (txs : List Bytes) : Prop :=
  (∃ rest, txs = lnpr :: rest) ∨ ∃ hm rest, hasPrefix hm prefixHMVE = true ∧ txs = hm :: lnpr :: rest

section Slots
variable {tx lnpr : Bytes} {txs : List Bytes}

/-- A transaction has one prefix of a given length. -/
theorem hasPrefix_false_of_ne {p p' : Bytes} (h : hasPrefix tx p = true) (hl : p.length = p'.length) (hne : p ≠ p') :
    hasPrefix tx p' = false := by
  rw [hasPrefix, List.isPrefixOf_iff_prefix] at h
  rw [hasPrefix, Bool.eq_false_iff, ne_eq, List.isPrefixOf_iff_prefix]
  intro h'
  exact hne ((List.prefix_of_prefix_length_le h h' hl.le).eq_of_length hl)

theorem decodeLNPR_of_not_hasPrefix (h : hasPrefix tx prefixLNPR = false) : decodeLNPR tx = none := by
  rw [decodeLNPR, h]
  rfl

theorem hasPrefix_encodeLNPR (b : LNPRBlob) : hasPrefix (encodeLNPR b) prefixLNPR = true := by
  rw [hasPrefix, List.isPrefixOf_iff_prefix, encodeLNPR]
  exact List.prefix_append _ _

/-- What may stand before the record: nothing, or one vote extension. -/
def Leads (before : List Bytes) : Prop := before = [] ∨ ∃ hm, hasPrefix hm prefixHMVE = true ∧ before = [hm]

theorem inSlot_iff : InSlot lnpr txs ↔ ∃ before rest, Leads before ∧ txs = before ++ lnpr :: rest := by
  constructor
  · rintro (⟨rest, rfl⟩ | ⟨hm, rest, hhm, rfl⟩)
    · exact ⟨[], rest, .inl rfl, rfl⟩
    · exact ⟨[hm], rest, .inr ⟨hm, hhm, rfl⟩, rfl⟩
  · rintro ⟨before, rest, rfl | ⟨hm, hhm, rfl⟩, rfl⟩
    · exact .inl ⟨rest, rfl⟩
    · exact .inr ⟨hm, rest, hhm, rfl⟩

/-- The record is put in its slot among the transactions that are no records. -/
theorem injectLNPR_eq (txs : List Bytes) (lnpr : Bytes) :
    ∃ before after, Leads before ∧ injectLNPR txs lnpr = before ++ lnpr :: after ∧
      before ++ after = txs.filter (fun tx => !hasPrefix tx prefixLNPR) := by
  unfold injectLNPR
  dsimp only
  cases txs.filter (fun tx => !hasPrefix tx prefixLNPR) with
  | nil => exact ⟨[], [], .inl rfl, rfl, rfl⟩
  | cons tx rest =>
    simp only [expectedLNPRIndex]
    split
    · rename_i hm
      exact ⟨[tx], rest, .inr ⟨tx, hm, rfl⟩, rfl, rfl⟩
    · exact ⟨[], tx :: rest, .inl rfl, rfl, rfl⟩

theorem inSlot_injectLNPR (txs : List Bytes) (lnpr : Bytes) : InSlot lnpr (injectLNPR txs lnpr) := by
  obtain ⟨before, after, hlead, heq, -⟩ := injectLNPR_eq txs lnpr
  exact inSlot_iff.mpr ⟨before, after, hlead, heq⟩

theorem Leads.no_ticket {before : List Bytes} (h : Leads before) :
    before.filter (fun tx => !hasPrefix tx prefixSSLE) = before := by
  rcases h with rfl | ⟨hm, hhm, rfl⟩
  · rfl
  · have hno : hasPrefix hm prefixSSLE = false := hasPrefix_false_of_ne hhm rfl (by decide)
    simp [hno]

/-- A ticket is placed right behind a record that stands in its slot. -/
theorem injectSSLE_eq {before rest : List Bytes} (hlead : Leads before) (hl : hasPrefix lnpr prefixLNPR = true)
    (ssle : Bytes) : injectSSLE (before ++ lnpr :: rest) ssle =
      before ++ lnpr :: ssle :: rest.filter (fun tx => !hasPrefix tx prefixSSLE) := by
  have hno : hasPrefix lnpr prefixSSLE = false := hasPrefix_false_of_ne hl rfl (by decide)
  have hkept : (before ++ lnpr :: rest).filter (fun tx => !hasPrefix tx prefixSSLE) =
      before ++ lnpr :: rest.filter (fun tx => !hasPrefix tx prefixSSLE) := by
    rw [List.filter_append, hlead.no_ticket]
    simp [hno]
  rw [injectSSLE, hkept]
  rcases hlead with rfl | ⟨hm, hhm, rfl⟩
  · simp only [List.nil_append, ssleSlot, hl, if_true]
    rfl
  · have hother : hasPrefix hm prefixLNPR = false := hasPrefix_false_of_ne hhm rfl (by decide)
    simp only [List.singleton_append, ssleSlot, hl, hother, if_true, Bool.false_eq_true, if_false]
    rfl

theorem InSlot.injectSSLE (h : InSlot lnpr txs) (hl : hasPrefix lnpr prefixLNPR = true) (ssle : Bytes) :
    InSlot lnpr (injectSSLE txs ssle) := by
  obtain ⟨before, rest, hlead, rfl⟩ := inSlot_iff.mp h
  exact inSlot_iff.mpr ⟨before, _, hlead, injectSSLE_eq hlead hl ssle⟩

/-- A record in its slot is the first that is found, where it is expected. -/
theorem InSlot.findLNPRAt (h : InSlot lnpr txs) {blob : LNPRBlob} (hd : decodeLNPR lnpr = some blob) :
    findLNPRAt txs = some (blob, expectedLNPRIndex txs) := by
  have hl : hasPrefix lnpr prefixLNPR = true := by
    by_contra hc
    rw [decodeLNPR_of_not_hasPrefix (Bool.not_eq_true _ ▸ hc)] at hd
    cases hd
  rcases h with ⟨rest, rfl⟩ | ⟨hm, rest, hhm, rfl⟩
  · have hno : hasPrefix lnpr prefixHMVE = false := hasPrefix_false_of_ne hl rfl (by decide)
    simp [Keeper.findLNPRAt, expectedLNPRIndex, hd, hno]
  · have hno : decodeLNPR hm = none := decodeLNPR_of_not_hasPrefix (hasPrefix_false_of_ne hhm rfl (by decide))
    simp [Keeper.findLNPRAt, expectedLNPRIndex, hd, hno, hhm]

end Slots

section Prepare
variable (h : Host) (live : Int64) (st : Store) {txs : List Bytes}

/-- Unless the inner handler fails a list is returned, and it carries in its slot the record built
from the committed store and the queue as it then stands. -/
theorem wrapPrepareProposal_ok (bin : Option SsleBin) (q : Queue) {inner : Option InnerAnswer} {req : PrepareRequest}
    (htxs : innerTxs inner req.txs = .ok txs) :
    ∃ p, wrapPrepareProposal h bin live inner st q req = .ok p ∧
      InSlot (encodeLNPR (lnprFor h st (notedQueue st q req.txs txs) (periodFromHeight live req.height)).2) p.txs := by
  unfold wrapPrepareProposal
  rw [htxs]
  refine ⟨_, rfl, ?_⟩
  have hslot := inSlot_injectLNPR (txs.filter (fun tx => !isMembershipTx tx))
    (encodeLNPR (lnprFor h st (notedQueue st q req.txs txs) (periodFromHeight live req.height)).2)
  simp only
  split
  · exact hslot.injectSSLE (hasPrefix_encodeLNPR _) _
  · exact hslot

/-- A list with a record of its period in the slot passes exactly when the record verifies. -/
theorem checkLNPR_inSlot {blob : LNPRBlob} (hslot : InSlot (encodeLNPR blob) txs) (hfits : blob.WireFits)
    {height : Int64} (hperiod : blob.period = periodFromHeight live height) (requireLNPR : Bool) :
    checkLNPR h requireLNPR live st height txs = verifyLNPR h st blob false := by
  rw [checkLNPR, hslot.findLNPRAt (decodeLNPR_encodeLNPR _ hfits)]
  simp [hperiod]

end Prepare

end Terpz.Leanval.Keeper
