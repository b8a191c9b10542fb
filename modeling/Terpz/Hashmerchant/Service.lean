import Terpz.Lib.Run
import Terpz.Hashmerchant.Tally
import Terpz.Hashmerchant.Keeper.Genesis

/-! Paid contracts and enabled contracts. Pruning disables what has expired and nothing enables it again but
a registration, so a refill of a disabled contract is paid for nothing. -/
namespace Terpz.Hashmerchant
open Lib

/-- What happens in a block, with the height of the block. -/
inductive BlockEvent where
  | message (d : Delivery)
  | endBlock (height : UInt64)

def BlockEvent.height : BlockEvent → UInt64
  | .message d => d.height
  | .endBlock height => height

namespace Keeper
variable (k : Keeper)

def blockOperation : BlockEvent → k.Operation
  | .message d => .message d
  | .endBlock height => .endBlock height

/-- The height reached and the state there. -/
def blockEvent (c : UInt64 × State) (e : BlockEvent) : UInt64 × State := (e.height, k.operate c.2 (k.blockOperation e))

/-- Heights do not fall, contracts are registered under an address and only enabled contracts are refilled. -/
def RefillsEnabled (c : UInt64 × State) (e : BlockEvent) : Prop :=
  c.1 ≤ e.height ∧
  match e with
  | .message ⟨_, _, .registerContract m⟩ => k.accAddressFromBech32 m.contractAddr ≠ none
  | .message ⟨_, _, .refillEscrow m⟩ => ∀ c', c.2.contracts[m.contractAddr]? = some c' → c'.enabled = true
  | _ => True

instance (c : UInt64 × State) : (e : BlockEvent) → Decidable (k.RefillsEnabled c e)
  | .message ⟨height, _, .registerContract m⟩ =>
    inferInstanceAs (Decidable (c.1 ≤ height ∧ k.accAddressFromBech32 m.contractAddr ≠ none))
  | .message ⟨height, _, .refillEscrow m⟩ =>
    inferInstanceAs (Decidable (c.1 ≤ height ∧ ∀ c', c.2.contracts[m.contractAddr]? = some c' → c'.enabled = true))
  | .message ⟨height, _, .registerChain _⟩ => inferInstanceAs (Decidable (c.1 ≤ height ∧ True))
  | .message ⟨height, _, .updateParams _⟩ => inferInstanceAs (Decidable (c.1 ≤ height ∧ True))
  | .endBlock height => inferInstanceAs (Decidable (c.1 ≤ height ∧ True))

/-- A contract paid for the height is enabled, and a confirmed root of its chain is passed on to it as long
as it is paid. -/
def Served (height : UInt64) (s : State) : Prop :=
  ∀ (addr : Text) (c : RegisteredContract) (r : EscrowRecord), s.contracts[addr]? = some c →
    s.escrows[addr]? = some r → height ≤ r.paidUntilHeight →
    c.enabled = true ∧ ∀ (height' : UInt64) (root : HashRoot) (atts : List OracleAttestation),
      height' ≤ r.paidUntilHeight → root.chainUid = c.chainUid →
      ∃ account, k.accAddressFromBech32 addr = some account ∧
        .sudoCallback account (sudoPayload root atts) ∈ (k.dispatchSudoCallbacks height' root atts (s, [])).2

/-- What the events keep at a height. -/
structure Service (height : UInt64) (s : State) : Prop where
  contracts : Table.Keyed RegisteredContract.contractAddr s.contracts
  escrows : Table.Keyed EscrowRecord.contractAddr s.escrows
  parses : ∀ (addr : Text) (c : RegisteredContract), s.contracts[addr]? = some c → k.accAddressFromBech32 addr ≠ none
  enabled : ∀ (addr : Text) (c : RegisteredContract) (r : EscrowRecord), s.contracts[addr]? = some c →
    s.escrows[addr]? = some r → height ≤ r.paidUntilHeight → c.enabled = true

variable {k} {height : UInt64} {s : State} {d : Delivery}

/-- A later height asks for less. -/
theorem Service.mono (h : k.Service height s) {height' : UInt64} (hle : height ≤ height') : k.Service height' s :=
  ⟨h.contracts, h.escrows, h.parses, fun addr c r hc hr hpaid => h.enabled addr c r hc hr (UInt64.le_trans hle hpaid)⟩

/-- Disabling a contract keeps the other contracts and the addresses of all. -/
private theorem disableContract_contracts {t : State} (ht : Table.Keyed RegisteredContract.contractAddr t.contracts)
    (a : Text) : Table.Keyed RegisteredContract.contractAddr (t.disableContract a).contracts ∧
      ∀ (addr : Text) (c : RegisteredContract), (t.disableContract a).contracts[addr]? = some c →
        ∃ c', t.contracts[addr]? = some c' ∧ (addr ≠ a → c = c') := by
  unfold State.disableContract
  cases ha : t.getRegisteredContract a with
  | error e => exact ⟨ht, fun addr c hc => ⟨c, hc, fun _ => rfl⟩⟩
  | ok contract =>
    have hcontract := State.getRegisteredContract_eq_ok.mp ha
    refine ⟨ht.insert _, fun addr c hc => ?_⟩
    simp only [State.setRegisteredContract, ht a contract hcontract, Table.getElem?_insert] at hc
    split at hc
    · next heq => exact ⟨contract, heq ▸ hcontract, fun hne => absurd heq.symm hne⟩
    · exact ⟨c, hc, fun _ => rfl⟩

/-- A contract that is not among those disabled stays as it was. -/
private theorem foldl_disableContract (addrs : List Text) {t : State}
    (ht : Table.Keyed RegisteredContract.contractAddr t.contracts) :
    Table.Keyed RegisteredContract.contractAddr (addrs.foldl State.disableContract t).contracts ∧
      ∀ (addr : Text) (c : RegisteredContract), (addrs.foldl State.disableContract t).contracts[addr]? = some c →
        ∃ c', t.contracts[addr]? = some c' ∧ (addr ∉ addrs → c = c') := by
  induction addrs generalizing t with
  | nil => exact ⟨ht, fun addr c hc => ⟨c, hc, fun _ => rfl⟩⟩
  | cons a addrs ih =>
    obtain ⟨hkeyed, hstep⟩ := disableContract_contracts ht a
    obtain ⟨hkeyed', hrest⟩ := ih hkeyed
    refine ⟨hkeyed', fun addr c hc => ?_⟩
    obtain ⟨c', hc', hsame⟩ := hrest addr c hc
    obtain ⟨c'', hc'', hsame'⟩ := hstep addr c' hc'
    refine ⟨c'', hc'', fun hnot => ?_⟩
    rw [List.mem_cons, not_or] at hnot
    rw [hsame hnot.2, hsame' hnot.1]

private theorem Service.prune (h : k.Service height s) : k.Service height (s.pruneExpiredEscrows height) := by
  obtain ⟨hkeyed, hcontracts⟩ := foldl_disableContract (s.expired height) h.contracts
  have hescrows := s.pruneExpiredEscrows_frame State.escrows (fun _ _ => rfl) height
  constructor
  · exact hkeyed
  · rw [hescrows]
    exact h.escrows
  · intro addr c hc
    obtain ⟨c', hc', -⟩ := hcontracts addr c hc
    exact h.parses addr c' hc'
  · intro addr c r hc hr hpaid
    rw [hescrows] at hr
    obtain ⟨c', hc', hsame⟩ := hcontracts addr c hc
    have hkept : addr ∉ s.expired height := by
      intro hin
      obtain ⟨r', hr', hkey⟩ := List.mem_map.mp hin
      rw [List.mem_filter, decide_eq_true_eq] at hr'
      obtain ⟨addr', haddr'⟩ := Table.mem_values.mp hr'.1
      have heq : addr' = addr := (h.escrows addr' r' haddr').symm.trans hkey
      rw [heq, hr] at haddr'
      cases haddr'
      exact absurd hpaid (UInt64.not_le.mpr hr'.2)
    rw [hsame hkept]
    exact h.enabled addr c' r hc' hr hpaid

private theorem Service.endBlocker (h : k.Service height s) : k.Service height (s.endBlocker height) := by
  unfold State.endBlocker
  split
  · have hp := h.prune
    exact ⟨hp.contracts, hp.escrows, hp.parses, hp.enabled⟩
  · exact h

private theorem Service.registerContract (h : k.Service height s) {s' : State} {m : MsgRegisterContract}
    (haddr : k.accAddressFromBech32 m.contractAddr ≠ none) (hok : k.registerContract height s m = .ok s') :
    k.Service height s' := by
  obtain ⟨periods, -, rfl⟩ := registerContract_ok hok
  constructor
  · exact h.contracts.insert _
  · exact h.escrows.insert _
  · intro addr c hc
    simp only [State.setEscrowRecord, State.setRegisteredContract, Table.getElem?_insert] at hc
    split at hc
    · next heq => exact heq ▸ haddr
    · exact h.parses addr c hc
  · intro addr c r hc hr hpaid
    simp only [State.setEscrowRecord, State.setRegisteredContract, Table.getElem?_insert] at hc hr
    split at hc
    · cases hc
      rfl
    · next hne =>
      rw [if_neg hne] at hr
      exact h.enabled addr c r hc hr hpaid

private theorem Service.refillEscrow (h : k.Service height s) {s' : State} {m : MsgRefillEscrow}
    (henabled : ∀ c, s.contracts[m.contractAddr]? = some c → c.enabled = true) (hok : k.refillEscrow s m = .ok s') :
    k.Service height s' := by
  obtain ⟨record, periods, hrecord, -, -, rfl⟩ := refillEscrow_ok hok
  have hkey := h.escrows _ _ hrecord
  constructor
  · exact h.contracts
  · exact h.escrows.insert _
  · exact h.parses
  · intro addr c r hc hr hpaid
    simp only [State.setEscrowRecord, hkey, Table.getElem?_insert] at hr
    split at hr
    · next heq => exact henabled c (heq ▸ hc)
    · exact h.enabled addr c r hc hr hpaid

private theorem Service.handle (h : k.Service d.height s) (hd : k.RefillsEnabled (height, s) (.message d))
    {s' : State} (hok : k.handle d.height s d.msg = .ok s') : k.Service d.height s' := by
  obtain ⟨height', basic, msg⟩ := d
  cases msg with
  | registerChain m =>
    obtain ⟨-, rfl⟩ := registerChain_ok hok
    exact ⟨h.contracts, h.escrows, h.parses, h.enabled⟩
  | registerContract m => exact h.registerContract hd.2 hok
  | refillEscrow m => exact h.refillEscrow hd.2 hok
  | updateParams m =>
    obtain ⟨-, rfl⟩ := updateParams_ok hok
    exact ⟨h.contracts, h.escrows, h.parses, h.enabled⟩

private theorem Service.blockEvent {c : UInt64 × State} (h : k.Service c.1 c.2) {e : BlockEvent}
    (he : k.RefillsEnabled c e) : k.Service (k.blockEvent c e).1 (k.blockEvent c e).2 := by
  have hlater := h.mono he.1
  cases e with
  | message d =>
    change k.Service d.height (k.deliver c.2 d)
    rcases k.deliver_cases c.2 d with hsame | hok
    · rw [hsame]
      exact hlater
    · exact Service.handle hlater he hok
  | endBlock height => exact hlater.endBlocker

/-- An enabled contract is called when the iteration reaches it, whatever was called before. -/
private theorem mem_foldl_dispatchSudoCallback (hk : ∀ s a p, (k.wasmSudo s a p).escrows = s.escrows)
    {root : HashRoot} {atts : List OracleAttestation} {c : RegisteredContract} {r : EscrowRecord} {account : Bytes}
    (henabled : c.enabled = true) (hchain : c.chainUid = root.chainUid) (hpaid : height ≤ r.paidUntilHeight)
    (haccount : k.accAddressFromBech32 c.contractAddr = some account) (cs : List RegisteredContract) (hc : c ∈ cs)
    (acc : State × List Effect) (hr : acc.1.escrows[c.contractAddr]? = some r) :
    .sudoCallback account (sudoPayload root atts) ∈ (cs.foldl (k.dispatchSudoCallback height root atts) acc).2 := by
  induction cs generalizing acc with
  | nil => cases hc
  | cons c' cs ih =>
    rw [List.foldl_cons]
    rcases List.mem_cons.mp hc with rfl | hc
    · have hcall : .sudoCallback account (sudoPayload root atts) ∈
          (k.dispatchSudoCallback height root atts acc c).2 := by
        have hskip : ¬ (c.chainUid ≠ root.chainUid ∨ c.enabled = false) := by
          simp [hchain, henabled]
        simp only [dispatchSudoCallback, if_neg hskip, State.getEscrowRecord_eq_ok.mpr hr,
          if_neg (UInt64.not_lt.mpr hpaid), haccount]
        exact List.mem_append_right _ List.mem_cons_self
      obtain ⟨calls, hcalls, -⟩ := k.foldl_dispatchSudoCallback_effects height root atts cs
        (k.dispatchSudoCallback height root atts acc c)
      rw [hcalls]
      exact List.mem_append_left _ hcall
    · refine ih hc _ ?_
      rw [k.dispatchSudoCallback_frame State.escrows hk]
      exact hr

private theorem Service.served (hk : ∀ s a p, (k.wasmSudo s a p).escrows = s.escrows) (h : k.Service height s) :
    k.Served height s := by
  intro addr c r hc hr hpaid
  have henabled := h.enabled addr c r hc hr hpaid
  refine ⟨henabled, fun height' root atts hpaid' hchain => ?_⟩
  obtain ⟨account, haccount⟩ := Option.ne_none_iff_exists'.mp (h.parses addr c hc)
  refine ⟨account, haccount, ?_⟩
  have hkey := h.contracts addr c hc
  rw [← hkey] at haccount hr
  exact mem_foldl_dispatchSudoCallback hk henabled hchain.symm hpaid' haccount _
    (Table.mem_values.mpr ⟨addr, hc⟩) (s, []) hr

/-- From a module without contracts, in every run that refills only enabled contracts, paid contracts are
served in every state: after each message and at the end of each block. -/
theorem paid_contracts_served (k : Keeper) (hk : ∀ s a p, (k.wasmSudo s a p).escrows = s.escrows) (s : State)
    (hcontracts : s.contracts = ∅) (hescrows : s.escrows = ∅) (es : List BlockEvent)
    (hes : Along k.blockEvent k.RefillsEnabled (0, s) es) (pre : List BlockEvent) (hpre : pre <+: es) :
    k.Served (run k.blockEvent (0, s) pre).1 (run k.blockEvent (0, s) pre).2 := by
  have hstart : k.Service 0 s := by
    have hnone : ∀ (addr : Text) (c : RegisteredContract), s.contracts[addr]? ≠ some c := by
      intro addr c hc
      rw [hcontracts, Std.ExtTreeMap.getElem?_empty] at hc
      cases hc
    constructor
    · rw [hcontracts]
      exact Table.Keyed.empty
    · rw [hescrows]
      exact Table.Keyed.empty
    · exact fun addr c hc => absurd hc (hnone addr c)
    · exact fun addr c r hc => absurd hc (hnone addr c)
  exact (hes.invariant_at (I := fun c => k.Service c.1 c.2) (fun _ _ h he => h.blockEvent he) hstart hpre).served hk

theorem not_served_of_disabled {addr : Text} {paid : UInt64} (hle : height ≤ paid)
    (hc : s.contracts[addr]?.map RegisteredContract.enabled = some false)
    (hr : s.escrows[addr]?.map EscrowRecord.paidUntilHeight = some paid) : ¬ k.Served height s := by
  intro h
  obtain ⟨c, hcontract, hdisabled⟩ := Option.map_eq_some_iff.mp hc
  obtain ⟨r, hrecord, hpaid⟩ := Option.map_eq_some_iff.mp hr
  rw [← hpaid] at hle
  rw [(h addr c r hcontract hrecord hle).1] at hdisabled
  cases hdisabled

end Keeper

/-- Registered for one interval and refilled before it ends: still enabled at the end of the next. -/
theorem refilled_in_time_served :
    let es := [.message (sampleRegister 10 1000000), .endBlock 1000, .message (sampleRefill 1005 1000000),
      .endBlock 2000]
    let c := run sampleKeeper.blockEvent (0, sampleState) es
    c.2.contracts[contractA]?.map RegisteredContract.enabled = some true ∧
    c.2.escrows[contractA]?.map EscrowRecord.paidUntilHeight = some 2010 ∧ sampleKeeper.Served c.1 c.2 := by
  refine ⟨by decide +kernel, by decide +kernel, ?_⟩
  refine Keeper.paid_contracts_served sampleKeeper (fun _ _ _ => rfl) sampleState rfl rfl _ ?_ _ List.prefix_rfl
  decide +kernel

/-- Registered for one interval, pruned after it and refilled: the coins are taken and the record is paid
into the future, but the contract stays disabled at the end of the block. -/
theorem refilled_after_prune_stays_disabled :
    let register := [.message (sampleRegister 10 1000000), .endBlock 1500]
    let before := run sampleKeeper.blockEvent (0, sampleState) register
    let after := run sampleKeeper.blockEvent before [.message (sampleRefill 1600 5000000), .endBlock 1600]
    before.2.balances (List.replicate 20 1) (text "uterp") = 99000000 ∧
    after.2.balances (List.replicate 20 1) (text "uterp") = 94000000 ∧
    after.2.escrows[contractA]?.map EscrowRecord.paidUntilHeight = some 6010 ∧
    after.2.contracts[contractA]?.map RegisteredContract.enabled = some false ∧
    ¬ sampleKeeper.Served after.1 after.2 := by
  have hpaid : (run sampleKeeper.blockEvent (0, sampleState) [.message (sampleRegister 10 1000000), .endBlock 1500,
      .message (sampleRefill 1600 5000000), .endBlock 1600]).2.escrows[contractA]?.map
        EscrowRecord.paidUntilHeight = some 6010 := by decide +kernel
  have hdisabled : (run sampleKeeper.blockEvent (0, sampleState) [.message (sampleRegister 10 1000000), .endBlock 1500,
      .message (sampleRefill 1600 5000000), .endBlock 1600]).2.contracts[contractA]?.map
        RegisteredContract.enabled = some false := by decide +kernel
  exact ⟨by decide +kernel, by decide +kernel, hpaid, hdisabled,
    Keeper.not_served_of_disabled (by decide) hdisabled hpaid⟩

end Terpz.Hashmerchant
