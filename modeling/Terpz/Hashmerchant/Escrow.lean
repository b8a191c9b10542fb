import Terpz.Lib.Run
import Terpz.Hashmerchant.Keeper.MsgServer

/-! The module account against the escrow records: what the messages move in is what the records say,
as long as no registration replaces a record. -/
namespace Terpz.Hashmerchant
open Lib

def Coin.amountOf (c : Coin) (denom : Text) : Int := if c.denom = denom then c.amount else 0

/-- The recorded amounts of one denomination. -/
def State.escrowed (s : State) (denom : Text) : Int :=
  Table.sum (fun r : EscrowRecord => r.amount.amountOf denom) s.escrows

namespace Keeper
variable (k : Keeper)

/-- A registration is for a contract without a record, and the module account itself sends nothing. -/
def RegistersOnce (s : State) : Msg → Prop
  | .registerContract m => s.escrows[m.contractAddr]? = none ∧ k.senderAddress m.sender ≠ k.moduleAddress
  | .refillEscrow m => k.senderAddress m.sender ≠ k.moduleAddress
  | _ => True

instance (s : State) : (m : Msg) → Decidable (k.RegistersOnce s m)
  | .registerContract m => inferInstanceAs (Decidable (s.escrows[m.contractAddr]? = none ∧ _ ≠ _))
  | .refillEscrow _ => inferInstanceAs (Decidable (_ ≠ _))
  | .registerChain _ => isTrue trivial
  | .updateParams _ => isTrue trivial

/-- Records lie under their contract, and the balance above the initial one is what they hold. -/
structure Conserved (initial : Text → Int) (s : State) : Prop where
  keyed : Table.Keyed EscrowRecord.contractAddr s.escrows
  balance : ∀ denom, s.balances k.moduleAddress denom = initial denom + s.escrowed denom

variable {k} {initial : Text → Int} {s s' : State}

theorem transfer_balance {sender : Bytes} (hsender : sender ≠ k.moduleAddress) (c : Coin) (denom : Text) :
    (s.transfer sender k.moduleAddress c).balances k.moduleAddress denom =
      s.balances k.moduleAddress denom + c.amountOf denom := by
  have hother : ¬ (k.moduleAddress = sender ∧ denom = c.denom) := fun h => hsender h.1.symm
  simp only [State.transfer, Coin.amountOf, if_neg hother, true_and, sub_zero, eq_comm (b := denom)]

/-- A record written for a coin that the module account received keeps the balance and the records in step
when it adds just that coin to what its key held. -/
private theorem Conserved.receive (h : k.Conserved initial s) {sender : Bytes} (hsender : sender ≠ k.moduleAddress)
    (c : Coin) (r : EscrowRecord) (t : State) (ht : t.escrows = s.escrows)
    (hb : t.balances = (s.transfer sender k.moduleAddress c).balances)
    (hadd : ∀ denom, r.amount.amountOf denom =
      (s.escrows[r.contractAddr]?.map (fun r => r.amount.amountOf denom)).getD 0 + c.amountOf denom) :
    k.Conserved initial (t.setEscrowRecord r) := by
  constructor
  · rw [State.setEscrowRecord, ht]
    exact h.keyed.insert r
  · intro denom
    have hsum : (t.setEscrowRecord r).escrowed denom = s.escrowed denom + c.amountOf denom := by
      rw [State.escrowed, State.setEscrowRecord, ht, Table.sum_insert, hadd, State.escrowed]
      omega
    have hbalance : (t.setEscrowRecord r).balances = t.balances := rfl
    rw [hsum, hbalance, hb, transfer_balance hsender, h.balance]
    omega

private theorem Conserved.step (h : k.Conserved initial s) {d : Delivery} (hd : k.RegistersOnce s d.msg)
    (hok : k.handle d.height s d.msg = .ok s') : k.Conserved initial s' := by
  cases hm : d.msg with
  | registerChain m =>
    rw [hm] at hok
    obtain ⟨-, rfl⟩ := registerChain_ok hok
    exact ⟨h.keyed, h.balance⟩
  | registerContract m =>
    rw [hm] at hok hd
    obtain ⟨periods, -, rfl⟩ := registerContract_ok hok
    refine h.receive hd.2 m.escrow _ _ ?_ ?_ ?_
    · rfl
    · rfl
    · intro denom
      simp [hd.1]
  | refillEscrow m =>
    rw [hm] at hok hd
    obtain ⟨record, periods, hrecord, -, hdenom, rfl⟩ := refillEscrow_ok hok
    have hkey : record.contractAddr = m.contractAddr := h.keyed _ _ hrecord
    refine h.receive hd m.amount _ _ ?_ ?_ ?_
    · rfl
    · rfl
    · intro denom
      simp only [hkey, hrecord, Option.map_some, Option.getD_some, Coin.amountOf, ← hdenom]
      split <;> omega
  | updateParams m =>
    rw [hm] at hok
    obtain ⟨-, rfl⟩ := updateParams_ok hok
    exact ⟨h.keyed, h.balance⟩

/-- From a module without records, every message that registers no contract twice keeps the balance of the
module account at the initial one plus the recorded amounts. -/
theorem escrow_conserved (k : Keeper) (s : State) (hempty : s.escrows = ∅) (ds : List Delivery)
    (hds : Along k.deliver (fun t d => k.RegistersOnce t d.msg) s ds) (denom : Text) :
    (run k.deliver s ds).balances k.moduleAddress denom =
      s.balances k.moduleAddress denom + (run k.deliver s ds).escrowed denom := by
  have hstart : k.Conserved (s.balances k.moduleAddress) s := by
    constructor
    · rw [hempty]
      exact Table.Keyed.empty
    · intro denom
      rw [State.escrowed, hempty, Table.sum_empty, add_zero]
  refine (hds.invariant (fun t d ht hd => ?_) hstart).balance denom
  rcases k.deliver_cases t d with hsame | hok
  · rw [hsame]
    exact ht
  · exact ht.step hd hok

end Keeper

/-- A registration and a refill: three million in the account and in the record. -/
theorem registered_and_refilled :
    let ds := [sampleRegister 10 2000000, sampleRefill 20 1000000]
    (run sampleKeeper.deliver sampleState ds).escrowed (text "uterp") = 3000000 ∧
    (run sampleKeeper.deliver sampleState ds).balances sampleKeeper.moduleAddress (text "uterp") =
      sampleState.balances sampleKeeper.moduleAddress (text "uterp") +
        (run sampleKeeper.deliver sampleState ds).escrowed (text "uterp") :=
  ⟨by decide +kernel, Keeper.escrow_conserved sampleKeeper sampleState rfl _ (by decide +kernel) (text "uterp")⟩

/-- A second registration of one contract: the account holds three million, the record one. -/
theorem reregistration_loses_escrow :
    let s := run sampleKeeper.deliver sampleState [sampleRegister 10 2000000, sampleRegister 20 1000000]
    s.balances sampleKeeper.moduleAddress (text "uterp") = 3000000 ∧ s.escrowed (text "uterp") = 1000000 ∧
      sampleState.balances sampleKeeper.moduleAddress (text "uterp") = 0 := by
  decide +kernel

end Terpz.Hashmerchant
