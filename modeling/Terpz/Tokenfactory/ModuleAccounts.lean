import Terpz.Tokenfactory.Authority

/-! Blocked addresses against the bank actions of an admin. Mints and burns look up the account they touch; a forced
transfer looks up its target only. -/
namespace Terpz.Tokenfactory
open Lib

def Msg.IsBankAction : Msg → Prop
  | .mint _ | .burn _ | .forceTransfer _ => True
  | _ => False

namespace Keeper
variable (k : Keeper)

/-- The message is no forced transfer out of the account. -/
def NotFrom (b : Bytes) : Msg → Prop
  | .forceTransfer m => k.accAddressFromBech32 m.transferFromAddress ≠ .ok b
  | _ => True

instance (b : Bytes) : (msg : Msg) → Decidable (k.NotFrom b msg)
  | .forceTransfer _ => inferInstanceAs (Decidable (_ ≠ _))
  | .createDenom _ | .mint _ | .burn _ | .changeAdmin _ | .setDenomMetadata _ | .updateParams _ => isTrue trivial

variable {k} {b : Bytes}

private theorem ne_of_free {addr : Bytes} (hb : k.blockedAddr b = true) (hfree : k.blockedAddr addr = false) :
    b ≠ addr := by
  rintro rfl
  rw [hb] at hfree
  cases hfree

theorem balance_bankAction (hb : k.blockedAddr b = true) (s : State) {d : Delivery} (haction : d.msg.IsBankAction)
    (hspared : k.NotFrom b d.msg) : (k.deliver s d).balance b = s.balance b := by
  rcases deliver_cases s d with hsame | hrun
  · rw [hsame]
  · obtain ⟨ctx, msg⟩ := d
    cases msg with
    | mint m =>
      obtain ⟨-, addr, hfree, hs⟩ := mint_ok hrun
      rw [hs]
      exact Ledger.post_balance_of_ne _ _ (ne_of_free hb hfree)
    | burn m =>
      obtain ⟨-, addr, hfree, hs⟩ := burn_ok hrun
      rw [hs]
      exact Ledger.post_balance_of_ne _ _ (ne_of_free hb hfree)
    | forceTransfer m =>
      obtain ⟨source, target, hsource, hfree, hs⟩ := forceTransferMsg_ok hrun
      have hne : b ≠ source := by
        rintro rfl
        exact hspared hsource
      rw [hs]
      exact (Ledger.post_balance_of_ne _ _ (ne_of_free hb hfree)).trans (Ledger.post_balance_of_ne _ _ hne)
    | createDenom m => cases haction
    | changeAdmin m => cases haction
    | setDenomMetadata m => cases haction
    | updateParams m => cases haction

end Keeper

/-- In a run of mints, burns and forced transfers none of which is out of a blocked account, the balances of that
account never change. -/
theorem module_accounts_untouched (k : Keeper) {b : Bytes} (hb : k.blockedAddr b = true) (s : State)
    {ds : List Delivery}
    (hactions : ∀ d ∈ ds, d.msg.IsBankAction) (hspared : ∀ d ∈ ds, k.NotFrom b d.msg) {before : List Delivery}
    (hbefore : before <+: ds) : (run k.deliver s before).balance b = s.balance b := by
  have hsteps : Along k.deliver (fun _ d => d.msg.IsBankAction ∧ k.NotFrom b d.msg) s ds :=
    Along.of_forall_mem (fun d hd _ => ⟨hactions d hd, hspared d hd⟩) s
  exact Along.invariant_at (I := fun t => t.balance b = s.balance b)
    (fun t d ht hd => (Keeper.balance_bankAction hb t hd.1 hd.2).trans ht) rfl hsteps hbefore

/-- Gold after its owner has given ten pieces to the community pool. -/
def goldInPool : State :=
  let minted := run sampleKeeper.deliver emptyState [deliveryOf (.createDenom ⟨terpText userA, text "gold"⟩), mintGold]
  let given := (minted.bank.ledger.post userA (-amountOf [⟨gold, 10⟩])).post distributionAccount (amountOf [⟨gold, 10⟩])
  { minted with bank := minted.bank.withLedger given }

/-- Minting, burning and moving gold between users leaves the community pool alone. -/
theorem pool_keeps_gold :
    (run sampleKeeper.deliver goldInPool [mintGold, deliveryOf (.burn ⟨terpText userA, ⟨gold, 3⟩, []⟩),
      deliveryOf (.forceTransfer ⟨terpText userA, ⟨gold, 4⟩, terpText userA, terpText userB⟩)]).balance
        distributionAccount gold = 10 := by
  refine (congrFun (module_accounts_untouched sampleKeeper (by decide) goldInPool ?_ (by decide +kernel)
    (List.prefix_refl _)) gold).trans (by decide +kernel)
  simp [mintGold, deliveryOf, Msg.IsBankAction]

/-- The admin takes gold out of the community pool with a forced transfer. -/
theorem forced_transfer_empties_pool :
    let drain : Msg := .forceTransfer ⟨terpText userA, ⟨gold, 10⟩, terpText distributionAccount, terpText userA⟩
    sampleKeeper.validateBasic drain = .ok () ∧ sampleKeeper.blockedAddr distributionAccount = true ∧
    distributionAccount ≠ sampleKeeper.moduleAddress ∧ goldInPool.balance distributionAccount gold = 10 ∧
    (sampleKeeper.deliver goldInPool (deliveryOf drain)).balance distributionAccount gold = 0 := by
  decide +kernel

end Terpz.Tokenfactory
