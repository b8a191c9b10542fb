import Terpz.Feeshare.Keeper
import Terpz.Lib.Ascending
import Terpz.Tokenfactory.Types

/-! The payout of fee shares in the ante handler: each withdrawer of an executed contract gets an equal share of the
allowed fees, rounded to the nearest coin. What is paid in all can pass the fee. -/
namespace Terpz.Feeshare
open Lib
open Tokenfactory (Coin matchesDenom coinsValid amountOf)

/-- A message of a transaction: the execution of a contract, or another one. -/
inductive TxMsg where
  | executeContract (contract : Text)
  | other
  deriving DecidableEq, Repr

/-- `Coins.Add` of one coin; a sum beyond 256 bits panics. -/
def addCoin (c : Coin) : List Coin → Option (List Coin)
  | [] => some (if c.amount = 0 then [] else [c])
  | x :: xs =>
    match compare c.denom x.denom with
    | .lt => some (if c.amount = 0 then x :: xs else c :: x :: xs)
    | .eq => (Decimal.inRange Decimal.maxInt (x.amount + c.amount)).map
        (fun sum => if sum = 0 then xs else ⟨x.denom, sum⟩ :: xs)
    | .gt => (addCoin c xs).map (x :: ·)

def newCoin (denom : Text) (amount : Int) : Option Coin :=
  if matchesDenom denom = true ∧ 0 ≤ amount then some ⟨denom, amount⟩ else none

/-- One developer's reward for an amount. -/
def rewardAmount (limit : Nat) (govPercent amount : Int) (numPairs : Nat) : Option Int := do
  let share ← Decimal.mulInt limit govPercent amount
  let part ← Decimal.quoInt share numPairs
  Decimal.roundInt part

/-- The reward for one coin, which is left out when it is zero. -/
def addReward (limit : Nat) (govPercent : Int) (numPairs : Nat) (splitFees : List Coin) (c : Coin) :
    Option (List Coin) := do
  let reward ← rewardAmount limit govPercent c.amount numPairs
  if reward = 0 then some splitFees else (newCoin c.denom reward).bind (fun coin => addCoin coin splitFees)

def feePayLogic (limit : Nat) (fees : List Coin) (govPercent : Int) (numPairs : Nat) : Option (List Coin) :=
  (sortBy Coin.denom fees).foldlM (addReward limit govPercent numPairs) []

/-- The fee once for each allowed denomination that is its own. -/
def addAllowed (allowedDenoms : List Text) (fees : List Coin) (fee : Coin) : Option (List Coin) :=
  allowedDenoms.foldlM (fun fees allowed => if fee.denom = allowed then addCoin fee fees else some fees) fees

def allowedFees (allowedDenoms : List Text) (totalFees : List Coin) : Option (List Coin) :=
  if allowedDenoms = [] then some totalFees
  else (sortBy Coin.denom totalFees).foldlM (addAllowed allowedDenoms) []

/-- A payment out of the fee collector. -/
structure Payment where
  account : Bytes
  coins : List Coin
  deriving DecidableEq, Repr

/-- What the bank answers to the next payment, after the payments so far. -/
abbrev BankAnswer := List Payment → Payment → Except Err Unit

/-- The payments of equal coins, up to the first that the bank refuses. -/
def payEach (bank : BankAnswer) (splitFees : List Coin) : List Payment → List Bytes → List Payment × Except Err Unit
  | paid, [] => (paid, .ok ())
  | paid, withdrawAddr :: rest =>
    match bank paid ⟨withdrawAddr, splitFees⟩ with
    | .error e => (paid, .error (.of .feeSharePayment
        (text "failed to pay fees to contract developer: " ++ e.message)))
    | .ok () => payEach bank splitFees (paid ++ [⟨withdrawAddr, splitFees⟩]) rest

namespace Keeper
variable (k : Keeper)

/-- The withdrawers of the executed contracts, one for each execution. -/
def toPay (s : State) : List TxMsg → Except Err (List Bytes)
  | [] => .ok []
  | .other :: msgs => toPay s msgs
  | .executeContract contract :: msgs => do
    let contractAddr ← k.addrs.accAddressFromBech32 contract
    let shareData := (getFeeShare s contractAddr).getD ⟨[], [], []⟩
    let withdrawAddr := k.addrs.getWithdrawerAddr shareData
    let rest ← toPay s msgs
    .ok (if withdrawAddr ≠ [] then withdrawAddr :: rest else rest)

/-- The coins each withdrawer gets; `none` is a panic. -/
def splitFees (limit : Nat) (params : Params) (totalFees : List Coin) (numPairs : Nat) : Option (List Coin) := do
  let fees ← allowedFees params.allowedDenoms totalFees
  let govPercent ← params.developerShares
  feePayLogic limit fees govPercent numPairs

/-- The payments that were made, and the result. -/
def feeSharePayout (limit : Nat) (s : State) (bank : BankAnswer) (totalFees : List Coin) (msgs : List TxMsg) :
    List Payment × Except Err Unit :=
  if s.params.enableFeeShare = false then ([], .ok ())
  else
    match k.toPay s msgs with
    | .error e => ([], .error e)
    | .ok toPay =>
      if toPay = [] then ([], .ok ())
      else
        match splitFees limit s.params totalFees toPay.length with
        | none => ([], .error ⟨.panicked, text "Int overflow"⟩)
        | some splitFees => payEach bank splitFees [] toPay

end Keeper

/-- All that was paid in a denomination. -/
def paidIn (payments : List Payment) (denom : Text) : Int := (payments.map (fun p => amountOf p.coins denom)).sum

section Amounts
variable {denom : Text} {c : Coin} {coins out : List Coin}

theorem addCoin_amountOf (h : addCoin c coins = some out) :
    amountOf out denom = amountOf coins denom + amountOf [c] denom := by
  induction coins generalizing out with
  | nil =>
    cases h
    split <;> simp_all [amountOf]
  | cons x xs ih =>
    rw [addCoin] at h
    split at h
    · cases h
      split <;> simp_all [amountOf, add_comm]
    · next heq =>
      rw [Std.compare_eq_iff_eq] at heq
      obtain ⟨sum, hsum, rfl⟩ := Option.map_eq_some_iff.mp h
      obtain ⟨-, rfl⟩ := Decimal.inRange_eq_some.mp hsum
      simp only [amountOf, heq]
      split <;> split <;> simp_all [amountOf] <;> omega
    · obtain ⟨out', hout, rfl⟩ := Option.map_eq_some_iff.mp h
      simp only [amountOf, ih hout]
      ring

private theorem denom_of_mem_addCoin (h : addCoin c coins = some out) {x : Coin} (hx : x ∈ out) :
    x.denom = c.denom ∨ ∃ y ∈ coins, y.denom = x.denom := by
  induction coins generalizing out with
  | nil =>
    cases h
    split at hx <;> simp_all
  | cons y ys ih =>
    rw [addCoin] at h
    split at h
    · cases h
      split at hx
      · exact .inr ⟨x, hx, rfl⟩
      · rcases List.mem_cons.mp hx with rfl | hx
        · exact .inl rfl
        · exact .inr ⟨x, hx, rfl⟩
    · obtain ⟨sum, -, rfl⟩ := Option.map_eq_some_iff.mp h
      split at hx
      · exact .inr ⟨x, List.mem_cons_of_mem _ hx, rfl⟩
      · rcases List.mem_cons.mp hx with rfl | hx
        · exact .inr ⟨y, List.mem_cons_self, rfl⟩
        · exact .inr ⟨x, List.mem_cons_of_mem _ hx, rfl⟩
    · obtain ⟨out', hout, rfl⟩ := Option.map_eq_some_iff.mp h
      rcases List.mem_cons.mp hx with rfl | hx
      · exact .inr ⟨x, List.mem_cons_self, rfl⟩
      · rcases ih hout hx with hdenom | ⟨z, hz, hdenom⟩
        · exact .inl hdenom
        · exact .inr ⟨z, List.mem_cons_of_mem _ hz, hdenom⟩

theorem addCoin_ascending (hcoins : Ascending Coin.denom coins) (h : addCoin c coins = some out) :
    Ascending Coin.denom out := by
  induction coins generalizing out with
  | nil =>
    cases h
    split
    · exact List.Pairwise.nil
    · exact List.pairwise_singleton _ _
  | cons x xs ih =>
    obtain ⟨hx, hxs⟩ := List.pairwise_cons.mp hcoins
    rw [addCoin] at h
    split at h
    · next hlt =>
      cases h
      split
      · exact hcoins
      · refine List.pairwise_cons.mpr ⟨?_, hcoins⟩
        exact List.forall_mem_cons.mpr ⟨hlt, fun y hy => Std.TransCmp.lt_trans hlt (hx y hy)⟩
    · obtain ⟨sum, -, rfl⟩ := Option.map_eq_some_iff.mp h
      split
      · exact hxs
      · exact List.pairwise_cons.mpr ⟨hx, hxs⟩
    · next hgt =>
      obtain ⟨out', hout, rfl⟩ := Option.map_eq_some_iff.mp h
      refine List.pairwise_cons.mpr ⟨fun y hy => ?_, ih hxs hout⟩
      rcases denom_of_mem_addCoin hout hy with hdenom | ⟨z, hz, hdenom⟩
      · rw [hdenom]
        exact Std.OrientedCmp.gt_iff_lt.mp hgt
      · rw [← hdenom]
        exact hx z hz

private theorem ne_of_compare {a b : Text} (h : compare a b ≠ .eq) : a ≠ b := by
  rintro rfl
  exact h Std.ReflOrd.compare_self

private theorem amountOf_eq_zero (h : ∀ x ∈ coins, x.denom ≠ denom) : amountOf coins denom = 0 := by
  induction coins with
  | nil => rfl
  | cons x xs ih =>
    obtain ⟨hx, hxs⟩ := List.forall_mem_cons.mp h
    rw [amountOf, if_neg hx, ih hxs, zero_add]

/-- A coin of a list with one coin a denomination is all there is of it. -/
private theorem amountOf_of_mem (hcoins : Ascending Coin.denom coins) (hc : c ∈ coins) :
    amountOf coins c.denom = c.amount := by
  induction coins with
  | nil => cases hc
  | cons x xs ih =>
    obtain ⟨hx, hxs⟩ := List.pairwise_cons.mp hcoins
    have hne : ∀ y ∈ xs, y.denom ≠ x.denom := fun y hy => (ne_of_compare (by simp [hx y hy])).symm
    rw [amountOf]
    rcases List.mem_cons.mp hc with rfl | hc
    · rw [if_pos rfl, amountOf_eq_zero hne, add_zero]
    · rw [if_neg (hne c hc).symm, ih hxs hc, zero_add]

private theorem addCoin_isSome_iff (hcoins : Ascending Coin.denom coins) (hsum : 0 ≤ amountOf coins c.denom)
    (hc : 0 ≤ c.amount) (hword : c.amount ≤ Decimal.maxInt) :
    (addCoin c coins).isSome = true ↔ amountOf coins c.denom + c.amount ≤ Decimal.maxInt := by
  induction coins with
  | nil => simpa [addCoin, amountOf] using hword
  | cons x xs ih =>
    obtain ⟨hx, hxs⟩ := List.pairwise_cons.mp hcoins
    rw [addCoin]
    split
    · next hlt =>
      have habsent : amountOf (x :: xs) c.denom = 0 := by
        refine amountOf_eq_zero (List.forall_mem_cons.mpr ⟨(ne_of_compare (by simp [hlt])).symm, fun y hy => ?_⟩)
        have hlt' := Std.TransCmp.lt_trans hlt (hx y hy)
        exact (ne_of_compare (by simp [hlt'])).symm
      simpa [habsent] using hword
    · next heq =>
      rw [Std.compare_eq_iff_eq] at heq
      have hamount : amountOf (x :: xs) c.denom = x.amount := by
        rw [heq]
        exact amountOf_of_mem hcoins List.mem_cons_self
      rw [hamount] at hsum ⊢
      rw [Option.isSome_map, Decimal.inRange]
      split <;> simp <;> omega
    · next hgt =>
      have hne : x.denom ≠ c.denom := (ne_of_compare (by simp [hgt])).symm
      rw [amountOf, if_neg hne, zero_add] at hsum ⊢
      rw [Option.isSome_map]
      exact ih hxs hsum

/-- How often an allowed list admits a denomination; an empty list admits each once. -/
def multiplicity (allowedDenoms : List Text) (denom : Text) : Nat :=
  if allowedDenoms = [] then 1 else allowedDenoms.count denom

private theorem addAllowed_spec (denom : Text) {allowed : List Text} {fee : Coin}
    (hcoins : Ascending Coin.denom coins) (h : addAllowed allowed coins fee = some out) :
    Ascending Coin.denom out ∧
      amountOf out denom = amountOf coins denom + allowed.count denom * amountOf [fee] denom := by
  unfold addAllowed at h
  induction allowed generalizing coins with
  | nil =>
    cases h
    simp [hcoins]
  | cons a as ih =>
    rw [List.foldlM_cons, Option.bind_eq_bind, Option.bind_eq_some_iff] at h
    obtain ⟨mid, hmid, hrest⟩ := h
    split at hmid
    · next heq =>
      obtain ⟨hout, hamount⟩ := ih (addCoin_ascending hcoins hmid) hrest
      refine ⟨hout, ?_⟩
      rw [hamount, addCoin_amountOf hmid, List.count_cons]
      by_cases hd : a = denom
      · simp [hd]
        ring
      · have hzero : amountOf [fee] denom = 0 := amountOf_eq_zero (by simpa [heq] using hd)
        simp [hzero]
    · next hne =>
      cases hmid
      obtain ⟨hout, hamount⟩ := ih hcoins hrest
      refine ⟨hout, ?_⟩
      rw [hamount, List.count_cons]
      by_cases hd : a = denom
      · have hzero : amountOf [fee] denom = 0 := amountOf_eq_zero (by simpa [← hd] using hne)
        simp [hzero]
      · simp [hd]

private theorem addAllowed_isSome_iff {allowed : List Text} {fee : Coin} (hcoins : Ascending Coin.denom coins)
    (hsum : 0 ≤ amountOf coins fee.denom) (hfits : amountOf coins fee.denom ≤ Decimal.maxInt) (hfee : 0 ≤ fee.amount)
    (hword : fee.amount ≤ Decimal.maxInt) :
    (addAllowed allowed coins fee).isSome = true ↔
      amountOf coins fee.denom + allowed.count fee.denom * fee.amount ≤ Decimal.maxInt := by
  unfold addAllowed
  induction allowed generalizing coins with
  | nil => simpa using hfits
  | cons a as ih =>
    rw [List.foldlM_cons]
    split
    · next heq =>
      have hadd := addCoin_isSome_iff hcoins hsum hfee hword
      have hrest : 0 ≤ (as.count fee.denom : Int) * fee.amount := Int.mul_nonneg (Int.natCast_nonneg _) hfee
      rw [← heq, List.count_cons_self]
      push_cast
      rw [add_mul, one_mul]
      cases hmid : addCoin fee coins with
      | none =>
        rw [hmid] at hadd
        simp only [Option.isSome_none, Bool.false_eq_true, false_iff] at hadd
        simp
        omega
      | some mid =>
        have hamount : amountOf mid fee.denom = amountOf coins fee.denom + fee.amount := by
          rw [addCoin_amountOf hmid]
          simp [amountOf]
        rw [hmid] at hadd
        simp only [Option.isSome_some, true_iff] at hadd
        refine (ih (addCoin_ascending hcoins hmid) (by omega) (by omega)).trans ?_
        omega
    · next hne =>
      rw [List.count_cons_of_ne (Ne.symm hne)]
      exact ih hcoins hsum hfits

private theorem addAllowed_all_spec (denom : Text) {allowed : List Text} {fees : List Coin}
    (hcoins : Ascending Coin.denom coins) (h : fees.foldlM (addAllowed allowed) coins = some out) :
    Ascending Coin.denom out ∧
      amountOf out denom = amountOf coins denom + allowed.count denom * amountOf fees denom := by
  induction fees generalizing coins with
  | nil =>
    cases h
    simp [hcoins, amountOf]
  | cons fee fees ih =>
    rw [List.foldlM_cons, Option.bind_eq_bind, Option.bind_eq_some_iff] at h
    obtain ⟨mid, hmid, hrest⟩ := h
    obtain ⟨hmidAscending, hmidAmount⟩ := addAllowed_spec denom hcoins hmid
    obtain ⟨hout, hamount⟩ := ih hmidAscending hrest
    refine ⟨hout, ?_⟩
    rw [hamount, hmidAmount]
    simp only [amountOf, add_zero]
    ring

/-- Coins of different denominations are added in turn unless one of them is refused. -/
private theorem foldlM_isSome_iff {step : List Coin → Coin → Option (List Coin)} {P : Coin → Prop} {fees : List Coin}
    (hfees : Ascending Coin.denom fees)
    (hkeep : ∀ {coins c out}, Ascending Coin.denom coins → step coins c = some out → Ascending Coin.denom out ∧
      ∀ denom, c.denom ≠ denom → amountOf out denom = amountOf coins denom)
    (hsome : ∀ c ∈ fees, ∀ {coins}, Ascending Coin.denom coins → amountOf coins c.denom = 0 →
      ((step coins c).isSome = true ↔ P c))
    (hcoins : Ascending Coin.denom coins) (hnew : ∀ c ∈ fees, amountOf coins c.denom = 0) :
    (fees.foldlM step coins).isSome = true ↔ ∀ c ∈ fees, P c := by
  induction fees generalizing coins with
  | nil => simp
  | cons fee fees ih =>
    obtain ⟨hlt, hrest⟩ := List.pairwise_cons.mp hfees
    obtain ⟨hzero, hnew⟩ := List.forall_mem_cons.mp hnew
    rw [List.foldlM_cons, List.forall_mem_cons, ← hsome fee List.mem_cons_self hcoins hzero]
    cases hmid : step coins fee with
    | none => simp
    | some mid =>
      obtain ⟨hascending, hothers⟩ := hkeep hcoins hmid
      have hmidNew : ∀ x ∈ fees, amountOf mid x.denom = 0 := by
        intro x hx
        rw [hothers _ (ne_of_compare (by simp [hlt x hx])), hnew x hx]
      simpa using ih hrest (fun c hc => hsome c (List.mem_cons_of_mem _ hc)) hascending hmidNew

/-- The allowed fees are the fee as often as its denomination is admitted. -/
theorem allowedFees_spec (denom : Text) {allowed : List Text} {totalFees : List Coin}
    (htotal : Ascending Coin.denom totalFees) (h : allowedFees allowed totalFees = some out) :
    Ascending Coin.denom out ∧ amountOf out denom = multiplicity allowed denom * amountOf totalFees denom := by
  unfold allowedFees at h
  unfold multiplicity
  split at h
  · next hempty =>
    cases h
    exact ⟨htotal, by simp [hempty]⟩
  · next hne =>
    rw [sortBy_of_ascending htotal] at h
    obtain ⟨hout, hamount⟩ := addAllowed_all_spec denom List.Pairwise.nil h
    exact ⟨hout, by simpa [amountOf, hne] using hamount⟩

theorem allowedFees_isSome_iff {allowed : List Text} {totalFees : List Coin} (htotal : Ascending Coin.denom totalFees)
    (hamounts : ∀ c ∈ totalFees, 0 ≤ c.amount ∧ c.amount ≤ Decimal.maxInt) :
    (allowedFees allowed totalFees).isSome = true ↔
      ∀ c ∈ totalFees, multiplicity allowed c.denom * c.amount ≤ (Decimal.maxInt : Int) := by
  unfold allowedFees multiplicity
  split
  · simpa using fun c hc => (hamounts c hc).2
  · rw [sortBy_of_ascending htotal]
    refine foldlM_isSome_iff htotal (fun hcoins hadd => ?_) (fun c hc coins hcoins hzero => ?_) List.Pairwise.nil
      (fun _ _ => rfl)
    · refine ⟨(addAllowed_spec [] hcoins hadd).1, fun denom hne => ?_⟩
      rw [(addAllowed_spec denom hcoins hadd).2, amountOf_eq_zero (List.forall_mem_singleton.mpr hne), mul_zero,
        add_zero]
    · rw [addAllowed_isSome_iff hcoins hzero.ge (by simp [hzero]) (hamounts c hc).1 (hamounts c hc).2, hzero, zero_add]

end Amounts

/-- Valid coins have a denomination, a positive amount and one coin for each denomination, in its order. -/
theorem coinsValid_iff {coins : List Coin} : coinsValid coins = true ↔
    (∀ c ∈ coins, matchesDenom c.denom = true ∧ 0 < c.amount) ∧ Ascending Coin.denom coins := by
  simp only [coinsValid, Bool.and_eq_true, List.all_eq_true, decide_eq_true_eq]
  rfl

private theorem amountOf_nonneg {coins : List Coin} (h : coinsValid coins = true) (denom : Text) :
    0 ≤ amountOf coins denom := by
  obtain ⟨hcoins, hascending⟩ := coinsValid_iff.mp h
  by_cases hin : ∃ c ∈ coins, c.denom = denom
  · obtain ⟨c, hc, rfl⟩ := hin
    rw [amountOf_of_mem hascending hc]
    exact (hcoins c hc).2.le
  · push Not at hin
    exact (amountOf_eq_zero hin).ge

section Rewards
variable {limit numPairs : Nat} {govPercent : Int} {coins out fees : List Coin} {denom : Text}

/-- The reward for an amount without a limit: the share, divided and truncated, to the nearest coin. -/
def reward (govPercent : Int) (numPairs : Nat) (amount : Int) : Int :=
  Decimal.chop ((govPercent * amount).tdiv numPairs)

theorem rewardAmount_eq {amount r : Int} (h : rewardAmount limit govPercent amount numPairs = some r) :
    r = reward govPercent numPairs amount := by
  simp only [rewardAmount, Option.bind_eq_bind, Option.bind_eq_some_iff, Decimal.mulInt, Decimal.roundInt,
    Decimal.inRange_eq_some, Decimal.quoInt] at h
  obtain ⟨_, ⟨-, rfl⟩, part, hpart, -, rfl⟩ := h
  split at hpart
  · cases hpart
  · cases hpart
    rfl

@[simp] theorem reward_zero : reward govPercent numPairs 0 = 0 := by
  simp [reward, Decimal.chop, Decimal.chopNat, Decimal.half]

theorem reward_nonneg {amount : Int} (hgov : 0 ≤ govPercent) (hamount : 0 ≤ amount) :
    0 ≤ reward govPercent numPairs amount := by
  have hpart : 0 ≤ (govPercent * amount).tdiv numPairs :=
    Int.tdiv_nonneg (Int.mul_nonneg hgov hamount) (Int.natCast_nonneg _)
  rw [reward, Decimal.chop, if_neg (not_lt.mpr hpart)]
  exact Int.natCast_nonneg _

/-- A share of at most one never rewards with more than the amount. -/
private theorem reward_le {amount : Int} (hgov : 0 ≤ govPercent) (hone : govPercent ≤ Decimal.one)
    (hamount : 0 ≤ amount) : reward govPercent numPairs amount ≤ amount := by
  have hprod : 0 ≤ govPercent * amount := Int.mul_nonneg hgov hamount
  have hpart : (govPercent * amount).tdiv numPairs ≤ amount * Decimal.one := by
    calc (govPercent * amount).tdiv numPairs ≤ govPercent * amount := Int.tdiv_le_self _ hprod
      _ ≤ Decimal.one * amount := Int.mul_le_mul_of_nonneg_right hone hamount
      _ = amount * Decimal.one := Int.mul_comm _ _
  have hhalf : (0 : Int) < Decimal.half := by decide
  rw [reward, Decimal.chop_le_iff (Int.tdiv_nonneg hprod (Int.natCast_nonneg _)) hamount]
  exact .inl (by omega)

/-- A reward is computed unless the share of the amount is beyond the limit. -/
private theorem rewardAmount_isSome_iff {amount : Int} (hpairs : 0 < numPairs) (hgov : 0 ≤ govPercent)
    (hone : govPercent ≤ Decimal.one) (hamount : 0 ≤ amount) (hword : amount ≤ Decimal.maxInt) :
    (rewardAmount limit govPercent amount numPairs).isSome = true ↔ govPercent * amount ≤ limit := by
  have hprod : 0 ≤ govPercent * amount := Int.mul_nonneg hgov hamount
  have hreward : (reward govPercent numPairs amount).natAbs ≤ Decimal.maxInt := by
    have hle : reward govPercent numPairs amount ≤ amount := reward_le hgov hone hamount
    have hnonneg : 0 ≤ reward govPercent numPairs amount := reward_nonneg hgov hamount
    omega
  have hround : Decimal.roundInt ((govPercent * amount).tdiv numPairs) = some (reward govPercent numPairs amount) :=
    if_pos hreward
  unfold rewardAmount Decimal.mulInt Decimal.inRange
  split
  · next hle =>
    simp [Decimal.quoInt, hpairs.ne', hround]
    omega
  · simp
    omega

private theorem addReward_amountOf {c : Coin} (h : addReward limit govPercent numPairs coins c = some out) :
    amountOf out denom = amountOf coins denom + amountOf [⟨c.denom, reward govPercent numPairs c.amount⟩] denom := by
  rw [addReward, Option.bind_eq_bind, Option.bind_eq_some_iff] at h
  obtain ⟨r, hr, h⟩ := h
  obtain rfl := rewardAmount_eq hr
  split at h
  · next hzero =>
    cases h
    simp [amountOf, hzero]
  · obtain ⟨coin, hcoin, hadd⟩ := Option.bind_eq_some_iff.mp h
    unfold newCoin at hcoin
    split at hcoin
    · cases hcoin
      exact addCoin_amountOf hadd
    · cases hcoin

private theorem addReward_all_amountOf (h : fees.foldlM (addReward limit govPercent numPairs) coins = some out) :
    amountOf out denom = amountOf coins denom +
      amountOf (fees.map (fun c => ⟨c.denom, reward govPercent numPairs c.amount⟩)) denom := by
  induction fees generalizing coins with
  | nil =>
    cases h
    simp [amountOf]
  | cons fee fees ih =>
    rw [List.foldlM_cons, Option.bind_eq_bind, Option.bind_eq_some_iff] at h
    obtain ⟨mid, hmid, hrest⟩ := h
    rw [ih hrest, addReward_amountOf hmid]
    simp only [List.map_cons, amountOf, add_zero]
    ring

/-- The reward of a coin that is not there yet is added unless it is beyond the limit. -/
private theorem addReward_isSome_iff {c : Coin} (hpairs : 0 < numPairs) (hgov : 0 ≤ govPercent)
    (hone : govPercent ≤ Decimal.one) (hamount : 0 ≤ c.amount) (hword : c.amount ≤ Decimal.maxInt)
    (hdenom : c.amount ≠ 0 → matchesDenom c.denom = true) (hcoins : Ascending Coin.denom coins)
    (hnew : amountOf coins c.denom = 0) :
    (addReward limit govPercent numPairs coins c).isSome = true ↔ govPercent * c.amount ≤ limit := by
  rw [← rewardAmount_isSome_iff hpairs hgov hone hamount hword, addReward]
  cases hr : rewardAmount limit govPercent c.amount numPairs with
  | none => simp
  | some r =>
    obtain rfl := rewardAmount_eq hr
    have hle : reward govPercent numPairs c.amount ≤ c.amount := reward_le hgov hone hamount
    have hnonneg : 0 ≤ reward govPercent numPairs c.amount := reward_nonneg hgov hamount
    simp only [Option.bind_eq_bind, Option.bind_some, Option.isSome_some, iff_true]
    split
    · rfl
    · next hpos =>
      rw [newCoin, if_pos ⟨hdenom (by omega), hnonneg⟩, Option.bind_some]
      have hfits : reward govPercent numPairs c.amount ≤ Decimal.maxInt := hle.trans hword
      refine (addCoin_isSome_iff (c := ⟨c.denom, reward govPercent numPairs c.amount⟩) hcoins hnew.ge hnonneg
        hfits).mpr ?_
      rwa [hnew, zero_add]

private theorem addReward_ascending {c : Coin} (hcoins : Ascending Coin.denom coins)
    (h : addReward limit govPercent numPairs coins c = some out) : Ascending Coin.denom out := by
  rw [addReward, Option.bind_eq_bind, Option.bind_eq_some_iff] at h
  obtain ⟨r, -, h⟩ := h
  split at h
  · cases h
    exact hcoins
  · obtain ⟨coin, -, hadd⟩ := Option.bind_eq_some_iff.mp h
    exact addCoin_ascending hcoins hadd

/-- One coin a denomination: its reward is that of the amount. -/
private theorem amountOf_rewards (hfees : Ascending Coin.denom fees) :
    amountOf (fees.map (fun c => ⟨c.denom, reward govPercent numPairs c.amount⟩)) denom =
      reward govPercent numPairs (amountOf fees denom) := by
  induction fees with
  | nil => simp [amountOf]
  | cons c cs ih =>
    obtain ⟨hc, hcs⟩ := List.pairwise_cons.mp hfees
    rw [List.map_cons, amountOf, amountOf, ih hcs]
    split
    · next heq =>
      have habsent : amountOf cs denom = 0 := by
        rw [← heq]
        exact amountOf_eq_zero (fun x hx => (ne_of_compare (by simp [hc x hx])).symm)
      rw [habsent]
      simp
    · simp

/-- What each withdrawer gets in a denomination. -/
theorem splitFees_amountOf {params : Params} {totalFees split : List Coin} (htotal : Ascending Coin.denom totalFees)
    (hshares : params.developerShares = some govPercent)
    (h : Keeper.splitFees limit params totalFees numPairs = some split) :
    amountOf split denom =
      reward govPercent numPairs (multiplicity params.allowedDenoms denom * amountOf totalFees denom) := by
  simp only [Keeper.splitFees, hshares, Option.bind_eq_bind, Option.bind_eq_some_iff, Option.some.injEq,
    exists_eq_left'] at h
  obtain ⟨fees, hfees, hsplit⟩ := h
  obtain ⟨hascending, hamount⟩ := allowedFees_spec denom htotal hfees
  rw [feePayLogic, sortBy_of_ascending hascending] at hsplit
  rw [addReward_all_amountOf hsplit, amountOf_rewards hascending, hamount]
  simp [amountOf]

/-- The products that the payout forms of a fee coin stay within the limits of integers and decimals. -/
def Fits (limit : Nat) (share : Int) (multiple : Nat) (fee : Int) : Prop :=
  multiple * fee ≤ (Decimal.maxInt : Int) ∧ share * (multiple * fee) ≤ limit

instance (limit : Nat) (share : Int) (multiple : Nat) (fee : Int) : Decidable (Fits limit share multiple fee) :=
  inferInstanceAs (Decidable (_ ∧ _))

/-- The fees are split unless a product is beyond its limit. -/
theorem splitFees_isSome_iff {params : Params} {totalFees : List Coin} (hpairs : 0 < numPairs) (hgov : 0 ≤ govPercent)
    (hone : govPercent ≤ Decimal.one) (hshares : params.developerShares = some govPercent)
    (hvalid : coinsValid totalFees = true) (hword : ∀ c ∈ totalFees, c.amount ≤ Decimal.maxInt) :
    (Keeper.splitFees limit params totalFees numPairs).isSome = true ↔
      ∀ c ∈ totalFees, Fits limit govPercent (multiplicity params.allowedDenoms c.denom) c.amount := by
  obtain ⟨hcoins, htotal⟩ := coinsValid_iff.mp hvalid
  have hallowed : (allowedFees params.allowedDenoms totalFees).isSome = true ↔ _ :=
    allowedFees_isSome_iff htotal (fun c hc => ⟨(hcoins c hc).2.le, hword c hc⟩)
  unfold Fits
  rw [forall₂_and, ← hallowed, Keeper.splitFees, hshares]
  cases hfees : allowedFees params.allowedDenoms totalFees with
  | none => simp
  | some fees =>
    rw [hfees] at hallowed
    simp only [Option.isSome_some, true_iff] at hallowed
    have hascending := (allowedFees_spec [] htotal hfees).1
    have hamount : ∀ denom, amountOf fees denom = multiplicity params.allowedDenoms denom * amountOf totalFees denom :=
      fun denom => (allowedFees_spec denom htotal hfees).2
    -- a coin of the allowed fees is nothing, or the multiple of a fee coin
    have hsource : ∀ x ∈ fees, x.amount = 0 ∨
        ∃ c ∈ totalFees, c.denom = x.denom ∧ x.amount = multiplicity params.allowedDenoms c.denom * c.amount := by
      intro x hx
      have hxAmount := hamount x.denom
      rw [amountOf_of_mem hascending hx] at hxAmount
      by_cases hin : ∃ c ∈ totalFees, c.denom = x.denom
      · obtain ⟨c, hc, hdenom⟩ := hin
        rw [← hdenom, amountOf_of_mem htotal hc] at hxAmount
        exact .inr ⟨c, hc, hdenom, hxAmount⟩
      · push Not at hin
        rw [amountOf_eq_zero hin, mul_zero] at hxAmount
        exact .inl hxAmount
    have hlimits : (∀ x ∈ fees, govPercent * x.amount ≤ limit) ↔
        ∀ c ∈ totalFees, govPercent * (multiplicity params.allowedDenoms c.denom * c.amount) ≤ limit := by
      constructor
      · intro h c hc
        rw [← amountOf_of_mem htotal hc, ← hamount]
        by_cases hin : ∃ x ∈ fees, x.denom = c.denom
        · obtain ⟨x, hx, hdenom⟩ := hin
          rw [← hdenom, amountOf_of_mem hascending hx]
          exact h x hx
        · push Not at hin
          rw [amountOf_eq_zero hin, mul_zero]
          exact Int.natCast_nonneg _
      · intro h x hx
        rcases hsource x hx with hzero | ⟨c, hc, -, heq⟩
        · rw [hzero, mul_zero]
          exact Int.natCast_nonneg _
        · rw [heq]
          exact h c hc
    simp only [Option.bind_eq_bind, Option.bind_some, Option.isSome_some, true_and, feePayLogic,
      sortBy_of_ascending hascending]
    rw [← hlimits]
    refine foldlM_isSome_iff hascending (fun hadded hadd => ?_) (fun x hx coins hadded hnew => ?_) List.Pairwise.nil
      (fun _ _ => rfl)
    · refine ⟨addReward_ascending hadded hadd, fun denom hne => ?_⟩
      rw [addReward_amountOf hadd]
      simp [amountOf, hne]
    · have hword : 0 ≤ x.amount ∧ x.amount ≤ Decimal.maxInt := by
        rcases hsource x hx with hzero | ⟨c, hc, -, heq⟩
        · simp [hzero]
        · rw [heq]
          exact ⟨Int.mul_nonneg (Int.natCast_nonneg _) (hcoins c hc).2.le, hallowed c hc⟩
      refine addReward_isSome_iff hpairs hgov hone hword.1 hword.2 (fun hne => ?_) hadded hnew
      obtain ⟨c, hc, hdenom, -⟩ := (hsource x hx).resolve_left hne
      rw [← hdenom]
      exact (hcoins c hc).1

/-- The payments for a fee coin stay within it: what one withdrawer is due, in units of 10^-18, is less than half a coin
above the whole part of an equal part of the coin, or just there with an even whole part. -/
def RoundsWithin (share : Int) (numPairs multiple : Nat) (fee : Int) : Prop :=
  share * (multiple * fee) / numPairs < fee / numPairs * Decimal.one + Decimal.half ∨
    share * (multiple * fee) / numPairs = fee / numPairs * Decimal.one + Decimal.half ∧ fee / numPairs % 2 = 0

instance (share : Int) (numPairs multiple : Nat) (fee : Int) : Decidable (RoundsWithin share numPairs multiple fee) :=
  inferInstanceAs (Decidable (_ ∨ _))

theorem mul_reward_le_iff {multiple : Nat} {fee : Int} (hpairs : 0 < numPairs) (hgov : 0 ≤ govPercent)
    (hfee : 0 ≤ fee) :
    numPairs * reward govPercent numPairs (multiple * fee) ≤ fee ↔ RoundsWithin govPercent numPairs multiple fee := by
  have hpos : (0 : Int) < numPairs := by exact_mod_cast hpairs
  have hdue : 0 ≤ govPercent * (multiple * fee) := Int.mul_nonneg hgov (Int.mul_nonneg (Int.natCast_nonneg _) hfee)
  rw [Int.mul_comm, ← Int.le_ediv_iff_mul_le hpos, reward, Int.tdiv_eq_ediv_of_nonneg hdue]
  exact Decimal.chop_le_iff (Int.ediv_nonneg hdue hpos.le) (Int.ediv_nonneg hfee hpos.le)

end Rewards

/-- A bank that accepts everything. -/
def acceptAll : BankAnswer := fun _ _ => .ok ()

/-- The payments are some of the first ones, and all of them if the bank accepts everything. -/
private theorem payEach_paidIn (denom : Text) (bank : BankAnswer) (split : List Coin) (paid : List Payment)
    (toPay : List Bytes) : ∃ j ≤ toPay.length, (bank = acceptAll → j = toPay.length) ∧
      paidIn (payEach bank split paid toPay).1 denom = paidIn paid denom + j * amountOf split denom := by
  induction toPay generalizing paid with
  | nil => exact ⟨0, le_rfl, fun _ => rfl, by simp [payEach]⟩
  | cons w rest ih =>
    rw [payEach]
    split
    · next e he =>
      refine ⟨0, Nat.zero_le _, ?_, by simp⟩
      rintro rfl
      cases he
    · obtain ⟨j, hj, hall, heq⟩ := ih (paid ++ [⟨w, split⟩])
      refine ⟨j + 1, Nat.succ_le_succ hj, fun hbank => congrArg (· + 1) (hall hbank), ?_⟩
      rw [heq]
      simp only [paidIn, List.map_append, List.map_cons, List.map_nil, List.sum_append, List.sum_cons, List.sum_nil]
      push_cast
      ring

namespace Keeper
variable (k : Keeper)

/-- The message executes no contract, or one whose address parses. -/
def parses : TxMsg → Bool
  | .other => true
  | .executeContract contract => (k.addrs.accAddressFromBech32 contract).isOk

/-- The message executes a contract that is registered with a withdrawer. -/
def pays (s : State) : TxMsg → Bool
  | .other => false
  | .executeContract contract =>
    k.addrs.getWithdrawerAddr ((getFeeShare s (k.addrs.parseOrNil contract)).getD ⟨[], [], []⟩) ≠ []

/-- The payments are as many as the messages that pay, if every address parses. -/
theorem toPay_spec (s : State) (msgs : List TxMsg) :
    match k.toPay s msgs with
    | .error _ => ∃ m ∈ msgs, k.parses m = false
    | .ok toPay => (∀ m ∈ msgs, k.parses m = true) ∧ toPay.length = msgs.countP (k.pays s) := by
  induction msgs with
  | nil => simp [toPay]
  | cons m msgs ih =>
    cases m with
    | other =>
      rw [toPay]
      cases hrest : k.toPay s msgs <;> simp_all [parses, pays]
    | executeContract contract =>
      rw [toPay]
      cases hparse : k.addrs.accAddressFromBech32 contract with
      | error e => exact ⟨_, List.mem_cons_self, by rw [parses, hparse]; rfl⟩
      | ok contractAddr =>
        cases hrest : k.toPay s msgs with
        | error e =>
          rw [hrest] at ih
          obtain ⟨m, hm, hbad⟩ := ih
          exact ⟨m, List.mem_cons_of_mem _ hm, hbad⟩
        | ok rest =>
          rw [hrest] at ih
          obtain ⟨hparses, hlength⟩ := ih
          refine ⟨List.forall_mem_cons.mpr ⟨by rw [parses, hparse]; rfl, hparses⟩, ?_⟩
          rw [List.countP_cons, ← hlength, pays, Addresses.parseOrNil_of_parse hparse]
          split <;> simp_all

/-- What is paid in all in a denomination: nothing, or the reward of each withdrawer up to the first refusal. -/
private theorem feeSharePayout_paidIn (limit : Nat) {s : State} {totalFees : List Coin} (msgs : List TxMsg)
    {share : Int} (hshare : s.params.developerShares = some share) (hnonneg : 0 ≤ share) (hone : share ≤ Decimal.one)
    (hfee : coinsValid totalFees = true) (hword : ∀ c ∈ totalFees, c.amount ≤ Decimal.maxInt) (bank : BankAnswer)
    (denom : Text) : ∃ j ≤ msgs.countP (k.pays s), (bank = acceptAll → j = msgs.countP (k.pays s)) ∧
      paidIn (k.feeSharePayout limit s bank totalFees msgs).1 denom =
        if s.params.enableFeeShare = true ∧ (∀ m ∈ msgs, k.parses m = true) ∧
          ∀ c ∈ totalFees, Fits limit share (multiplicity s.params.allowedDenoms c.denom) c.amount then
          j * reward share (msgs.countP (k.pays s))
            (multiplicity s.params.allowedDenoms denom * amountOf totalFees denom)
        else 0 := by
  have hspec := k.toPay_spec s msgs
  unfold feeSharePayout
  split
  · next hoff => exact ⟨_, le_rfl, fun _ => rfl, by simp [paidIn, hoff]⟩
  next hon =>
  split
  · next e he =>
    rw [he] at hspec
    obtain ⟨m, hm, hbad⟩ := hspec
    refine ⟨_, le_rfl, fun _ => rfl, ?_⟩
    rw [if_neg (fun h => Bool.false_ne_true (hbad.symm.trans (h.2.1 m hm)))]
    rfl
  next toPay htoPay =>
  rw [htoPay] at hspec
  obtain ⟨hparses, hlength⟩ := hspec
  rw [← hlength]
  split
  · next hempty => exact ⟨_, le_rfl, fun _ => rfl, by simp [hempty, paidIn]⟩
  next hsome =>
  have hpairs : 0 < toPay.length := List.length_pos_iff.mpr hsome
  have hfits : (splitFees limit s.params totalFees toPay.length).isSome = true ↔ _ :=
    splitFees_isSome_iff hpairs hnonneg hone hshare hfee hword
  split
  · next hsplit =>
    rw [hsplit] at hfits
    simp only [Option.isSome_none, Bool.false_eq_true, false_iff] at hfits
    refine ⟨_, le_rfl, fun _ => rfl, ?_⟩
    rw [if_neg (fun h => hfits h.2.2)]
    rfl
  · next split hsplit =>
    rw [hsplit] at hfits
    obtain ⟨j, hj, hall, hpaid⟩ := payEach_paidIn denom bank split [] toPay
    refine ⟨j, hj, hall, ?_⟩
    rw [if_pos ⟨Bool.eq_true_of_not_eq_false hon, hparses, hfits.mp rfl⟩, hpaid,
      splitFees_amountOf (coinsValid_iff.mp hfee).2 hshare hsplit]
    simp [paidIn]

/-- The payments stay within the fee, whatever the bank answers, exactly when the rounding does for each coin of the
fee. A payout that is switched off, or that meets an address that does not parse or a product beyond its limit, pays
nothing. -/
theorem payout_within_fee_iff (limit : Nat) (s : State) (share : Int) (totalFees : List Coin) (msgs : List TxMsg)
    (hparams : s.params.validate = .ok ()) (hshare : s.params.developerShares = some share)
    (hfee : coinsValid totalFees = true) (hword : ∀ c ∈ totalFees, c.amount ≤ Decimal.maxInt) :
    (∀ bank denom, paidIn (k.feeSharePayout limit s bank totalFees msgs).1 denom ≤ amountOf totalFees denom) ↔
      (s.params.enableFeeShare = true → (∀ m ∈ msgs, k.parses m = true) →
        (∀ c ∈ totalFees, Fits limit share (multiplicity s.params.allowedDenoms c.denom) c.amount) →
          ∀ c ∈ totalFees, RoundsWithin share (msgs.countP (k.pays s)) (multiplicity s.params.allowedDenoms c.denom)
            c.amount) := by
  obtain ⟨share', hshare', hnonneg, hone⟩ := Params.validate_ok hparams
  obtain rfl : share = share' := Option.some.inj (hshare.symm.trans hshare')
  obtain ⟨hcoins, hascending⟩ := coinsValid_iff.mp hfee
  have hpaid := k.feeSharePayout_paidIn limit msgs hshare hnonneg hone hfee hword
  constructor
  · intro hwithin henabled hparses hfits c hc
    rcases Nat.eq_zero_or_pos (msgs.countP (k.pays s)) with hnone | hpairs
    · left
      simp [hnone, Decimal.half]
    · obtain ⟨j, -, hall, hj⟩ := hpaid acceptAll c.denom
      have hle := hwithin acceptAll c.denom
      rw [hj, if_pos ⟨henabled, hparses, hfits⟩, hall rfl, amountOf_of_mem hascending hc] at hle
      rwa [← mul_reward_le_iff hpairs hnonneg (hcoins c hc).2.le]
  · intro hrounds bank denom
    obtain ⟨j, hle, -, hj⟩ := hpaid bank denom
    rw [hj]
    split
    · next hcond =>
      by_cases hin : ∃ c ∈ totalFees, c.denom = denom
      · obtain ⟨c, hc, rfl⟩ := hin
        rw [amountOf_of_mem hascending hc]
        have hfeeNonneg : 0 ≤ c.amount := (hcoins c hc).2.le
        rcases Nat.eq_zero_or_pos (msgs.countP (k.pays s)) with hnone | hpairs
        · obtain rfl : j = 0 := by omega
          simpa using hfeeNonneg
        · have hwithin := (mul_reward_le_iff hpairs hnonneg hfeeNonneg).mpr (hrounds hcond.1 hcond.2.1 hcond.2.2 c hc)
          have hdue : 0 ≤ reward share (msgs.countP (k.pays s))
              (multiplicity s.params.allowedDenoms c.denom * c.amount) :=
            reward_nonneg hnonneg (Int.mul_nonneg (Int.natCast_nonneg _) hfeeNonneg)
          exact (Int.mul_le_mul_of_nonneg_right (by exact_mod_cast hle) hdue).trans hwithin
      · push Not at hin
        rw [amountOf_eq_zero hin, mul_zero, reward_zero, mul_zero]
    · exact amountOf_nonneg hfee denom

/-- A chain on which one contract is registered with itself, with a share of one. -/
def oneContract (allowedDenoms : List Text) : State :=
  ⟨⟨true, some (10 ^ 18), allowedDenoms⟩,
    (∅ : Table FeeShare).insert contractA ⟨terpText contractA, terpText contractA, terpText contractA⟩, ∅, ∅⟩

def oneContractFee : List Coin := [⟨text "uterp", 3⟩]

/-- One execution pays at most the fee. -/
theorem payout_within_fee_once :
    (oneContract []).params.validate = .ok () ∧ coinsValid oneContractFee = true ∧
    ∀ bank denom, paidIn (sampleKeeper.feeSharePayout (2 ^ 315) (oneContract []) bank oneContractFee
      [.executeContract (terpText contractA)]).1 denom ≤ amountOf oneContractFee denom := by
  have hparams : (oneContract []).params.validate = .ok () := by decide +kernel
  have hfee : coinsValid oneContractFee = true := by decide +kernel
  exact ⟨hparams, hfee, (sampleKeeper.payout_within_fee_iff (2 ^ 315) (oneContract []) (10 ^ 18) oneContractFee
    [.executeContract (terpText contractA)] hparams rfl hfee (by decide +kernel)).mpr
    (fun _ _ _ => by decide +kernel)⟩

/-- Two executions share a fee of three coins at two each, and a denomination allowed twice pays one out twice. -/
theorem payout_exceeds_fee :
    (oneContract []).params.validate = .ok () ∧
      (oneContract [text "uterp", text "uterp"]).params.validate = .ok () ∧ coinsValid oneContractFee = true ∧
      paidIn (sampleKeeper.feeSharePayout (2 ^ 315) (oneContract []) acceptAll oneContractFee
        [.executeContract (terpText contractA), .executeContract (terpText contractA)]).1 (text "uterp") = 4 ∧
      paidIn (sampleKeeper.feeSharePayout (2 ^ 315) (oneContract [text "uterp", text "uterp"]) acceptAll oneContractFee
        [.executeContract (terpText contractA)]).1 (text "uterp") = 6 ∧
      amountOf oneContractFee (text "uterp") = 3 := by
  decide +kernel

end Keeper
end Terpz.Feeshare
