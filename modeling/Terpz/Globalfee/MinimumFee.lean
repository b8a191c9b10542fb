import Terpz.Globalfee.Fee

/-! The minimum-fee rule: what the decorator lets pass, as one formula over the prices, the gas and the fee. -/
namespace Terpz.Globalfee
open Lib
open Tokenfactory (Coin matchesDenom coinsValid)

/-- Prices in ascending order of valid denominations, none of them negative. -/
structure ValidPrices (ps : List DecCoin) : Prop where
  ascending : Ascending DecCoin.denom ps
  denoms : ∀ p ∈ ps, matchesDenom p.denom = true
  nonneg : ∀ p ∈ ps, 0 ≤ p.amount

/-- What the loop of `Validate` has checked from a coin on, the order against the denomination before it included. -/
theorem validateFrom_ok {i : Nat} {lowDenom : Text} {seenDenoms : List Text} {coins : List DecCoin}
    (h : validateFrom i lowDenom seenDenoms coins = .ok ()) :
    ValidPrices coins ∧ (i ≠ 0 → ∀ c ∈ coins, compare lowDenom c.denom = .lt) := by
  induction coins generalizing i lowDenom seenDenoms with
  | nil => exact ⟨⟨List.Pairwise.nil, nofun, nofun⟩, fun _ => nofun⟩
  | cons coin coins ih =>
    simp only [validateFrom, failIf_bind_eq_ok] at h
    obtain ⟨-, hdenom, horder, hamount, hrest⟩ := h
    obtain ⟨hvalid, hafter⟩ := ih hrest
    have hafter := hafter (Nat.succ_ne_zero i)
    refine ⟨⟨List.pairwise_cons.mpr ⟨hafter, hvalid.ascending⟩, ?_, ?_⟩, ?_⟩
    · exact List.forall_mem_cons.mpr ⟨Bool.eq_true_of_not_eq_false hdenom, hvalid.denoms⟩
    · exact List.forall_mem_cons.mpr ⟨not_lt.mp hamount, hvalid.nonneg⟩
    · intro hi
      have hlow : compare lowDenom coin.denom = .lt := by
        rw [← Std.OrientedCmp.gt_iff_lt]
        by_contra hne
        exact horder ⟨hi, by cases hc : compare coin.denom lowDenom <;> simp_all⟩
      exact List.forall_mem_cons.mpr ⟨hlow, fun c hc => Std.TransCmp.lt_trans hlow (hafter c hc)⟩

/-- The fee for a price, `ceil(price * gas)`. -/
def ceilFee (price : Int) (gas : Nat) : Int := ⌈((price * gas : Int) : ℚ) / Decimal.one⌉

theorem ceilFee_nonneg {price : Int} (h : 0 ≤ price) (gas : Nat) : 0 ≤ ceilFee price gas := by
  apply Int.ceil_nonneg
  have hproduct : (0 : ℚ) ≤ ((price * gas : Int) : ℚ) := by exact_mod_cast Int.mul_nonneg h (Int.natCast_nonneg gas)
  positivity

@[simp] theorem ceilFee_zero (gas : Nat) : ceilFee 0 gas = 0 := by
  simp [ceilFee]

/-- The product with the gas is a decimal, and rounded up an integer of 256 bits. -/
def NoOverflow (limit gas : Nat) (price : Int) : Prop :=
  (price * gas).natAbs ≤ limit ∧ (ceilFee price gas).natAbs ≤ Decimal.maxInt

section Required
variable {limit gas : Nat} {ps : List DecCoin}

def feeCoin (gas : Nat) (p : DecCoin) : Coin := ⟨p.denom, ceilFee p.amount gas⟩

private theorem requiredFee_eq {p : DecCoin} (hdenom : matchesDenom p.denom = true) (hnonneg : 0 ≤ p.amount)
    (hov : NoOverflow limit gas p.amount) : requiredFee limit (gas * Decimal.one) p = .ok (feeCoin gas p) := by
  have hmul : Decimal.mul limit p.amount (gas * Decimal.one) = some (p.amount * gas) := by
    rw [Decimal.mul_whole, Decimal.inRange_eq_some]
    exact ⟨hov.1, rfl⟩
  have hround : Decimal.roundInt (Decimal.ceil (p.amount * gas)) = some (ceilFee p.amount gas) := by
    rw [Decimal.roundInt_ceil, Decimal.inRange_eq_some]
    exact ⟨hov.2, rfl⟩
  have hamount := not_lt.mpr (ceilFee_nonneg hnonneg gas)
  rw [requiredFee, hmul]
  change (orPanic _ (Decimal.roundInt (Decimal.ceil (p.amount * gas))) >>= newCoin p.denom) = _
  rw [hround]
  change newCoin p.denom (ceilFee p.amount gas) = _
  simp [newCoin, failIf_bind, hdenom, hamount, feeCoin]

theorem requiredFees_eq (hps : ValidPrices ps) (hov : ∀ p ∈ ps, NoOverflow limit gas p.amount) :
    requiredFees limit (gas * Decimal.one) ps = .ok (ps.map (feeCoin gas)) := by
  induction ps with
  | nil => rfl
  | cons p ps ih =>
    have htail : ValidPrices ps := ⟨(List.pairwise_cons.mp hps.ascending).2,
      (List.forall_mem_cons.mp hps.denoms).2, (List.forall_mem_cons.mp hps.nonneg).2⟩
    obtain ⟨hp, hrest⟩ := List.forall_mem_cons.mp hov
    rw [requiredFees, requiredFee_eq (hps.denoms p List.mem_cons_self) (hps.nonneg p List.mem_cons_self) hp,
      ih htail hrest]
    rfl

theorem ValidPrices.feeCoins_ascending (hps : ValidPrices ps) : Ascending Coin.denom (ps.map (feeCoin gas)) :=
  List.pairwise_map.mpr hps.ascending

end Required

/-- The price of a denomination, zero where it has none. -/
def priceOf (ps : List DecCoin) (denom : Text) : Int :=
  ((ps.find? (fun p => p.denom = denom)).map DecCoin.amount).getD 0

theorem ValidPrices.priceOf_eq {ps : List DecCoin} (hps : ValidPrices ps) {p : DecCoin} (hp : p ∈ ps) :
    priceOf ps p.denom = p.amount := by
  unfold priceOf
  cases hfind : ps.find? (fun q => q.denom = p.denom) with
  | none => simpa using List.find?_eq_none.mp hfind p hp
  | some q =>
    have hdenom : q.denom = p.denom := by simpa using List.find?_some hfind
    rw [hps.ascending.eq_of_key (List.mem_of_find?_eq_some hfind) hp hdenom]
    rfl

theorem priceOf_eq_zero {ps : List DecCoin} {denom : Text} (h : ∀ p ∈ ps, p.denom ≠ denom) : priceOf ps denom = 0 := by
  unfold priceOf
  rw [List.find?_eq_none.mpr (by simpa using h)]
  rfl

/-- The larger of the fees for the global and the local price. -/
def requirement (globalPrices localPrices : List DecCoin) (gas : Nat) (denom : Text) : Int :=
  max (ceilFee (priceOf globalPrices denom) gas) (ceilFee (priceOf localPrices denom) gas)

/-- One coin a global price, with the requirement of its denomination. -/
def requirements (globalPrices localPrices : List DecCoin) (gas : Nat) : List Coin :=
  globalPrices.map (fun p => ⟨p.denom, requirement globalPrices localPrices gas p.denom⟩)

section Combined
variable {globalPrices localPrices : List DecCoin} {gas : Nat}

theorem requirements_ascending (hglobal : ValidPrices globalPrices) :
    Ascending Coin.denom (requirements globalPrices localPrices gas) := List.pairwise_map.mpr hglobal.ascending

theorem exists_requirement {Q : Int → Prop} {denom : Text} :
    (∃ r ∈ requirements globalPrices localPrices gas, r.denom = denom ∧ Q r.amount) ↔
      (∃ p ∈ globalPrices, p.denom = denom) ∧ Q (requirement globalPrices localPrices gas denom) := by
  constructor
  · rintro ⟨r, hr, rfl, hQ⟩
    obtain ⟨p, hp, rfl⟩ := List.mem_map.mp hr
    exact ⟨⟨p, hp, rfl⟩, hQ⟩
  · rintro ⟨⟨p, hp, rfl⟩, hQ⟩
    exact ⟨_, List.mem_map_of_mem hp, rfl, hQ⟩

/-- Without a local fee the global one is the requirement. -/
private theorem requirement_of_no_local (hglobal : ValidPrices globalPrices) {p : DecCoin} (hp : p ∈ globalPrices)
    (hzero : priceOf localPrices p.denom = 0) :
    requirement globalPrices localPrices gas p.denom = ceilFee p.amount gas := by
  rw [requirement, hzero, ceilFee_zero, hglobal.priceOf_eq hp]
  exact max_eq_left (ceilFee_nonneg (hglobal.nonneg p hp) gas)

private theorem priceOf_all_zero (hzero : ∀ p ∈ localPrices, p.amount = 0) (denom : Text) :
    priceOf localPrices denom = 0 := by
  unfold priceOf
  cases hfind : localPrices.find? (fun p => p.denom = denom) with
  | none => rfl
  | some q => exact hzero q (List.mem_of_find?_eq_some hfind)

theorem combined_of_zero (hglobal : ValidPrices globalPrices) (hzero : ∀ p ∈ localPrices, p.amount = 0) :
    combinedFeeRequirement (globalPrices.map (feeCoin gas)) [] = requirements globalPrices localPrices gas := by
  rw [combinedFeeRequirement, if_pos rfl, requirements]
  refine List.map_congr_left (fun p hp => ?_)
  rw [requirement_of_no_local hglobal hp (priceOf_all_zero hzero _)]
  rfl

private theorem higherFee_eq (hglobal : ValidPrices globalPrices) (hlocal : ValidPrices localPrices) {p : DecCoin}
    (hp : p ∈ globalPrices) :
    higherFee (localPrices.map (feeCoin gas)) (feeCoin gas p) =
      ⟨p.denom, requirement globalPrices localPrices gas p.denom⟩ := by
  unfold higherFee
  cases hfind : find (localPrices.map (feeCoin gas)) (feeCoin gas p).denom with
  | none =>
    have hnone := (search_eq_none hlocal.feeCoins_ascending).mp hfind
    rw [requirement_of_no_local hglobal hp (priceOf_eq_zero (fun q hq => hnone _ (List.mem_map_of_mem hq)))]
    rfl
  | some c =>
    obtain ⟨hc, hdenom⟩ := (search_eq_some hlocal.feeCoins_ascending).mp hfind
    obtain ⟨q, hq, rfl⟩ := List.mem_map.mp hc
    have hdenom : q.denom = p.denom := hdenom
    have hprice : priceOf localPrices p.denom = q.amount := by rw [← hdenom, hlocal.priceOf_eq hq]
    rw [requirement, hglobal.priceOf_eq hp, hprice]
    by_cases hlt : ceilFee p.amount gas < ceilFee q.amount gas
    · rw [max_eq_right hlt.le, ← hdenom]
      exact if_pos hlt
    · rw [max_eq_left (not_lt.mp hlt)]
      exact if_neg hlt

theorem combined_of_local (hglobal : ValidPrices globalPrices) (hlocal : ValidPrices localPrices)
    (hne : localPrices ≠ []) :
    combinedFeeRequirement (globalPrices.map (feeCoin gas)) (localPrices.map (feeCoin gas)) =
      requirements globalPrices localPrices gas := by
  rw [combinedFeeRequirement, if_neg (by simpa using hne)]
  by_cases hempty : globalPrices = []
  · subst hempty
    rfl
  · have hmap : (globalPrices.map (feeCoin gas)).map (higherFee (localPrices.map (feeCoin gas))) =
        requirements globalPrices localPrices gas := by
      rw [List.map_map]
      exact List.map_congr_left (fun p hp => higherFee_eq hglobal hlocal hp)
    rw [if_neg (by simpa using hempty), hmap, sortBy_of_ascending (requirements_ascending hglobal)]

end Combined

section Decision
variable {fee reqs : List Coin}

private theorem amountOf_eq {coins : List Coin} {denom : Text} (hdenom : matchesDenom denom = true) :
    amountOf coins denom = .ok (((find coins denom).map Coin.amount).getD 0) := by
  simp [amountOf, failIf_bind, hdenom]

/-- The amount that was found is zero exactly when the denomination is missing. -/
private theorem found_eq_zero (hreqs : Ascending Coin.denom reqs) (hnonzero : ∀ r ∈ reqs, r.amount ≠ 0) {denom : Text} :
    ((find reqs denom).map Coin.amount).getD 0 = 0 ↔ ∀ r ∈ reqs, r.denom ≠ denom := by
  rw [← search_eq_none hreqs, find]
  cases hfind : search Coin.denom denom reqs with
  | none => simp
  | some r => simpa using hnonzero r ((search_eq_some hreqs).mp hfind).1

private theorem found_eq {r : Coin} (hreqs : Ascending Coin.denom reqs) (hr : r ∈ reqs) :
    ((find reqs r.denom).map Coin.amount).getD 0 = r.amount := by
  rw [find, (search_eq_some hreqs).mpr ⟨hr, rfl⟩]
  rfl

private theorem denomsFound_eq (hdenoms : ∀ c ∈ fee, matchesDenom c.denom = true) (hreqs : Ascending Coin.denom reqs)
    (hnonzero : ∀ r ∈ reqs, r.amount ≠ 0) :
    denomsFound reqs fee = .ok (decide (∀ c ∈ fee, ∃ r ∈ reqs, r.denom = c.denom)) := by
  induction fee with
  | nil => simp [denomsFound]
  | cons c fee ih =>
    obtain ⟨hc, hrest⟩ := List.forall_mem_cons.mp hdenoms
    rw [denomsFound, amountOf_eq hc]
    change (if _ = (0 : Int) then _ else _) = _
    by_cases hmissing : ∀ r ∈ reqs, r.denom ≠ c.denom
    · rw [if_pos ((found_eq_zero hreqs hnonzero).mpr hmissing)]
      simp_all
    · rw [if_neg (fun h => hmissing ((found_eq_zero hreqs hnonzero).mp h)), ih hrest]
      push Not at hmissing
      simp_all

/-- Coins with more denominations than there are do not all occur. -/
theorem denomsSubsetOf_eq (hfee : Ascending Coin.denom fee) (hdenoms : ∀ c ∈ fee, matchesDenom c.denom = true)
    (hreqs : Ascending Coin.denom reqs) (hnonzero : ∀ r ∈ reqs, r.amount ≠ 0) :
    denomsSubsetOf fee reqs = .ok (decide (∀ c ∈ fee, ∃ r ∈ reqs, r.denom = c.denom)) := by
  unfold denomsSubsetOf
  split
  · next hlong =>
    have hmissing : ¬ ∀ c ∈ fee, ∃ r ∈ reqs, r.denom = c.denom := by
      intro hall
      have hsub : fee.map Coin.denom ⊆ reqs.map Coin.denom := by
        intro denom hmem
        obtain ⟨c, hc, rfl⟩ := List.mem_map.mp hmem
        obtain ⟨r, hr, hdenom⟩ := hall c hc
        exact hdenom ▸ List.mem_map_of_mem hr
      have hle := (List.subperm_of_subset hfee.nodup_keys hsub).length_le
      simp only [List.length_map] at hle
      omega
    simp [hmissing]
  · exact denomsFound_eq hdenoms hreqs hnonzero

private theorem anyGTE_eq (hdenoms : ∀ c ∈ fee, matchesDenom c.denom = true) (hreqs : Ascending Coin.denom reqs)
    (hnonzero : ∀ r ∈ reqs, r.amount ≠ 0) :
    anyGTE reqs fee = .ok (decide (∃ c ∈ fee, ∃ r ∈ reqs, r.denom = c.denom ∧ r.amount ≤ c.amount)) := by
  induction fee with
  | nil => simp [anyGTE]
  | cons c fee ih =>
    obtain ⟨hc, hrest⟩ := List.forall_mem_cons.mp hdenoms
    rw [anyGTE, amountOf_eq hc]
    change (if (_ : Int) ≤ c.amount ∧ (_ : Int) ≠ 0 then _ else _) = _
    have hone : (((find reqs c.denom).map Coin.amount).getD 0 ≤ c.amount ∧
        ((find reqs c.denom).map Coin.amount).getD 0 ≠ 0) ↔ ∃ r ∈ reqs, r.denom = c.denom ∧ r.amount ≤ c.amount := by
      rw [Ne, found_eq_zero hreqs hnonzero]
      constructor
      · rintro ⟨hle, hfound⟩
        push Not at hfound
        obtain ⟨r, hr, hdenom⟩ := hfound
        rw [← hdenom, found_eq hreqs hr] at hle
        exact ⟨r, hr, hdenom, hle⟩
      · rintro ⟨r, hr, hdenom, hle⟩
        rw [← hdenom, found_eq hreqs hr]
        exact ⟨hle, fun h => h r hr rfl⟩
    rw [if_congr hone rfl rfl, ih hrest]
    split
    · next h => simp [h]
    · next h => simp [h]

theorem isAnyGTE_eq (hdenoms : ∀ c ∈ fee, matchesDenom c.denom = true) (hreqs : Ascending Coin.denom reqs)
    (hnonzero : ∀ r ∈ reqs, r.amount ≠ 0) :
    isAnyGTE fee reqs = .ok (decide (∃ c ∈ fee, ∃ r ∈ reqs, r.denom = c.denom ∧ r.amount ≤ c.amount)) := by
  unfold isAnyGTE
  split
  · next hempty => simp [hempty]
  · exact anyGTE_eq hdenoms hreqs hnonzero

end Decision

/-- Fee coins in ascending order of valid denominations. -/
private theorem coinsValid_ok {coins : List Coin} (h : coinsValid coins = true) :
    Ascending Coin.denom coins ∧ ∀ c ∈ coins, matchesDenom c.denom = true := by
  simp only [coinsValid, Bool.and_eq_true, List.all_eq_true, decide_eq_true_eq] at h
  exact ⟨h.2, fun c hc => (h.1 c hc).1⟩

namespace FeeDecorator
variable {mfd : FeeDecorator} {feeTx : FeeTx} {fee reqs : List Coin}

/-- All messages are of bypass types and the gas is within the bypass limit. -/
def Bypass (mfd : FeeDecorator) (feeTx : FeeTx) : Prop :=
  (∀ msg ∈ feeTx.msgs, msg ∈ mfd.bypassMinFeeMsgTypes) ∧ feeTx.gas ≤ mfd.maxTotalBypassMinFeeMsgGasUsage

section Split

/-- The denominations whose requirement is zero. -/
private def zeroDenoms (reqs : List Coin) : List Text := (reqs.filter (fun r => r.amount = 0)).map Coin.denom

private theorem mem_zeroDenoms {denom : Text} :
    denom ∈ zeroDenoms reqs ↔ ∃ r ∈ reqs, r.denom = denom ∧ r.amount = 0 := by
  simp only [zeroDenoms, List.mem_map, List.mem_filter, decide_eq_true_eq]
  constructor
  · rintro ⟨r, ⟨hr, hzero⟩, hdenom⟩
    exact ⟨r, hr, hdenom, hzero⟩
  · rintro ⟨r, hr, hdenom, hzero⟩
    exact ⟨r, ⟨hr, hzero⟩, hdenom⟩

private theorem zeroDenoms_ne_nil : zeroDenoms reqs ≠ [] ↔ ∃ r ∈ reqs, r.amount = 0 := by
  simp [zeroDenoms, List.filter_eq_nil_iff]

private theorem mem_nonZero {r : Coin} : r ∈ reqs.filter (fun r => r.amount ≠ 0) ↔ r ∈ reqs ∧ r.amount ≠ 0 := by
  simp

private theorem mem_outside {c : Coin} :
    c ∈ fee.filter (fun fc => fc.denom ∉ zeroDenoms reqs) ↔ c ∈ fee ∧ c.denom ∉ zeroDenoms reqs := by
  simp

/-- The coins outside the zero denominations have theirs among the others exactly when all coins have theirs. -/
private theorem subset_iff :
    (∀ c ∈ fee.filter (fun fc => fc.denom ∉ zeroDenoms reqs),
      ∃ r ∈ reqs.filter (fun r => r.amount ≠ 0), r.denom = c.denom) ↔ ∀ c ∈ fee, ∃ r ∈ reqs, r.denom = c.denom := by
  constructor
  · intro h c hc
    by_cases hzero : c.denom ∈ zeroDenoms reqs
    · obtain ⟨r, hr, hdenom, -⟩ := mem_zeroDenoms.mp hzero
      exact ⟨r, hr, hdenom⟩
    · obtain ⟨r, hr, hdenom⟩ := h c (mem_outside.mpr ⟨hc, hzero⟩)
      exact ⟨r, (mem_nonZero.mp hr).1, hdenom⟩
  · intro h c hc
    obtain ⟨hc, hzero⟩ := mem_outside.mp hc
    obtain ⟨r, hr, hdenom⟩ := h c hc
    exact ⟨r, mem_nonZero.mpr ⟨hr, fun h0 => hzero (mem_zeroDenoms.mpr ⟨r, hr, hdenom, h0⟩)⟩, hdenom⟩

private theorem inside_eq_nil : fee.filter (fun fc => fc.denom ∈ zeroDenoms reqs) = [] ↔
    ¬ ∃ c ∈ fee, ∃ r ∈ reqs, r.denom = c.denom ∧ r.amount = 0 := by
  simp only [List.filter_eq_nil_iff, decide_eq_true_eq, mem_zeroDenoms, not_exists, not_and]

/-- Where no coin is of a zero denomination, all of them are compared. -/
private theorem any_iff (hnone : ¬ ∃ c ∈ fee, ∃ r ∈ reqs, r.denom = c.denom ∧ r.amount = 0) :
    (∃ c ∈ fee.filter (fun fc => fc.denom ∉ zeroDenoms reqs),
      ∃ r ∈ reqs.filter (fun r => r.amount ≠ 0), r.denom = c.denom ∧ r.amount ≤ c.amount) ↔
      ∃ c ∈ fee, ∃ r ∈ reqs, r.denom = c.denom ∧ r.amount ≤ c.amount := by
  constructor
  · rintro ⟨c, hc, r, hr, hdenom, hle⟩
    exact ⟨c, (mem_outside.mp hc).1, r, (mem_nonZero.mp hr).1, hdenom, hle⟩
  · rintro ⟨c, hc, r, hr, hdenom, hle⟩
    refine ⟨c, mem_outside.mpr ⟨hc, fun hzero => hnone ⟨c, hc, mem_zeroDenoms.mp hzero⟩⟩, r,
      mem_nonZero.mpr ⟨hr, fun h0 => hnone ⟨c, hc, r, hr, hdenom, h0⟩⟩, hdenom, hle⟩

private theorem getNonZeroFees_eq (hreqs : Ascending Coin.denom reqs) :
    getNonZeroFees reqs = (reqs.filter (fun r => r.amount ≠ 0), zeroDenoms reqs) := by
  rw [getNonZeroFees, sortBy_of_ascending (hreqs.sublist List.filter_sublist), zeroDenoms]

private theorem splitCoinsByDenoms_eq (hfee : Ascending Coin.denom fee) (denoms : List Text) :
    splitCoinsByDenoms fee denoms =
      (fee.filter (fun fc => fc.denom ∉ denoms), fee.filter (fun fc => fc.denom ∈ denoms)) := by
  rw [splitCoinsByDenoms, sortBy_of_ascending (hfee.sublist List.filter_sublist),
    sortBy_of_ascending (hfee.sublist List.filter_sublist)]

end Split

private theorem bypass_iff : (mfd.containsOnlyBypassMinFeeMsgs feeTx.msgs = true ∧
    feeTx.gas ≤ mfd.maxTotalBypassMinFeeMsgGasUsage) ↔ mfd.Bypass feeTx := by
  simp [containsOnlyBypassMinFeeMsgs, Bypass]

/-- The decision over the requirements of the denominations. -/
theorem checkFees_eq_ok (hfee : coinsValid fee = true) (hreqs : Ascending Coin.denom reqs) :
    mfd.checkFees feeTx fee reqs = .ok () ↔ (∀ c ∈ fee, ∃ r ∈ reqs, r.denom = c.denom) ∧
      (mfd.Bypass feeTx ∨ (∃ c ∈ fee, ∃ r ∈ reqs, r.denom = c.denom ∧ r.amount = 0) ∨
        (fee = [] ∧ ∃ r ∈ reqs, r.amount = 0) ∨ ∃ c ∈ fee, ∃ r ∈ reqs, r.denom = c.denom ∧ r.amount ≤ c.amount) := by
  obtain ⟨hascending, hdenoms⟩ := coinsValid_ok hfee
  have houtside := hascending.sublist (List.filter_sublist (p := fun fc => fc.denom ∉ zeroDenoms reqs))
  have hdenoms' : ∀ c ∈ fee.filter (fun fc => fc.denom ∉ zeroDenoms reqs), matchesDenom c.denom = true :=
    fun c hc => hdenoms c (mem_outside.mp hc).1
  have hnonZero := hreqs.sublist (List.filter_sublist (p := fun r => r.amount ≠ 0))
  have hnonzero : ∀ r ∈ reqs.filter (fun r => r.amount ≠ 0), r.amount ≠ 0 := fun r hr => (mem_nonZero.mp hr).2
  simp only [checkFees, getNonZeroFees_eq hreqs, splitCoinsByDenoms_eq hascending]
  rw [denomsSubsetOf_eq houtside hdenoms' hnonZero hnonzero, bind_eq_ok]
  simp only [Except.ok.injEq, exists_eq_left', failIf_bind_eq_ok, Bool.not_eq_false, decide_eq_true_eq]
  rw [subset_iff]
  refine and_congr_right (fun _ => ?_)
  by_cases hskip : mfd.Bypass feeTx
  · rw [if_neg (fun h => h.1 (bypass_iff.mpr hskip))]
    simp [hskip]
  by_cases hzero : ∃ c ∈ fee, ∃ r ∈ reqs, r.denom = c.denom ∧ r.amount = 0
  · rw [if_neg (fun h => inside_eq_nil.mp h.2 hzero)]
    simp [hzero]
  rw [if_pos ⟨fun h => hskip (bypass_iff.mp h), inside_eq_nil.mpr hzero⟩]
  by_cases hempty : fee = [] ∧ ∃ r ∈ reqs, r.amount = 0
  · rw [if_pos ⟨hempty.1, zeroDenoms_ne_nil.mpr hempty.2⟩]
    simp [hempty]
  · rw [if_neg (fun h => hempty ⟨h.1, zeroDenoms_ne_nil.mp h.2⟩)]
    rw [isAnyGTE_eq hdenoms' hnonZero hnonzero, bind_eq_ok]
    simp only [Except.ok.injEq, exists_eq_left', failIf_eq_ok, Bool.not_eq_false, decide_eq_true_eq]
    rw [any_iff hzero]
    simp only [hskip, hzero, hempty, false_or]

/-- The prices in force: without global ones the bond denomination is free. -/
def globalPrices (mfd : FeeDecorator) : List DecCoin :=
  if mfd.minimumGasPrices = [] then [⟨mfd.bondDenom, 0⟩] else mfd.minimumGasPrices

private theorem globalPrices_valid (hparams : validateMinimumGasPrices mfd.minimumGasPrices = .ok ())
    (hbond : mfd.minimumGasPrices = [] → matchesDenom mfd.bondDenom = true) : ValidPrices mfd.globalPrices := by
  unfold globalPrices
  split
  · next hempty =>
    exact ⟨List.pairwise_singleton _ _, by simpa using hbond hempty, by simp⟩
  · exact (validateFrom_ok hparams).1

private theorem toInt64_toInt {gas : UInt64} (h : gas.toNat < 2 ^ 63) : gas.toInt64.toInt = gas.toNat := by
  have hlt : 2 * gas.toBitVec.toNat < 2 ^ 64 := by
    change 2 * gas.toNat < 2 ^ 64
    omega
  exact BitVec.toInt_eq_toNat_of_lt hlt

private theorem noOverflow_zero (limit gas : Nat) : NoOverflow limit gas 0 := by
  simp [NoOverflow]

theorem getGlobalFee_eq (hparams : validateMinimumGasPrices mfd.minimumGasPrices = .ok ())
    (hbond : mfd.minimumGasPrices = [] → matchesDenom mfd.bondDenom = true) (hgas : feeTx.gas.toNat < 2 ^ 63)
    (hov : ∀ p ∈ mfd.minimumGasPrices, NoOverflow mfd.decLimit feeTx.gas.toNat p.amount) :
    mfd.getGlobalFee feeTx = .ok (mfd.globalPrices.map (feeCoin feeTx.gas.toNat)) := by
  have hvalid := globalPrices_valid hparams hbond
  have hprices : mfd.globalMinGasPrices = .ok mfd.globalPrices := by
    unfold globalMinGasPrices globalPrices
    split
    · next hempty =>
      have hdenom := hbond hempty
      have hne : mfd.bondDenom ≠ [] := by
        intro h
        rw [h] at hdenom
        cases hdenom
      simp [defaultZeroGlobalFee, failIf_bind, hdenom, hne]
    · rfl
  have hov' : ∀ p ∈ mfd.globalPrices, NoOverflow mfd.decLimit feeTx.gas.toNat p.amount := by
    unfold globalPrices
    split
    · simpa using noOverflow_zero _ _
    · exact hov
  rw [getGlobalFee, hprices, toInt64_toInt hgas]
  change (requiredFees mfd.decLimit _ mfd.globalPrices >>= _) = _
  rw [requiredFees_eq hvalid hov']
  exact congrArg Except.ok (sortBy_of_ascending hvalid.feeCoins_ascending)

/-- The requirement the decorator works with. -/
theorem combined_eq (feeTx : FeeTx) {localPrices : List DecCoin} (hglobal : ValidPrices mfd.globalPrices)
    (hlocal : ValidPrices localPrices) (hgas : feeTx.gas.toNat < 2 ^ 63)
    (hov : ∀ p ∈ localPrices, NoOverflow mfd.decLimit feeTx.gas.toNat p.amount) :
    ∃ localFees, getMinGasPrice mfd.decLimit localPrices feeTx.gas = .ok localFees ∧
      combinedFeeRequirement (mfd.globalPrices.map (feeCoin feeTx.gas.toNat)) localFees =
        requirements mfd.globalPrices localPrices feeTx.gas.toNat := by
  unfold getMinGasPrice
  split
  · next hzero =>
    simp only [List.all_eq_true, decide_eq_true_eq] at hzero
    exact ⟨[], rfl, combined_of_zero hglobal hzero⟩
  · next hnonzero =>
    have hne : localPrices ≠ [] := by
      rintro rfl
      exact hnonzero rfl
    refine ⟨localPrices.map (feeCoin feeTx.gas.toNat), ?_, combined_of_local hglobal hlocal hne⟩
    rw [failIf_bind, if_neg (by omega), requiredFees_eq hlocal hov]
    exact congrArg Except.ok (sortBy_of_ascending hlocal.feeCoins_ascending)

private theorem globalPrices_ne_nil : mfd.globalPrices ≠ [] := by
  unfold globalPrices
  split
  · nofun
  · assumption

/-- In `CheckTx` the decorator decides on the fee and the requirements. -/
theorem anteHandle_eq {localPrices : List DecCoin}
    (hparams : validateMinimumGasPrices mfd.minimumGasPrices = .ok ())
    (hbond : mfd.minimumGasPrices = [] → matchesDenom mfd.bondDenom = true) (hlocal : ValidPrices localPrices)
    (hfee : coinsValid feeTx.fee = true) (hgas : feeTx.gas.toNat < 2 ^ 63)
    (hov : ∀ p ∈ mfd.minimumGasPrices ++ localPrices, NoOverflow mfd.decLimit feeTx.gas.toNat p.amount) :
    mfd.anteHandle ⟨true, localPrices⟩ (some feeTx) false =
      mfd.checkFees feeTx feeTx.fee (requirements mfd.globalPrices localPrices feeTx.gas.toNat) := by
  obtain ⟨hovGlobal, hovLocal⟩ := List.forall_mem_append.mp hov
  obtain ⟨localFees, hmin, hcombined⟩ :=
    combined_eq feeTx (globalPrices_valid hparams hbond) hlocal hgas hovLocal
  have hne : requirements mfd.globalPrices localPrices feeTx.gas.toNat ≠ [] := by
    simpa [requirements] using globalPrices_ne_nil
  change (mfd.getGlobalFee feeTx >>= _) = _
  rw [getGlobalFee_eq hparams hbond hgas hovGlobal]
  change (getMinGasPrice mfd.decLimit localPrices feeTx.gas >>= _) = _
  rw [hmin]
  change (failIf (combinedFeeRequirement (mfd.globalPrices.map (feeCoin feeTx.gas.toNat)) localFees = []) _ >>=
    fun _ => mfd.checkFees feeTx (sortBy Coin.denom feeTx.fee)
      (combinedFeeRequirement (mfd.globalPrices.map (feeCoin feeTx.gas.toNat)) localFees)) = _
  rw [hcombined, failIf_bind, if_neg hne, sortBy_of_ascending (coinsValid_ok hfee).1]

/-- In `CheckTx` the next handler is called exactly when every fee denomination has a global price and the messages
may bypass the fee, a denomination of the fee is free, an empty fee meets a free denomination, or a fee coin meets
its requirement. -/
theorem minimum_fee_rule (mfd : FeeDecorator) (feeTx : FeeTx) (localPrices : List DecCoin)
    (hparams : validateMinimumGasPrices mfd.minimumGasPrices = .ok ())
    (hbond : mfd.minimumGasPrices = [] → matchesDenom mfd.bondDenom = true) (hlocal : ValidPrices localPrices)
    (hfee : coinsValid feeTx.fee = true) (hgas : feeTx.gas.toNat < 2 ^ 63)
    (hov : ∀ p ∈ mfd.minimumGasPrices ++ localPrices, NoOverflow mfd.decLimit feeTx.gas.toNat p.amount) :
    mfd.anteHandle ⟨true, localPrices⟩ (some feeTx) false = .ok () ↔
      (∀ c ∈ feeTx.fee, ∃ p ∈ mfd.globalPrices, p.denom = c.denom) ∧
      (mfd.Bypass feeTx ∨
        (∃ c ∈ feeTx.fee, requirement mfd.globalPrices localPrices feeTx.gas.toNat c.denom = 0) ∨
        (feeTx.fee = [] ∧ ∃ p ∈ mfd.globalPrices,
          requirement mfd.globalPrices localPrices feeTx.gas.toNat p.denom = 0) ∨
        ∃ c ∈ feeTx.fee, requirement mfd.globalPrices localPrices feeTx.gas.toNat c.denom ≤ c.amount) := by
  rw [anteHandle_eq hparams hbond hlocal hfee hgas hov,
    checkFees_eq_ok hfee (requirements_ascending (globalPrices_valid hparams hbond))]
  have hdenom (c : Coin) : (∃ r ∈ requirements mfd.globalPrices localPrices feeTx.gas.toNat, r.denom = c.denom) ↔
      ∃ p ∈ mfd.globalPrices, p.denom = c.denom := by
    simp [requirements]
  simp only [hdenom]
  refine and_congr_right (fun hall => ?_)
  -- every coin of the fee has its requirement, so a bound on one that is found is a bound on that
  have hcoin {Q : Coin → Int → Prop} : (∃ c ∈ feeTx.fee,
      ∃ r ∈ requirements mfd.globalPrices localPrices feeTx.gas.toNat, r.denom = c.denom ∧ Q c r.amount) ↔
        ∃ c ∈ feeTx.fee, Q c (requirement mfd.globalPrices localPrices feeTx.gas.toNat c.denom) := by
    refine exists_congr (fun c => and_congr_right (fun hc => ?_))
    rw [exists_requirement]
    exact and_iff_right (hall c hc)
  have hfree : (∃ r ∈ requirements mfd.globalPrices localPrices feeTx.gas.toNat, r.amount = 0) ↔
      ∃ p ∈ mfd.globalPrices, requirement mfd.globalPrices localPrices feeTx.gas.toNat p.denom = 0 := by
    simp [requirements]
  rw [hcoin (Q := fun _ amount => amount = 0), hcoin (Q := fun c amount => amount ≤ c.amount), hfree]

/-- A price of a half, and no type of message that bypasses it. -/
def halfPrice : FeeDecorator where
  bypassMinFeeMsgTypes := []
  minimumGasPrices := [⟨text "uterp", 5 * 10 ^ 17⟩]
  bondDenom := text "uterp"
  maxTotalBypassMinFeeMsgGasUsage := 1000000
  decLimit := 2 ^ 315 - 1

/-- Three units of gas at a half and a quarter require two coins. -/
theorem minimum_fee_rule_half_price :
    halfPrice.anteHandle ⟨true, [⟨text "uterp", 25 * 10 ^ 16⟩]⟩ (some ⟨[⟨text "uterp", 2⟩], 3, [text "/m"]⟩) false =
      .ok () := by
  have hlocal : ValidPrices [⟨text "uterp", 25 * 10 ^ 16⟩] :=
    ⟨List.pairwise_singleton _ _, by decide +kernel, by decide +kernel⟩
  refine (minimum_fee_rule halfPrice ⟨[⟨text "uterp", 2⟩], 3, [text "/m"]⟩ _ (by decide +kernel) nofun hlocal
    (by decide +kernel) (by decide +kernel) ?_).mpr ⟨by decide +kernel, .inr (.inr (.inr (by decide +kernel)))⟩
  unfold NoOverflow
  decide +kernel

end FeeDecorator
end Terpz.Globalfee
