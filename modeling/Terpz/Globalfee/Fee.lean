import Terpz.Hashmerchant.Types
import Terpz.Lib.Ascending
import Terpz.Lib.Decimal
import Terpz.Tokenfactory.Types

/-! The minimum fee of `x/globalfee`: its parameters, the fees required of a transaction and the decorator that
checks them. A successful result of the decorator is the call of the next handler. -/
namespace Terpz.Globalfee
open Lib
open Tokenfactory (Coin matchesDenom coinsText)

inductive ErrKind where
  | txDecode
  | notFound
  | insufficientFee
  /-- An error without a registered root. -/
  | other
  | panicked
  deriving DecidableEq, Repr

def ErrKind.text : ErrKind → Text
  | .txDecode => Lib.text "tx parse error"
  | .notFound => Lib.text "not found"
  | .insufficientFee => Lib.text "insufficient fee"
  | .other => []
  | .panicked => Lib.text "panic"

structure Err where
  kind : ErrKind
  message : Text
  deriving DecidableEq, Repr

/-- A registered error under a description. -/
def Err.of (kind : ErrKind) (description : Text) : Err := ⟨kind, description ++ text ": " ++ kind.text⟩

/-- `sdk.DecCoin`, the amount in units of 10^-18. -/
structure DecCoin where
  denom : Text
  amount : Int
  deriving DecidableEq, Repr

/-- The loop of `DecCoins.Validate` from the coin with the given index on. -/
def validateFrom (i : Nat) (lowDenom : Text) (seenDenoms : List Text) : List DecCoin → Except Err Unit
  | [] => .ok ()
  | coin :: coins => do
    failIf (coin.denom ∈ seenDenoms) ⟨.other, text "duplicate denomination " ++ coin.denom⟩
    failIf (matchesDenom coin.denom = false) ⟨.other, text "invalid denom: " ++ coin.denom⟩
    failIf (i ≠ 0 ∧ (compare coin.denom lowDenom).isLE = true)
      ⟨.other, text "denomination " ++ coin.denom ++ text " is not sorted"⟩
    failIf (coin.amount < 0)
      ⟨.other, text "coin " ++ Hashmerchant.LegacyDec.toText coin.amount ++ text " amount is negative"⟩
    validateFrom (i + 1) coin.denom (coin.denom :: seenDenoms) coins

def validateMinimumGasPrices (coins : List DecCoin) : Except Err Unit := validateFrom 0 [] [] coins

def orPanic {α : Type} (message : Text) : Option α → Except Err α
  | none => .error ⟨.panicked, message⟩
  | some a => .ok a

def newCoin (denom : Text) (amount : Int) : Except Err Coin := do
  failIf (matchesDenom denom = false) ⟨.panicked, text "invalid denom: " ++ denom⟩
  failIf (amount < 0) ⟨.panicked, text "negative coin amount: " ++ signedDecimal amount⟩
  .ok ⟨denom, amount⟩

/-- The fee for one gas price, `ceil(minGasPrice * gasLimit)`. -/
def requiredFee (limit : Nat) (glDec : Int) (gp : DecCoin) : Except Err Coin := do
  let fee ← orPanic (text "Int overflow") (Decimal.mul limit gp.amount glDec)
  let amount ← orPanic (text "Int overflow") (Decimal.roundInt (Decimal.ceil fee))
  newCoin gp.denom amount

def requiredFees (limit : Nat) (glDec : Int) : List DecCoin → Except Err (List Coin)
  | [] => .ok []
  | gp :: gps => do
    let fee ← requiredFee limit glDec gp
    let fees ← requiredFees limit glDec gps
    .ok (fee :: fees)

/-- The validator's own prices, as fees; all of them at zero are none. -/
def getMinGasPrice (limit : Nat) (minGasPrices : List DecCoin) (gasLimit : UInt64) : Except Err (List Coin) := do
  if minGasPrices.all (fun gp => gp.amount = 0) then .ok []
  else
    failIf (2 ^ 63 ≤ gasLimit.toNat) ⟨.panicked, text "Int64() out of bound"⟩
    let fees ← requiredFees limit ((gasLimit.toNat : Int) * Decimal.one) minGasPrices
    .ok (sortBy Coin.denom fees)

def find (coins : List Coin) (denom : Text) : Option Coin := search Coin.denom denom coins

/-- The local fee of the denomination where it is higher. -/
def higherFee (minGasPrices : List Coin) (fee : Coin) : Coin :=
  match find minGasPrices fee.denom with
  | some c => if fee.amount < c.amount then c else fee
  | none => fee

def combinedFeeRequirement (globalFees minGasPrices : List Coin) : List Coin :=
  if minGasPrices = [] then globalFees
  else if globalFees = [] then []
  else sortBy Coin.denom (globalFees.map (higherFee minGasPrices))

/-- The coins under denominations of the map go second. -/
def splitCoinsByDenoms (feeCoins : List Coin) (denomMap : List Text) : List Coin × List Coin :=
  (sortBy Coin.denom (feeCoins.filter (fun fc => fc.denom ∉ denomMap)),
    sortBy Coin.denom (feeCoins.filter (fun fc => fc.denom ∈ denomMap)))

def getNonZeroFees (fees : List Coin) : List Coin × List Text :=
  (sortBy Coin.denom (fees.filter (fun gf => gf.amount ≠ 0)), (fees.filter (fun gf => gf.amount = 0)).map Coin.denom)

/-- `Coins.AmountOf`. -/
def amountOf (coins : List Coin) (denom : Text) : Except Err Int := do
  failIf (matchesDenom denom = false) ⟨.panicked, text "invalid denom: " ++ denom⟩
  .ok (((find coins denom).map Coin.amount).getD 0)

def denomsFound (coinsB : List Coin) : List Coin → Except Err Bool
  | [] => .ok true
  | coin :: coins => do
    let amt ← amountOf coinsB coin.denom
    if amt = 0 then .ok false else denomsFound coinsB coins

/-- `Coins.DenomsSubsetOf`. -/
def denomsSubsetOf (coins coinsB : List Coin) : Except Err Bool :=
  if coinsB.length < coins.length then .ok false else denomsFound coinsB coins

def anyGTE (coinsB : List Coin) : List Coin → Except Err Bool
  | [] => .ok false
  | coin :: coins => do
    let amt ← amountOf coinsB coin.denom
    if amt ≤ coin.amount ∧ amt ≠ 0 then .ok true else anyGTE coinsB coins

/-- `Coins.IsAnyGTE`. -/
def isAnyGTE (coins coinsB : List Coin) : Except Err Bool := if coinsB = [] then .ok false else anyGTE coinsB coins

/-- A transaction with a fee; the messages are their type URLs. -/
structure FeeTx where
  fee : List Coin
  gas : UInt64
  msgs : List Text

structure Ctx where
  isCheckTx : Bool
  minGasPrices : List DecCoin

/-- The decorator with what it reads of the two keepers; a bond denomination that cannot be read is empty. `decLimit`
is the largest decimal. -/
structure FeeDecorator where
  bypassMinFeeMsgTypes : List Text
  minimumGasPrices : List DecCoin
  bondDenom : Text
  maxTotalBypassMinFeeMsgGasUsage : UInt64
  decLimit : Nat

namespace FeeDecorator
variable (mfd : FeeDecorator)

def defaultZeroGlobalFee : Except Err (List DecCoin) := do
  failIf (mfd.bondDenom = []) ⟨.other, text "empty staking bond denomination"⟩
  failIf (matchesDenom mfd.bondDenom = false) ⟨.panicked, text "invalid denom: " ++ mfd.bondDenom⟩
  .ok [⟨mfd.bondDenom, 0⟩]

def globalMinGasPrices : Except Err (List DecCoin) :=
  if mfd.minimumGasPrices = [] then mfd.defaultZeroGlobalFee else .ok mfd.minimumGasPrices

/-- The gas is taken as a signed number. -/
def getGlobalFee (feeTx : FeeTx) : Except Err (List Coin) := do
  let globalMinGasPrices ← mfd.globalMinGasPrices
  let fees ← requiredFees mfd.decLimit (feeTx.gas.toInt64.toInt * Decimal.one) globalMinGasPrices
  .ok (sortBy Coin.denom fees)

def containsOnlyBypassMinFeeMsgs (msgs : List Text) : Bool := msgs.all (fun msg => msg ∈ mfd.bypassMinFeeMsgTypes)

/-- The decision on a fee, once the requirement is known. -/
def checkFees (feeTx : FeeTx) (feeCoins combinedFeeRequirement : List Coin) : Except Err Unit := do
  let (nonZeroCoinFeesReq, zeroCoinFeesDenomReq) := getNonZeroFees combinedFeeRequirement
  let (feeCoinsNonZeroDenom, feeCoinsZeroDenom) := splitCoinsByDenoms feeCoins zeroCoinFeesDenomReq
  let expected ← denomsSubsetOf feeCoinsNonZeroDenom nonZeroCoinFeesReq
  failIf (expected = false) (.of .insufficientFee (text "fee is not a subset of required fees; got " ++
    coinsText feeCoins ++ text ", required: " ++ coinsText combinedFeeRequirement))
  let doesNotExceedMaxGasUsage := feeTx.gas ≤ mfd.maxTotalBypassMinFeeMsgGasUsage
  let allowedToBypassMinFee := mfd.containsOnlyBypassMinFeeMsgs feeTx.msgs = true ∧ doesNotExceedMaxGasUsage
  if ¬ allowedToBypassMinFee ∧ feeCoinsZeroDenom = [] then
    if feeCoins = [] ∧ zeroCoinFeesDenomReq ≠ [] then .ok ()
    else
      let enough ← isAnyGTE feeCoinsNonZeroDenom nonZeroCoinFeesReq
      failIf (enough = false) (.of .insufficientFee (text "insufficient fees; got: " ++ coinsText feeCoins ++
        text " required: " ++ coinsText combinedFeeRequirement))
  else .ok ()

/-- `none` is a transaction without a fee. -/
def anteHandle (ctx : Ctx) (tx : Option FeeTx) (simulate : Bool) : Except Err Unit :=
  match tx with
  | none => .error (.of .txDecode (text "Tx must implement the sdk.FeeTx interface"))
  | some feeTx =>
    if ctx.isCheckTx = false ∨ simulate = true then .ok ()
    else do
      let requiredGlobalFees ← mfd.getGlobalFee feeTx
      let localFees ← getMinGasPrice mfd.decLimit ctx.minGasPrices feeTx.gas
      let combined := combinedFeeRequirement requiredGlobalFees localFees
      failIf (combined = []) (.of .notFound (text "required fees are not setup."))
      mfd.checkFees feeTx (sortBy Coin.denom feeTx.fee) combined

end FeeDecorator
end Terpz.Globalfee
