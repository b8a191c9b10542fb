import Terpz.Lib.Checks
import Terpz.Lib.Text

/-! Denominations, coins, parameters and errors of `x/tokenfactory`. Strings are byte strings, as in the source. -/
namespace Terpz.Tokenfactory
open Lib

inductive ErrKind where
  | denomExists | unauthorized | invalidDenom | invalidCreator | invalidAuthorityMetadata | invalidGenesis
  | subdenomTooLong | creatorTooLong | denomDoesNotExist | capabilityNotEnabled
  | invalidSigner | invalidAddress | invalidCoins | insufficientFunds | sdkUnauthorized
  /-- An error without a registered root. -/
  | other
  | panicked
  deriving DecidableEq, Repr

def ErrKind.text : ErrKind → Text
  | .denomExists => Lib.text "attempting to create a denom that already exists (has bank metadata)"
  | .unauthorized => Lib.text "unauthorized account"
  | .invalidDenom => Lib.text "invalid denom"
  | .invalidCreator => Lib.text "invalid creator"
  | .invalidAuthorityMetadata => Lib.text "invalid authority metadata"
  | .invalidGenesis => Lib.text "invalid genesis"
  | .subdenomTooLong => Lib.text "subdenom too long, max length is 44 bytes"
  | .creatorTooLong => Lib.text "creator too long, max length is 75 bytes"
  | .denomDoesNotExist => Lib.text "denom does not exist"
  | .capabilityNotEnabled => Lib.text "this capability is not enabled on chain"
  | .invalidSigner => Lib.text "expected gov account as only signer for proposal message"
  | .invalidAddress => Lib.text "invalid address"
  | .invalidCoins => Lib.text "invalid coins"
  | .insufficientFunds => Lib.text "insufficient funds"
  | .sdkUnauthorized => Lib.text "unauthorized"
  | .other => []
  | .panicked => Lib.text "panic"

/-- An error with its root and its whole message. -/
structure Err where
  kind : ErrKind
  message : Text
  deriving DecidableEq, Repr

def Err.registered (kind : ErrKind) : Err := ⟨kind, kind.text⟩

/-- A registered error under a description. -/
def Err.of (kind : ErrKind) (description : Text) : Err := ⟨kind, description ++ text ": " ++ kind.text⟩

def isLetter (b : UInt8) : Bool := (65 ≤ b && b ≤ 90) || (97 ≤ b && b ≤ 122)
def isDigit (b : UInt8) : Bool := 48 ≤ b && b ≤ 57

/-- One of `[a-zA-Z0-9/:._-]`. -/
def isDenomChar (b : UInt8) : Bool := isLetter b || isDigit b || [47, 58, 46, 95, 45].contains b

/-- The pattern `[a-zA-Z][a-zA-Z0-9/:._-]{2,127}`. -/
def matchesDenom : Text → Bool
  | [] => false
  | b :: bs => isLetter b && 2 ≤ bs.length && bs.length ≤ 127 && bs.all isDenomChar

def validateDenom (denom : Text) : Except Err Unit :=
  failIf (matchesDenom denom = false) ⟨.other, text "invalid denom: " ++ denom⟩

structure Coin where
  denom : Text
  amount : Int
  deriving DecidableEq, Repr

/-- `Coins.Validate`: valid denominations in strictly ascending order, positive amounts. -/
def coinsValid (coins : List Coin) : Bool :=
  coins.all (fun c => matchesDenom c.denom && 0 < c.amount) &&
    decide (coins.Pairwise (fun a b => compare a.denom b.denom = .lt))

def Coin.toText (c : Coin) : Text := signedDecimal c.amount ++ c.denom

def coinsText (coins : List Coin) : Text := (text ",").intercalate (coins.map Coin.toText)

/-- `NewCoins` of one coin drops a zero amount and panics on a bad coin. -/
def newCoins (c : Coin) : Except Err (List Coin) := do
  failIf (c.amount ≠ 0 ∧ coinsValid [c] = false) ⟨.panicked, text "invalid coins"⟩
  .ok (if c.amount = 0 then [] else [c])

def amountOf : List Coin → Text → Int
  | [], _ => 0
  | c :: cs, denom => (if c.denom = denom then c.amount else 0) + amountOf cs denom

theorem newCoins_ok {c : Coin} {coins : List Coin} (h : newCoins c = .ok coins) : amountOf coins = amountOf [c] := by
  rw [newCoins, failIf_bind_eq_ok] at h
  obtain ⟨-, h⟩ := h
  cases h
  funext denom
  by_cases hc : c.amount = 0 <;> simp [hc, amountOf]

/-- `bank.DenomUnit`. -/
structure DenomUnit where
  denom : Text
  exponent : UInt32
  aliases : List Text
  deriving DecidableEq, Repr

/-- `bank.Metadata`. -/
structure Metadata where
  description : Text
  denomUnits : List DenomUnit
  base : Text
  display : Text
  name : Text
  symbol : Text
  uri : Text
  uriHash : Text
  deriving DecidableEq, Repr

/-- Parsing and printing of account addresses. What parses is a `terp` bech32 text, and an address that was
parsed prints to a text that parses to it. -/
structure Addresses where
  accAddressFromBech32 : Text → Except Err Bytes
  addressString : Bytes → Text
  parse_print : ∀ t a, accAddressFromBech32 t = .ok a → accAddressFromBech32 (addressString a) = .ok a
  parsed_chars : ∀ t a, accAddressFromBech32 t = .ok a → ∀ b ∈ t, isLetter b = true ∨ isDigit b = true

def moduleDenomPrefix : Text := text "factory"
def maxSubdenomLength : Nat := 44
def maxHrpLength : Nat := 16
def maxCreatorLength : Nat := 59 + maxHrpLength

def getTokenDenom (creator subdenom : Text) : Except Err Text := do
  failIf (subdenom.length > maxSubdenomLength) (.registered .subdenomTooLong)
  failIf (creator.length > maxCreatorLength) (.registered .creatorTooLong)
  failIf (47 ∈ creator) (.registered .invalidCreator)
  let denom := [47].intercalate [moduleDenomPrefix, creator, subdenom]
  validateDenom denom
  .ok denom

namespace Addresses
variable (addrs : Addresses)

/-- The creator of a denomination, as its address prints, and the subdenomination. -/
def deconstructDenom (denom : Text) : Except Err (Text × Text) := do
  validateDenom denom
  let strParts := denom.splitOn 47
  failIf (strParts.length < 3) (.of .invalidDenom (text "not enough parts of denom " ++ denom))
  failIf (strParts.getD 0 [] ≠ moduleDenomPrefix) (.of .invalidDenom
    (text "denom prefix is incorrect. Is: " ++ strParts.getD 0 [] ++ text ".  Should be: " ++ moduleDenomPrefix))
  let creatorAddr ← (addrs.accAddressFromBech32 (strParts.getD 1 [])).mapError
    (fun e => .of .invalidDenom (text "Invalid creator address (" ++ e.message ++ text ")"))
  .ok (addrs.addressString creatorAddr, [47].intercalate (strParts.drop 2))

end Addresses

def enableSetMetadata : Text := text "enable_metadata"
def enableForceTransfer : Text := text "enable_force_transfer"
def enableBurnFrom : Text := text "enable_burn_from"

/-- An empty list enables everything. -/
def isCapabilityEnabled (enabledCapabilities : List Text) (capability : Text) : Bool :=
  enabledCapabilities.isEmpty || enabledCapabilities.contains capability

/-- The fee is stored as JSON, where no fee and the empty fee are the same. -/
structure Params where
  denomCreationFee : List Coin
  denomCreationGasConsume : UInt64
  deriving DecidableEq, Repr

def defaultParams : Params where
  denomCreationFee := [⟨text "uterp", 10000000⟩]
  denomCreationGasConsume := 2000000

def Params.validate (p : Params) : Except Err Unit :=
  failIf (coinsValid p.denomCreationFee = false)
    ⟨.other, text "invalid denom creation fee: " ++ coinsText p.denomCreationFee⟩

theorem defaultParams_validate : defaultParams.validate = .ok () := by decide +kernel

structure DenomAuthorityMetadata where
  admin : Text
  deriving DecidableEq, Repr

def DenomAuthorityMetadata.validate (addrs : Addresses) (metadata : DenomAuthorityMetadata) : Except Err Unit :=
  if metadata.admin ≠ [] then (addrs.accAddressFromBech32 metadata.admin).map (fun _ => ()) else .ok ()

def keySeparator : Text := text "|"

/-- `GetDenomPrefixStore`: where the data of one denomination lie. -/
def denomPrefix (denom : Text) : Bytes := keySeparator.intercalate [text "denoms", denom, []]

def denomAuthorityMetadataKey : Bytes := text "authoritymetadata"

/-- `GetCreatorPrefix`: where the denominations of one creator lie. -/
def creatorPrefix (creator : Text) : Bytes := keySeparator.intercalate [text "creator", creator, []]

/-- `GetCreatorsPrefix`. -/
def creatorsPrefix : Bytes := keySeparator.intercalate [text "creator", []]

end Terpz.Tokenfactory
