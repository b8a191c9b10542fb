import Terpz.Hashmerchant.Types
import Terpz.Lib.Bech32
import Terpz.Lib.Checks
import Terpz.Lib.Decimal

/-! Addresses, parameters, fee shares and errors of `x/feeshare`. -/
namespace Terpz.Feeshare
open Lib

inductive ErrKind where
  | feeShareDisabled | feeShareAlreadyRegistered | feeShareContractNotRegistered | feeSharePayment
  | feeShareInvalidWithdrawer | invalidAddress | unauthorized | invalidSigner
  /-- A status of the query server. -/
  | invalidArgument
  /-- An error without a registered root. -/
  | other
  | panicked
  deriving DecidableEq, Repr

def ErrKind.text : ErrKind → Text
  | .feeShareDisabled => Lib.text "feeshare module is disabled by governance"
  | .feeShareAlreadyRegistered => Lib.text "feeshare already exists for given contract"
  | .feeShareContractNotRegistered => Lib.text "no feeshare registered for contract"
  | .feeSharePayment => Lib.text "feeshare payment error"
  | .feeShareInvalidWithdrawer => Lib.text "invalid withdrawer address"
  | .invalidAddress => Lib.text "invalid address"
  | .unauthorized => Lib.text "unauthorized"
  | .invalidSigner => Lib.text "expected gov account as only signer for proposal message"
  | .invalidArgument => Lib.text "InvalidArgument"
  | .other => []
  | .panicked => Lib.text "panic"

structure Err where
  kind : ErrKind
  message : Text
  deriving DecidableEq, Repr

def Err.registered (kind : ErrKind) : Err := ⟨kind, kind.text⟩

/-- A registered error under a description. -/
def Err.of (kind : ErrKind) (description : Text) : Err := ⟨kind, description ++ text ": " ++ kind.text⟩

def Err.nilPointer : Err := ⟨.panicked, text "invalid memory address or nil pointer dereference"⟩

/-- Parsing and printing of account addresses. The address verifier admits 20 and 32 bytes, and a parsed address
prints to a text that parses to it. -/
structure Addresses where
  accAddressFromBech32 : Text → Except Err Bytes
  addressString : Bytes → Text
  parse_print : ∀ t a, accAddressFromBech32 t = .ok a → accAddressFromBech32 (addressString a) = .ok a
  parse_length : ∀ t a, accAddressFromBech32 t = .ok a → a.length = 20 ∨ a.length = 32
  print_injective : Function.Injective addressString

/-- The share is in units of 10^-18, and `none` is a nil decimal. -/
structure Params where
  enableFeeShare : Bool
  developerShares : Option Int
  allowedDenoms : List Text
  deriving DecidableEq, Repr

def validateShares (developerShares : Option Int) : Except Err Unit :=
  match developerShares with
  | none => .error ⟨.other, text "invalid parameter: nil"⟩
  | some v => do
    failIf (v < 0) ⟨.other, text "value cannot be negative: math.LegacyDec"⟩
    failIf ((Decimal.one : Int) < v) ⟨.other, text "value cannot be greater than 1: math.LegacyDec"⟩

def validateArray (allowedDenoms : List Text) : Except Err Unit :=
  failIf ([] ∈ allowedDenoms) ⟨.other, text "denom cannot be blank"⟩

def Params.validate (p : Params) : Except Err Unit := do
  validateShares p.developerShares
  validateArray p.allowedDenoms

/-- Parameters that pass have a share of at most one. -/
theorem Params.validate_ok {p : Params} (h : p.validate = .ok ()) :
    ∃ v, p.developerShares = some v ∧ 0 ≤ v ∧ v ≤ Decimal.one := by
  rw [validate, bind_eq_ok] at h
  obtain ⟨_, hshares, -⟩ := h
  cases hdev : p.developerShares with
  | none =>
    rw [hdev] at hshares
    cases hshares
  | some v =>
    rw [hdev, validateShares, failIf_bind_eq_ok, failIf_eq_ok] at hshares
    exact ⟨v, rfl, not_lt.mp hshares.1, not_lt.mp hshares.2⟩

/-- What is read before genesis. -/
def Params.zero : Params := ⟨false, none, []⟩

structure FeeShare where
  contractAddress : Text
  deployerAddress : Text
  withdrawerAddress : Text
  deriving DecidableEq, Repr

namespace Addresses
variable (addrs : Addresses)

/-- An address that does not parse is nil, which has no bytes. -/
def parseOrNil (t : Text) : Bytes :=
  match addrs.accAddressFromBech32 t with
  | .ok a => a
  | .error _ => []

def getContractAddr (fs : FeeShare) : Bytes := addrs.parseOrNil fs.contractAddress
def getDeployerAddr (fs : FeeShare) : Bytes := addrs.parseOrNil fs.deployerAddress
def getWithdrawerAddr (fs : FeeShare) : Bytes := addrs.parseOrNil fs.withdrawerAddress

def newFeeShare (contract deployer withdrawer : Bytes) : FeeShare :=
  ⟨addrs.addressString contract, addrs.addressString deployer, addrs.addressString withdrawer⟩

variable {addrs}

theorem ne_nil_of_parse {t : Text} {a : Bytes} (h : addrs.accAddressFromBech32 t = .ok a) : a ≠ [] := by
  rintro rfl
  rcases addrs.parse_length t [] h with hlen | hlen <;> cases hlen

theorem parseOrNil_of_parse {t : Text} {a : Bytes} (h : addrs.accAddressFromBech32 t = .ok a) :
    addrs.parseOrNil t = a := by
  rw [parseOrNil, h]

/-- A text with an address is one that parses. -/
theorem parse_of_ne_nil {t : Text} (h : addrs.parseOrNil t ≠ []) :
    addrs.accAddressFromBech32 t = .ok (addrs.parseOrNil t) := by
  unfold parseOrNil at h ⊢
  cases hparse : addrs.accAddressFromBech32 t with
  | error e => simp [hparse] at h
  | ok a => rfl

theorem parseOrNil_print {t : Text} {a : Bytes} (h : addrs.accAddressFromBech32 t = .ok a) :
    addrs.parseOrNil (addrs.addressString a) = a := parseOrNil_of_parse (addrs.parse_print t a h)

end Addresses

/-! A user, two contracts and the first 20 bytes of one of them, by their texts. -/

def sampleUser : Bytes := List.replicate 20 8
def contractA : Bytes := List.replicate 32 7
def contractB : Bytes := List.replicate 32 6
def sampleAccounts : List Bytes := [sampleUser, contractA, contractB, contractA.take 20]

def terpText : Bytes → Text := Bech32.encode (text "terp")

def sampleParse : Text → Except Err Bytes :=
  Bech32.parse (text "terp") sampleAccounts ⟨.other, text "decoding bech32 failed"⟩

def sampleAddresses : Addresses where
  accAddressFromBech32 := sampleParse
  addressString := terpText
  parse_print t a h :=
    (show ∀ a ∈ sampleAccounts, sampleParse (terpText a) = .ok a by decide +kernel) a (Bech32.parse_eq_ok h).1
  parse_length t a h :=
    (show ∀ a ∈ sampleAccounts, a.length = 20 ∨ a.length = 32 by decide) a (Bech32.parse_eq_ok h).1
  print_injective := Bech32.encode_injective _

/-- The creator and the administrator of a contract. -/
structure ContractInfo where
  creator : Text
  admin : Text
  deriving DecidableEq, Repr

end Terpz.Feeshare
