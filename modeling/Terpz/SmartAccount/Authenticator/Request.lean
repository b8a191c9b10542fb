import Terpz.SmartAccount.Keeper.Keeper

/-! The authentication request of a message: the transaction made explicit, the signatures with the one of the
message's signer, and the bytes to sign. -/
namespace Terpz.SmartAccount
open Lib

structure Account where
  accountNumber : UInt64
  sequence : UInt64
  deriving DecidableEq, Repr

structure SignerData where
  chainId : Text
  accountNumber : UInt64
  sequence : UInt64
  deriving DecidableEq, Repr

/-- What the handlers need besides the keeper. -/
structure App (μ : Type) extends Keeper μ where
  getAccount : Store → Bytes → Option Account
  blockHeight : Int
  chainId : Text
  isCheckTx : Bool
  /-- `GetSignBytesAdapter` in the direct mode. -/
  signBytes : SignerData → Tx → Except Err Bytes
  /-- `DeductFeeDecorator.AnteHandle` with a chain that ends after it. -/
  deductFee : Tx → Bool → Effect μ

abbrev ReplayProtection := ExplicitTxData → SignatureV2 → Except Err Unit

def sequenceMatch : ReplayProtection := fun txData signature =>
  failIf (signature.sequence ≠ txData.accountSequence) (Err.of .invalidSequence
    (text "account sequence mismatch, expected " ++ decimal txData.accountSequence.toNat ++ text ", got " ++
      decimal signature.sequence.toNat))

def noReplayProtection : ReplayProtection := fun _ _ => .ok ()

def getSignerAndSignatures (tx : Tx) : Except Err (List Bytes × List SignatureV2) :=
  match tx.sigTx with
  | none => .error (Err.of .txDecode (text "invalid transaction type"))
  | some sigTx => do
    let signatures ← sigTx.signatures
    let signers ← sigTx.signers
    failIf (signatures.length ≠ signers.length) (Err.of .txDecode (text "invalid number of signer;  expected: " ++
      decimal signers.length ++ text ", got " ++ decimal signatures.length))
    .ok (signers, signatures)

/-- The data of the account that was read; past genesis a missing account is a nil pointer. -/
def signerData (chainId : Text) (blockHeight : Int) (account : Option Account) : Except Failure SignerData :=
  match account with
  | some a => .ok ⟨chainId, if blockHeight = 0 then 0 else a.accountNumber, a.sequence⟩
  | none =>
    if blockHeight = 0 then .ok ⟨chainId, 0, 0⟩
    else .error (.panic (text "invalid memory address or nil pointer dereference"))

def encodeMsgs : List Msg → Except Err (List LocalAny)
  | [] => .ok []
  | msg :: msgs =>
    match msg.value with
    | .error e => .error (e.wrap (text "failed to encode msg"))
    | .ok value => do
      let rest ← encodeMsgs msgs
      .ok (⟨msg.typeUrl, value⟩ :: rest)

def extractExplicitTxData (tx : Tx) (signerData : SignerData) : Except Err ExplicitTxData :=
  match tx.timeoutHeight, tx.memo with
  | none, _ => .error (Err.of .invalidType (text "failed to cast tx to TxWithTimeoutHeight"))
  | some _, none => .error (Err.of .invalidType (text "failed to cast tx to TxWithMemo"))
  | some timeoutHeight, some memo => do
    let msgs ← encodeMsgs tx.msgs
    .ok { chainId := signerData.chainId
          accountNumber := signerData.accountNumber
          accountSequence := signerData.sequence
          timeoutHeight := timeoutHeight
          msgs := msgs
          memo := memo }

/-- The loop over the signatures with their signers; the last signature of the account is the message's. -/
def extractSignatures (txData : ExplicitTxData) (account : Bytes) (replayProtection : ReplayProtection) :
    List (Bytes × SignatureV2) → List Bytes → Bytes → Except Err (List Bytes × Bytes)
  | [], signatures, msgSignature => .ok (signatures, msgSignature)
  | (signer, signature) :: rest, signatures, msgSignature =>
    match signature.single with
    | none => .error (Err.of .invalidType (text "failed to cast signature to SingleSignatureData"))
    | some single =>
      if signer = account then do
        replayProtection txData signature
        extractSignatures txData account replayProtection rest (signatures ++ [single]) single
      else extractSignatures txData account replayProtection rest (signatures ++ [single]) msgSignature

def wrapErr {α : Type} (description : Text) : Except Err α → Except Failure α
  | .ok a => .ok a
  | .error e => .error (.err (e.wrap description))

@[simp] theorem wrapErr_eq_ok {α : Type} {description : Text} {x : Except Err α} {a : α} :
    wrapErr description x = .ok a ↔ x = .ok a := by
  cases x <;> simp [wrapErr]

def liftErr {α : Type} : Except Err α → Except Failure α
  | .ok a => .ok a
  | .error e => .error (.err e)

@[simp] theorem liftErr_eq_ok {α : Type} {x : Except Err α} {a : α} : liftErr x = .ok a ↔ x = .ok a := by
  cases x <;> simp [liftErr]

namespace App
variable {μ : Type} (app : App μ)

/-- What is checked before the account is read. -/
def requestSignatures (account : Bytes) (msg : Msg) (tx : Tx) : Except Failure (List Bytes × List SignatureV2) := do
  let signers ← liftErr msg.signers
  match signers with
  | [] => .error (.panic (text "index out of range [0] with length 0"))
  | signer :: _ => do
    failIf (signer ≠ account) (.err (Err.of .invalidRequest (text "invalid signer")))
    wrapErr (text "failed to get signers and signatures") (getSignerAndSignatures tx)

/-- The bytes to sign; a simulated check has a placeholder. -/
def directBytes (simulate : Bool) (signerData : SignerData) (tx : Tx) : Except Failure Bytes :=
  if simulate && app.isCheckTx then .ok (text "signBytes")
  else wrapErr (text "failed to get signBytes") (app.signBytes signerData tx)

/-- The request, from the account that was read. -/
def requestOf (signed : List Bytes × List SignatureV2) (found : Option Account) (account : Bytes) (feePayer : Bytes)
    (feeTx : FeeTx) (tx : Tx) (msgIndex : Nat) (simulate : Bool) (replayProtection : ReplayProtection) :
    Except Failure AuthenticationRequest := do
  let signerData ← signerData app.chainId app.blockHeight found
  let txData ← wrapErr (text "failed to get explicit tx data") (extractExplicitTxData tx signerData)
  let (signatures, msgSignature) ← wrapErr (text "failed to get signatures")
    (extractSignatures txData account replayProtection (signed.1.zip signed.2) [] [])
  match txData.msgs[msgIndex]? with
  | none => .error (.panic (text "index out of range"))
  | some any => do
    let direct ← app.directBytes simulate signerData tx
    .ok { authenticatorId := []
          account := account
          feePayer := feePayer
          feeGranter := feeTx.feeGranter
          fee := feeTx.fee
          msg := any
          msgIndex := UInt64.ofNat msgIndex
          signature := msgSignature
          signModeDirect := direct
          txData := txData
          signatureData := ⟨signed.1, signatures⟩
          simulate := simulate }

def generateAuthenticationRequest (account feePayer : Bytes) (feeTx : FeeTx) (msg : Msg) (tx : Tx) (msgIndex : Nat)
    (simulate : Bool) (replayProtection : ReplayProtection) : Query μ AuthenticationRequest := fun v => do
  let signed ← Attempt.lift (requestSignatures account msg tx)
  app.readGas (.account account) v
  Attempt.lift
    (app.requestOf signed (app.getAccount v account) account feePayer feeTx tx msgIndex simulate replayProtection)

/-- A request that was generated comes from the signers of the transaction and the account in the store. -/
theorem generate_ok {account feePayer : Bytes} {feeTx : FeeTx} {msg : Msg} {tx : Tx} {msgIndex : Nat} {simulate : Bool}
    {replayProtection : ReplayProtection} {v : Store} {m : μ} {request : AuthenticationRequest}
    (h : (app.generateAuthenticationRequest account feePayer feeTx msg tx msgIndex simulate replayProtection v m).2 =
      .ok request) :
    ∃ signed, requestSignatures account msg tx = .ok signed ∧
      app.requestOf signed (app.getAccount v account) account feePayer feeTx tx msgIndex simulate replayProtection =
        .ok request := by
  obtain ⟨signed, hsigned, hrest⟩ := Attempt.bind_eq_ok.mp h
  obtain ⟨_, -, hrequest⟩ := Attempt.bind_eq_ok.mp hrest
  exact ⟨signed, hsigned, hrequest⟩

end App
end Terpz.SmartAccount
