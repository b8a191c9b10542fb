import Terpz.SmartAccount.Post

/-! The authenticator ante handler. The messages are authenticated on caches that are never written. After the fee
payer's message the fees are deducted and written through, until then on a gas meter of its own. After the last
message every authenticator tracks. -/
namespace Terpz.SmartAccount
open Lib

/-- The fee payer must be the first signer of the first message. -/
def validateAuthenticatorFeePayer (tx : Tx) : Except Err Unit :=
  match tx.feeTx with
  | none => .error (Err.of .txDecode (text "Tx must be a FeeTx"))
  | some feeTx =>
    match tx.msgs with
    | [] => .error (Err.of .txDecode (text "Tx must contain at least one message"))
    | msg :: _ =>
      match msg.signers with
      | .error _ => .error (Err.of .unauthorized (text "failed to get signers"))
      | .ok [] => .error (Err.of .txDecode (text "Tx message must contain at least one signer"))
      | .ok (signer :: _) =>
        failIf (feeTx.feePayer ≠ signer) (Err.of .unauthorized (text
          "fee payer must be the first signer, or signer must have an active feegrant allowance from feepayer"))

def msgSigners (msg : Msg) : Except Failure (List Bytes) :=
  match msg.signers with
  | .ok signers => .ok signers
  | .error _ => .error (.err (Err.of .unauthorized (text "failed to get signers")))

@[simp] theorem msgSigners_eq_ok {msg : Msg} {signers : List Bytes} :
    msgSigners msg = .ok signers ↔ msg.signers = .ok signers := by
  unfold msgSigners
  cases msg.signers <;> simp

def Keeper.getSelectedAuthenticators {μ : Type} (k : Keeper μ) (tx : Tx) (msgCount : Nat) : Except Err (List UInt64) :=
  match tx.nonCriticalExtensionOptions with
  | none => .error (Err.of .txDecode (text "Tx must be a HasExtensionOptionsTx to use Authenticators"))
  | some exts =>
    match k.getAuthenticatorExtension exts with
    | none => .error (Err.of .invalidRequest (text "Cannot get AuthenticatorTxOptions from tx"))
    | some selected => do
      failIf (selected.length ≠ msgCount) (Err.of .invalidRequest (text
        "Mismatch between the number of selected authenticators and messages, msg count " ++ decimal msgCount ++
          text ", got " ++ decimal selected.length ++ text " selected authenticators"))
      .ok selected

/-- What the track closure of a message holds. -/
structure Authenticated (μ : Type) where
  msgIndex : Nat
  account : Bytes
  selected : InitializedAuthenticator μ
  request : AuthenticationRequest

namespace App
variable {μ : Type} (app : App μ)

def authenticateMsg (feePayer : Bytes) (feeTx : FeeTx) (tx : Tx) (simulate : Bool) (selected : List UInt64)
    (msgIndex : Nat)
    (msg : Msg) : Attempt (Context μ) Failure (Authenticated μ) := do
  let signers ← Attempt.lift (msgSigners msg)
  Attempt.lift (failIf (signers.length ≠ 1)
    (.err (Err.of .unauthorized (text "messages must have exactly one signer"))))
  let account ← Attempt.lift (atIndex signers 0)
  let id ← Attempt.lift (atIndex selected msgIndex)
  let auth ← (Context.query (app.getInitializedAuthenticatorForAccount account id)).mapFailure
    (fun _ => Failure.wrap (describe (text "failed to get initialized authenticator") (app.addressString account)
      (Keeper.printInt id) msgIndex msg))
  let request ← (Context.query (app.generateAuthenticationRequest account feePayer feeTx msg tx msgIndex simulate
      sequenceMatch)).mapFailure
    (fun _ => Failure.wrap (describe (text "failed to generate authentication data") (app.addressString account)
      (decimal auth.id.toNat) msgIndex msg))
  Context.query (fun _ => app.gas.consumeGas auth.authenticator.staticGas (text "authenticator static gas"))
  (Context.recorded (.authenticate (identified request auth))
      (Context.performNeverWrite (auth.authenticator.authenticate (identified request auth)))).mapFailure
    (fun _ => Failure.wrap (text "authentication failed for message " ++ decimal msgIndex ++
      text ", authenticator id " ++ decimal auth.id.toNat ++ text ", type " ++ auth.authenticator.type))
  pure ⟨msgIndex, account, auth, identified request auth⟩

/-- The gas spent so far is charged to the meter of the transaction. -/
def chargePayerGas : Attempt (Context μ) Failure Unit := fun ctx =>
  let out := app.gas.consumeGas (app.gas.gasConsumed ctx.payerMeter) (text "fee payer gas") ctx.gasMeter
  ({ ctx with gasMeter := out.1 }, out.2)

/-- The fees are deducted and written to the parent store; from here on the transaction's meter is used. -/
def payFees (tx : Tx) (simulate : Bool) : Attempt (Context μ) Failure Unit := do
  app.chargePayerGas
  Context.recorded .deductFee (Context.perform (app.deductFee tx simulate))
  Attempt.modifyState (fun ctx => { ctx with store := ctx.store.flush, onPayer := false })

/-- Whether the fees are paid after a message of the account. -/
def settleFees (tx : Tx) (simulate feesPaid : Bool) (account feePayer : Bytes) : Attempt (Context μ) Failure Bool :=
  if feesPaid = false ∧ account = feePayer then do
    app.payFees tx simulate
    pure true
  else pure feesPaid

def authenticateMsgs (feePayer : Bytes) (feeTx : FeeTx) (tx : Tx) (simulate : Bool) (selected : List UInt64) :
    Nat → Bool → List Msg → Attempt (Context μ) Failure (List (Authenticated μ))
  | _, _, [] => pure []
  | msgIndex, feesPaid, msg :: msgs => do
    let authenticated ← app.authenticateMsg feePayer feeTx tx simulate selected msgIndex msg
    let feesPaid ← app.settleFees tx simulate feesPaid authenticated.account feePayer
    let rest ← authenticateMsgs feePayer feeTx tx simulate selected (msgIndex + 1) feesPaid msgs
    pure (authenticated :: rest)

def trackMsg (a : Authenticated μ) : Attempt (Context μ) Failure Unit :=
  (Context.recorded (.track a.request) (Context.perform (a.selected.authenticator.track a.request))).mapFailure
    (fun _ => Failure.wrap (text "track failed (account = " ++ app.addressString a.account ++
      text ", authenticator id = " ++ decimal a.selected.id.toNat ++ text ", authenticator type, " ++
      a.selected.authenticator.type ++ text ", msg index = " ++ decimal a.msgIndex ++ text ")"))

def trackMsgs : List (Authenticated μ) → Attempt (Context μ) Failure Unit
  | [] => pure ()
  | a :: rest => do
    app.trackMsg a
    trackMsgs rest

def callNext (next : Effect μ) : Attempt (Context μ) Failure Unit := do
  Attempt.modifyState (fun ctx => { ctx with trace := ctx.trace ++ [.next] })
  Context.perform next

/-- What runs under the deferred recover. -/
def authenticateTx (next : Effect μ) (tx : Tx) (simulate : Bool) : Attempt (Context μ) Failure Unit := do
  let first ← Attempt.lift (match tx.msgs with
    | [] => .error (.err (Err.of .invalidRequest (text "no messages in transaction")))
    | msg :: _ => .ok msg)
  let feeTx ← Attempt.lift (match tx.feeTx with
    | none => .error (.err (Err.of .txDecode (text "Tx must be a FeeTx")))
    | some feeTx => .ok feeTx)
  let signers ← Attempt.lift (msgSigners first)
  let feePayer ← Attempt.lift (atIndex signers 0)
  let selected ← Attempt.lift (liftErr (app.getSelectedAuthenticators tx tx.msgs.length))
  let authenticated ← app.authenticateMsgs feePayer feeTx tx simulate selected 0 false tx.msgs
  app.trackMsgs authenticated
  callNext next

/-- An out-of-gas panic becomes an error that names the reduced limit; other panics pass. -/
def recoverOutOfGas (params : Params) (ctx : Context μ) : Failure → Failure
  | .outOfGas _ => .err (Err.of .outOfGas (text ("FeePayer must be authenticated first because gas consumption has " ++
      "exceeded the free gas limit for authentication process. The gas limit has been reduced to ") ++
      decimal params.maximumUnauthenticatedGas.toNat ++ text ". Gas consumed: " ++
      decimal (app.gas.gasConsumed ctx.payerMeter).toNat))
  | f => f

/-- `AuthenticatorDecorator.AnteHandle`. -/
def anteHandle (next : Effect μ) (tx : Tx) (simulate : Bool) : Attempt (Context μ) Failure Unit := do
  Attempt.lift (liftErr (validateAuthenticatorFeePayer tx))
  let params ← Context.query app.getParams
  Attempt.modifyState (fun ctx =>
    { ctx with payerMeter := app.gas.newGasMeter params.maximumUnauthenticatedGas, onPayer := true })
  (app.authenticateTx next tx simulate).mapFailure (app.recoverOutOfGas params)

end App
end Terpz.SmartAccount
