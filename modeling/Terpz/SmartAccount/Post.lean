import Terpz.SmartAccount.Authenticator.Request
import Terpz.SmartAccount.Ante.CircuitBreaker

/-! The post handler: after the messages ran, the authenticator selected for each message confirms the
execution. -/
namespace Terpz.SmartAccount
open Lib

/-- The tail that the handlers put behind their errors. -/
def describe (what account id : Text) (msgIndex : Nat) (msg : Msg) : Text :=
  what ++ text " (account = " ++ account ++ text ", authenticator id = " ++ id ++ text ", msg index = " ++
    decimal msgIndex ++ text ", msg type url = " ++ msg.typeUrl ++ text ")"

/-- An element of a slice, or the panic of the access. -/
def atIndex {α : Type} (l : List α) (i : Nat) : Except Failure α :=
  match l[i]? with
  | some a => .ok a
  | none => .error (.panic (text "index out of range [" ++ decimal i ++ text "] with length " ++ decimal l.length))

@[simp] theorem atIndex_eq_ok {α : Type} {l : List α} {i : Nat} {a : α} : atIndex l i = .ok a ↔ l[i]? = some a := by
  unfold atIndex
  split <;> simp_all

namespace App
variable {μ : Type} (app : App μ)

/-- The request of the selected authenticator carries its id. -/
def identified (request : AuthenticationRequest) (selected : InitializedAuthenticator μ) : AuthenticationRequest :=
  { request with authenticatorId := decimal selected.id.toNat }

/-- One turn of the loop. The account is printed as bytes here, and a failed lookup prints the id 0. -/
def confirmMsg (feeTx : FeeTx) (tx : Tx) (simulate : Bool) (selected : List UInt64) (msgIndex : Nat) (msg : Msg) :
    Attempt (Context μ) Failure Unit := do
  let signers ← Attempt.lift (liftErr msg.signers)
  let account ← Attempt.lift (atIndex signers 0)
  let id ← Attempt.lift (atIndex selected msgIndex)
  let auth ← (Context.query (app.getInitializedAuthenticatorForAccount account id)).mapFailure
    (fun _ => Failure.wrap (describe (text "failed to get initialized authenticator") account (text "0") msgIndex msg))
  let request ← (Context.query (app.generateAuthenticationRequest account feeTx.feePayer feeTx msg tx msgIndex simulate
      noReplayProtection)).mapFailure
    (fun _ => Failure.wrap (describe (text "failed to generate authentication data") account (decimal auth.id.toNat)
      msgIndex msg))
  (Context.recorded (.confirmExecution (identified request auth))
      (Context.perform (auth.authenticator.confirmExecution (identified request auth)))).mapFailure
    (fun _ => Failure.wrap
      (describe (text "execution blocked by authenticator") account (Keeper.printInt id) msgIndex msg))

def confirmMsgs (feeTx : FeeTx) (tx : Tx) (simulate : Bool) (selected : List UInt64) :
    Nat → List Msg → Attempt (Context μ) Failure Unit
  | _, [] => pure ()
  | msgIndex, msg :: msgs => do
    app.confirmMsg feeTx tx simulate selected msgIndex msg
    confirmMsgs feeTx tx simulate selected (msgIndex + 1) msgs

/-- `skip` is the decorator's own next handler, `next` the one of the chain. -/
def postHandle (skip next : Bool → Attempt (Context μ) Failure Unit) (tx : Tx) (simulate success : Bool) :
    Attempt (Context μ) Failure Unit := do
  let (active, selected) ← app.isCircuitBreakActive tx
  match active with
  | true => skip success
  | false =>
    match tx.feeTx with
    | none => Attempt.lift (.error (.err (Err.of .txDecode (text "Tx must be a FeeTx"))))
    | some feeTx => do
      app.confirmMsgs feeTx tx simulate selected 0 tx.msgs
      next (success || !tx.msgs.isEmpty)

/-- The chain of the app: nothing follows the decorator, on either path. -/
def newPostHandler (tx : Tx) (simulate success : Bool) : Attempt (Context μ) Failure Unit :=
  app.postHandle (fun _ => pure ()) (fun _ => pure ()) tx simulate success

end App
end Terpz.SmartAccount
