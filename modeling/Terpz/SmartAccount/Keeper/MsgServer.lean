import Terpz.SmartAccount.Keeper.Keeper

/-! `MsgSetActiveState`: the circuit breaker governor switches smart accounts on, any controller switches
them off. -/
namespace Terpz.SmartAccount
open Lib

structure MsgSetActiveState where
  sender : Text
  active : Bool
  deriving DecidableEq, Repr

namespace MsgServer
variable {μ : Type} (k : Keeper μ)

/-- `GetSigners`, which panics on an address that does not parse. -/
def getSender (sender : Text) : Except Failure Bytes :=
  match k.accAddressFromBech32 sender with
  | .error e => .error (.panic e.message)
  | .ok address => .ok address

def authorize (active : Bool) (signer : Bytes) : Query μ Unit := fun v =>
  match active with
  | true => Attempt.lift (failIf (signer ≠ k.circuitBreakerGovernor)
      (.err (Err.of .unauthorized (text "signer is not the circuit breaker governor"))))
  | false => do
    let params ← k.getParams v
    Attempt.lift (failIf (k.addressString signer ∉ params.circuitBreakerControllers)
      (.err (Err.of .unauthorized (text "signer is not a circuit breaker controller"))))

def setActiveState (msg : MsgSetActiveState) : Attempt (Context μ) Failure Unit := do
  let signer ← Attempt.lift (getSender k msg.sender)
  Context.query (authorize k msg.active signer)
  k.setActiveState msg.active

end MsgServer
end Terpz.SmartAccount
