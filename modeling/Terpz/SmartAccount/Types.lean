import Terpz.Lib.Text
import Terpz.Lib.Checks
import Terpz.Lib.CacheStore

/-! Errors, authentication requests and the calls an authenticator answers. -/
namespace Terpz.SmartAccount
open Lib

inductive ErrKind where
  | invalidRequest
  | unauthorized
  | txDecode
  | invalidType
  | invalidSequence
  | invalidAddress
  | logic
  | outOfGas
  | panic
  /-- An error of another package, or one without a registered root. -/
  | other
  deriving DecidableEq, Repr

def ErrKind.text : ErrKind → Text
  | .invalidRequest => Lib.text "invalid request"
  | .unauthorized => Lib.text "unauthorized"
  | .txDecode => Lib.text "tx parse error"
  | .invalidType => Lib.text "invalid type"
  | .invalidSequence => Lib.text "incorrect account sequence"
  | .invalidAddress => Lib.text "invalid address"
  | .logic => Lib.text "internal logic error"
  | .outOfGas => Lib.text "out of gas"
  | .panic => Lib.text "panic"
  | .other => []

/-- An error with its root and its whole message. -/
structure Err where
  kind : ErrKind
  message : Text
  deriving DecidableEq, Repr

/-- A registered error under a description. -/
def Err.of (kind : ErrKind) (description : Text) : Err := ⟨kind, description ++ text ": " ++ kind.text⟩

def Err.wrap (e : Err) (description : Text) : Err := ⟨e.kind, description ++ text ": " ++ e.message⟩

structure LocalAny where
  typeUrl : Text
  value : Bytes
  deriving DecidableEq, Repr

structure ExplicitTxData where
  chainId : Text
  accountNumber : UInt64
  accountSequence : UInt64
  timeoutHeight : UInt64
  msgs : List LocalAny
  memo : Text
  deriving DecidableEq, Repr

structure SimplifiedSignatureData where
  signers : List Bytes
  signatures : List Bytes
  deriving DecidableEq, Repr

structure AuthenticationRequest where
  authenticatorId : Text
  account : Bytes
  feePayer : Bytes
  feeGranter : Bytes
  fee : List (Text × Int)
  msg : LocalAny
  msgIndex : UInt64
  signature : Bytes
  signModeDirect : Bytes
  txData : ExplicitTxData
  signatureData : SimplifiedSignatureData
  simulate : Bool
  deriving DecidableEq, Repr

/-- One call of an authenticator on the store it sees: its writes in order, and whether it returned an error. -/
abbrev Call (κ ν : Type) := View κ ν → Writes κ ν × Except Err Unit

/-- The call made on a context: its writes stay in the context also when it fails. -/
def perform {κ ν : Type} [DecidableEq κ] (ctx : Cache κ ν) (call : Call κ ν) : Cache κ ν × Except Err Unit :=
  (ctx.puts (call ctx.view).1, (call ctx.view).2)

end Terpz.SmartAccount
