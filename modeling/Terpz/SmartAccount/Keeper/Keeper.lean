import Terpz.SmartAccount.Context

/-! The smart-account keeper: parameters, the authenticator an account has selected, and the extension that
selects it. -/
namespace Terpz.SmartAccount
open Lib

def keySeparator : Text := text "|"

/-- Joins the printed elements, with a separator after each. -/
def buildKey (elements : List Text) : Bytes := elements.flatMap (fun e => e ++ keySeparator)

/-- How `fmt.Sprint` prints the prefix bytes 1 and 2. -/
def nextAccountAuthenticatorIdPrefix : Text := text "[1]"
def accountAuthenticatorsPrefix : Text := text "[2]"

def keyNextAccountAuthenticatorId : Bytes := buildKey [nextAccountAuthenticatorIdPrefix]

def keyAccountAuthenticatorsPrefixId : Bytes := buildKey [accountAuthenticatorsPrefix]

/-- `account` is the printed address. -/
def keyAccount (account : Text) : Bytes := buildKey [accountAuthenticatorsPrefix, account]

def keyAccountId (account : Text) (id : UInt64) : Bytes :=
  buildKey [accountAuthenticatorsPrefix, account, decimal id.toNat]

structure AccountAuthenticator where
  id : UInt64
  type : Text
  config : Bytes
  deriving DecidableEq, Repr

structure Params where
  maximumUnauthenticatedGas : UInt64
  isSmartAccountActive : Bool
  circuitBreakerControllers : List Text
  deriving DecidableEq, Repr

/-- The parameter store. What is set is read back, the flag as a JSON boolean. -/
structure ParamSpace (μ : Type) where
  /-- `GetRaw` of the activity flag. -/
  getRaw : Store → Bytes
  getParamSet : Store → Except Failure Params
  setParamSet : Params → Effect μ
  getRaw_set : ∀ p v m o m', setParamSet p v m = ((o, m'), .ok ()) →
    getRaw (v.over o) = text (if p.isSmartAccountActive then "true" else "false")

/-- What is read from a store, for its gas. -/
inductive Access where
  | key (k : StoreKey)
  | isSmartAccountActive
  | params
  | account (address : Bytes)

structure Keeper (μ : Type) where
  gas : GasMeters μ
  /-- The gas a read spends. -/
  readGas : Access → Query μ Unit
  paramSpace : ParamSpace μ
  circuitBreakerGovernor : Bytes
  unmarshal : Bytes → Except Err AccountAuthenticator
  /-- `Initialize` of the registered types. -/
  getAuthenticatorByType : Text → Option (Bytes → Except Failure (Impl μ))
  /-- `UnpackAny` into the transaction options; an empty message unpacks to nothing. -/
  unpackAny : LocalAny → Except Err (Option (List UInt64))
  /-- `AccAddress.String`. -/
  addressString : Bytes → Text
  accAddressFromBech32 : Text → Except Err Bytes

namespace Keeper
variable {μ : Type} (k : Keeper μ)

def getParams : Query μ Params := fun v => do
  k.readGas .params v
  Attempt.lift (k.paramSpace.getParamSet v)

/-- The stored flag. -/
def getRaw : Query μ Bytes := fun v => do
  k.readGas .isSmartAccountActive v
  pure (k.paramSpace.getRaw v)

/-- The keeper decodes the flag unless it is the one it decoded last. -/
def decodeActive (bz : Bytes) : Attempt (Context μ) Failure Bool := fun ctx =>
  ({ ctx with memo := ctx.memo.refresh bz }, .ok (ctx.memo.refresh bz).isSmartAccountActiveVal)

def getIsSmartAccountActive : Attempt (Context μ) Failure Bool := do
  let bz ← Context.query k.getRaw
  decodeActive bz

/-- `SetActiveState` of the keeper. -/
def setActiveState (active : Bool) : Attempt (Context μ) Failure Unit := do
  let params ← Context.query k.getParams
  Context.perform (k.paramSpace.setParamSet { params with isSmartAccountActive := active })

def accountKey (account : Bytes) (selected : UInt64) : StoreKey :=
  (text "smartaccount", keyAccountId (k.addressString account) selected)

/-- `%d` of an id that was converted to `int`. -/
def printInt (selected : UInt64) : Text := signedDecimal selected.toInt64.toInt

/-- The record found under the key of the selected authenticator. -/
def selectedAuthenticatorData (account : Bytes) (selected : UInt64) (found : Option Bytes) :
    Except Failure AccountAuthenticator :=
  match found with
  | none => .error (.err (Err.of .invalidRequest
      (text "authenticator " ++ printInt selected ++ text " not found for account " ++ k.addressString account)))
  | some bz =>
    match k.unmarshal bz with
    | .error e => .error (.err (e.wrap (text "failed to unmarshal account authenticator")))
    | .ok stored => .ok stored

def initializeStored (selected : UInt64) (stored : AccountAuthenticator) :
    Except Failure (InitializedAuthenticator μ) :=
  match k.getAuthenticatorByType stored.type with
  | none => .error (.err (Err.of .logic (text "authenticator id " ++ printInt selected ++
      text " failed to initialize, authenticator type " ++ stored.type ++ text " not registered in manager")))
  | some initializeImpl =>
    match initializeImpl stored.config with
    | .error f => .error (f.wrap (text "authenticator " ++ printInt selected ++ text " with type " ++ stored.type ++
        text " failed to initialize"))
    | .ok impl => .ok ⟨stored.id, impl⟩

/-- The authenticator that a store holds for an account under an id. -/
def initializedAuthenticator (v : Store) (account : Bytes) (selected : UInt64) :
    Except Failure (InitializedAuthenticator μ) := do
  let stored ← k.selectedAuthenticatorData account selected (v (k.accountKey account selected))
  k.initializeStored selected stored

def getInitializedAuthenticatorForAccount (account : Bytes) (selected : UInt64) :
    Query μ (InitializedAuthenticator μ) := fun v => do
  k.readGas (.key (k.accountKey account selected)) v
  Attempt.lift (k.initializedAuthenticator v account selected)

/-- The options of the first extension that unpacks. -/
def getAuthenticatorExtension : List LocalAny → Option (List UInt64)
  | [] => none
  | ext :: exts =>
    match k.unpackAny ext with
    | .ok options => options
    | .error _ => getAuthenticatorExtension exts

/-- A lookup that returns found its authenticator in the store. -/
theorem getInitialized_ok {account : Bytes} {selected : UInt64} {v : Store} {m : μ} {a : InitializedAuthenticator μ}
    (h : (k.getInitializedAuthenticatorForAccount account selected v m).2 = .ok a) :
    k.initializedAuthenticator v account selected = .ok a := by
  obtain ⟨_, -, ha⟩ := Attempt.bind_eq_ok.mp h
  exact ha

theorem metered_getIsSmartAccountActive (ctx : Context μ) : Context.Metered ctx (k.getIsSmartAccountActive ctx).1 := by
  have hm := Context.metered_setMeter ctx (k.getRaw ctx.store.view ctx.meter).1
  unfold getIsSmartAccountActive
  rw [Attempt.bind_apply, Context.query]
  rcases hraw : k.getRaw ctx.store.view ctx.meter with ⟨m, _ | bz⟩ <;> rw [hraw] at hm
  · exact hm
  · exact ⟨hm.store, hm.onPayer, hm.trace⟩

end Keeper
end Terpz.SmartAccount
