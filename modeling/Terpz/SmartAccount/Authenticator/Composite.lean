import Terpz.SmartAccount.Types

/-! Composite authenticators. `AllOf` asks its sub-authenticators in order until one fails, `AnyOf` until one
succeeds; the partitioned ones hand out the parts of the signature, the others the whole. -/
namespace Terpz.SmartAccount
open Lib

inductive SignatureAssignment where
  | single
  | partitioned
  deriving DecidableEq, Repr

/-- An initialized authenticator that is not a composition. -/
structure Leaf (κ ν : Type) where
  type : Text
  authenticate : AuthenticationRequest → Call κ ν
  confirmExecution : AuthenticationRequest → Call κ ν

inductive Authenticator (κ ν : Type) where
  | leaf (l : Leaf κ ν)
  | allOf (signatureAssignment : SignatureAssignment) (subAuthenticators : List (Authenticator κ ν))
  | anyOf (signatureAssignment : SignatureAssignment) (subAuthenticators : List (Authenticator κ ν))

def Authenticator.type {κ ν : Type} : Authenticator κ ν → Text
  | .leaf l => l.type
  | .allOf .single _ => text "AllOf"
  | .allOf .partitioned _ => text "PartitionedAllOf"
  | .anyOf .single _ => text "AnyOf"
  | .anyOf .partitioned _ => text "PartitionedAnyOf"

structure SubAuthenticatorInitData where
  type : Text
  config : Bytes

/-- The JSON decoders; a decoded configuration is shorter than the text it stood in. -/
structure Codec where
  unmarshalSignatures : Bytes → Option (List Bytes)
  unmarshalInitDatas : Bytes → Except Err (List SubAuthenticatorInitData)
  config_lt : ∀ config initDatas, unmarshalInitDatas config = .ok initDatas →
    ∀ d ∈ initDatas, d.config.length < config.length

/-- What the manager has registered under a type. -/
inductive Code (κ ν : Type) where
  | leaf (initializeLeaf : Bytes → Except Err (Leaf κ ν))
  | allOf (signatureAssignment : SignatureAssignment)
  | anyOf (signatureAssignment : SignatureAssignment)

abbrev AuthenticatorManager (κ ν : Type) := Text → Option (Code κ ν)

namespace AuthenticatorManager
variable {κ ν : Type} (am : AuthenticatorManager κ ν) (cdc : Codec)

/-- A type that is not registered is a nil interface, and calling it panics. -/
def initializeSub (rec : Code κ ν → Bytes → Except Err (Authenticator κ ν)) (d : SubAuthenticatorInitData) :
    Except Err (Authenticator κ ν) :=
  match am d.type with
  | none => .error (Err.of .panic (text "invalid memory address or nil pointer dereference"))
  | some code =>
    match rec code d.config with
    | .error e => .error (e.wrap (text "failed to initialize sub-authenticator (type = " ++ d.type ++ text ")"))
    | .ok sub => .ok sub

def initializeSubs (rec : Code κ ν → Bytes → Except Err (Authenticator κ ν)) :
    List SubAuthenticatorInitData → Except Err (List (Authenticator κ ν))
  | [] => .ok []
  | d :: ds => do
    let sub ← initializeSub am rec d
    let subs ← initializeSubs rec ds
    .ok (sub :: subs)

/-- The sub-authenticators of a composition; all are initialized or the composition is refused. -/
def initializeComposite (rec : Code κ ν → Bytes → Except Err (Authenticator κ ν)) (name : Text) (config : Bytes) :
    Except Err (List (Authenticator κ ν)) := do
  let initDatas ← (cdc.unmarshalInitDatas config).mapError
    (fun e => e.wrap (text "failed to parse sub-authenticators initialization data"))
  failIf (initDatas.length ≤ 1) (Err.of .invalidRequest (name ++ text " must have at least 2 sub-authenticators"))
  let subs ← initializeSubs am rec initDatas
  failIf (subs.length ≠ initDatas.length) (Err.of .invalidRequest (text "failed to initialize all sub-authenticators"))
  .ok subs

/-- The depth of the nesting is bounded by the length of the configuration. -/
def initializeFuel : Nat → Code κ ν → Bytes → Except Err (Authenticator κ ν)
  | 0, _, _ => .error (Err.of .panic (text "stack overflow"))
  | _ + 1, .leaf initializeLeaf, config => (initializeLeaf config).map .leaf
  | n + 1, .allOf a, config => (initializeComposite am cdc (initializeFuel n) (text "allOf") config).map (.allOf a)
  | n + 1, .anyOf a, config => (initializeComposite am cdc (initializeFuel n) (text "anyOf") config).map (.anyOf a)

def initializeAuthenticator (code : Code κ ν) (config : Bytes) : Except Err (Authenticator κ ν) :=
  initializeFuel am cdc (config.length + 1) code config

section Fuel
variable {am cdc} {rec rec' : Code κ ν → Bytes → Except Err (Authenticator κ ν)}

private theorem initializeSubs_congr {initDatas : List SubAuthenticatorInitData}
    (h : ∀ d ∈ initDatas, ∀ code, rec code d.config = rec' code d.config) :
    initializeSubs am rec initDatas = initializeSubs am rec' initDatas := by
  induction initDatas with
  | nil => rfl
  | cons d ds ih =>
    have hone : initializeSub am rec d = initializeSub am rec' d := by
      unfold initializeSub
      cases am d.type with
      | none => rfl
      | some code => simp only [h d List.mem_cons_self code]
    rw [initializeSubs, initializeSubs, hone, ih (fun d' hd' => h d' (List.mem_cons_of_mem _ hd'))]

private theorem initializeComposite_congr {config : Bytes}
    (h : ∀ code c, c.length < config.length → rec code c = rec' code c) (name : Text) :
    initializeComposite am cdc rec name config = initializeComposite am cdc rec' name config := by
  unfold initializeComposite
  cases hdatas : cdc.unmarshalInitDatas config with
  | error e => rfl
  | ok initDatas =>
    have hsubs : initializeSubs am rec initDatas = initializeSubs am rec' initDatas :=
      initializeSubs_congr (fun d hd code => h code d.config (cdc.config_lt config initDatas hdatas d hd))
    simp only [Except.mapError, bind, Except.bind, hsubs]

private theorem initializeFuel_eq {n m : Nat} (code : Code κ ν) {config : Bytes} (hn : config.length < n)
    (hm : config.length < m) : initializeFuel am cdc n code config = initializeFuel am cdc m code config := by
  induction n generalizing m code config with
  | zero => omega
  | succ n ih =>
    cases m with
    | zero => omega
    | succ m =>
      have hrec (code' : Code κ ν) (c : Bytes) (hc : c.length < config.length) :
          initializeFuel am cdc n code' c = initializeFuel am cdc m code' c := ih code' (by omega) (by omega)
      cases code with
      | leaf initializeLeaf => rfl
      | allOf a => rw [initializeFuel, initializeFuel, initializeComposite_congr hrec]
      | anyOf a => rw [initializeFuel, initializeFuel, initializeComposite_congr hrec]

/-- The bound on the nesting is never met: `Initialize` calls itself. -/
theorem initialize_eq (code : Code κ ν) (config : Bytes) : initializeAuthenticator am cdc code config =
    match code with
    | .leaf initializeLeaf => (initializeLeaf config).map .leaf
    | .allOf a => (initializeComposite am cdc (initializeAuthenticator am cdc) (text "allOf") config).map (.allOf a)
    | .anyOf a =>
        (initializeComposite am cdc (initializeAuthenticator am cdc) (text "anyOf") config).map (.anyOf a) := by
  have hrec (code' : Code κ ν) (c : Bytes) (hc : c.length < config.length) :
      initializeFuel am cdc config.length code' c = initializeAuthenticator am cdc code' c :=
    initializeFuel_eq code' hc (Nat.lt_succ_self _)
  cases code with
  | leaf initializeLeaf => rfl
  | allOf a => rw [initializeAuthenticator, initializeFuel, initializeComposite_congr hrec]
  | anyOf a => rw [initializeAuthenticator, initializeFuel, initializeComposite_congr hrec]

end Fuel

end AuthenticatorManager

def compositeId (baseId : Text) (subId : Nat) : Text := baseId ++ text "." ++ decimal subId

namespace Codec
variable (cdc : Codec)

def splitSignatures (signature : Bytes) (total : Nat) : Except Err (List Bytes) :=
  match cdc.unmarshalSignatures signature with
  | none => .error (Err.of .invalidRequest (text "failed to parse signatures"))
  | some signatures =>
    if signatures.length ≠ total then .error (Err.of .invalidRequest (text "invalid number of signatures"))
    else .ok signatures

/-- The parts a composition hands out; one that is not partitioned has none. -/
def signaturesFor (a : SignatureAssignment) (signature : Bytes) (total : Nat) : Except Err (List Bytes) :=
  match a with
  | .single => .ok []
  | .partitioned => cdc.splitSignatures signature total

end Codec

/-- The request of the loop after it was updated for one sub-authenticator. -/
def AuthenticationRequest.forSub (request : AuthenticationRequest) (a : SignatureAssignment) (signatures : List Bytes)
    (baseId : Text) (i : Nat) : AuthenticationRequest :=
  { request with
    authenticatorId := compositeId baseId i
    signature := match a with
      | .single => request.signature
      | .partitioned => signatures.getD i [] }

/-- The line for one failed sub-authenticator. -/
def subError (type id : Text) (e : Err) : Text :=
  text "[" ++ type ++ text " (id = " ++ id ++ text ")] " ++ e.message ++ text "; "

def joinErrors : List Text → Text
  | [] => []
  | [e] => e
  | e :: es => e ++ text "; " ++ joinErrors es

namespace Authenticator
variable {κ ν : Type} [DecidableEq κ] (cdc : Codec)

section Authenticate

mutual
def authenticate (ctx : Cache κ ν) (request : AuthenticationRequest) : Authenticator κ ν → Cache κ ν × Except Err Unit
  | .leaf l => perform ctx (l.authenticate request)
  | .allOf a subs =>
    if subs.length = 0 then (ctx, .error (Err.of .invalidRequest (text "no sub-authenticators provided")))
    else
      match cdc.signaturesFor a request.signature subs.length with
      | .error e => (ctx, .error e)
      | .ok signatures => authenticateAll a signatures request.authenticatorId 0 ctx request subs
  | .anyOf a subs =>
    if subs.length = 0 then (ctx, .error (Err.of .invalidRequest (text "no sub-authenticators provided")))
    else
      match cdc.signaturesFor a request.signature subs.length with
      | .error e => (ctx, .error e)
      | .ok signatures => authenticateAny a signatures request.authenticatorId 0 ctx request [] subs

def authenticateAll (a : SignatureAssignment) (signatures : List Bytes) (baseId : Text) (i : Nat) (ctx : Cache κ ν)
    (request : AuthenticationRequest) : List (Authenticator κ ν) → Cache κ ν × Except Err Unit
  | [] => (ctx, .ok ())
  | auth :: subs =>
    match auth.authenticate ctx (request.forSub a signatures baseId i) with
    | (ctx, .error e) => (ctx, .error e)
    | (ctx, .ok _) =>
      authenticateAll a signatures baseId (i + 1) ctx (request.forSub a signatures baseId i) subs

/-- The errors of the sub-authenticators asked so far are carried along. -/
def authenticateAny (a : SignatureAssignment) (signatures : List Bytes) (baseId : Text) (i : Nat) (ctx : Cache κ ν)
    (request : AuthenticationRequest) (errs : List Text) : List (Authenticator κ ν) → Cache κ ν × Except Err Unit
  | [] =>
    if errs = [] then (ctx, .ok ())
    else (ctx, .error (Err.of .unauthorized (text "all sub-authenticators failed to authenticate: " ++
        joinErrors errs)))
  | auth :: subs =>
    match auth.authenticate ctx (request.forSub a signatures baseId i) with
    | (ctx, .ok _) => (ctx, .ok ())
    | (ctx, .error e) =>
      authenticateAny a signatures baseId (i + 1) ctx (request.forSub a signatures baseId i)
        (errs ++ [subError auth.type (compositeId baseId i) e]) subs
end

end Authenticate

section Confirm

mutual
def confirmExecution (ctx : Cache κ ν) (request : AuthenticationRequest) :
    Authenticator κ ν → Cache κ ν × Except Err Unit
  | .leaf l => perform ctx (l.confirmExecution request)
  | .allOf a subs =>
    match cdc.signaturesFor a request.signature subs.length with
    | .error e => (ctx, .error e)
    | .ok signatures => confirmAll a signatures request.authenticatorId 0 ctx request subs
  | .anyOf a subs =>
    match cdc.signaturesFor a request.signature subs.length with
    | .error e => (ctx, .error e)
    | .ok signatures => confirmAny a signatures request.authenticatorId 0 ctx request [] subs

def confirmAll (a : SignatureAssignment) (signatures : List Bytes) (baseId : Text) (i : Nat) (ctx : Cache κ ν)
    (request : AuthenticationRequest) : List (Authenticator κ ν) → Cache κ ν × Except Err Unit
  | [] => (ctx, .ok ())
  | auth :: subs =>
    match auth.confirmExecution ctx (request.forSub a signatures baseId i) with
    | (ctx, .error e) => (ctx, .error e)
    | (ctx, .ok _) => confirmAll a signatures baseId (i + 1) ctx (request.forSub a signatures baseId i) subs

/-- Each sub-authenticator runs on a cache of the context, which only the one that succeeds writes through. -/
def confirmAny (a : SignatureAssignment) (signatures : List Bytes) (baseId : Text) (i : Nat) (ctx : Cache κ ν)
    (request : AuthenticationRequest) (errs : List Text) : List (Authenticator κ ν) → Cache κ ν × Except Err Unit
  | [] =>
    (ctx, .error (Err.of .unauthorized (text "all sub-authenticators failed to confirm execution: " ++
        joinErrors errs)))
  | auth :: subs =>
    match auth.confirmExecution ctx.branch (request.forSub a signatures baseId i) with
    | (cacheCtx, .ok _) => (ctx.merge cacheCtx, .ok ())
    | (_, .error e) =>
      confirmAny a signatures baseId (i + 1) ctx (request.forSub a signatures baseId i)
        (errs ++ [subError auth.type (compositeId baseId i) e]) subs
end

end Confirm

end Authenticator
end Terpz.SmartAccount
