import Terpz.Lib.PrefixStore
import Terpz.SmartAccount.Keeper.Keeper

/-! The authenticator registry: records under separator-joined keys, a global counter for the ids, and the genesis
file that is written by scanning the keys and splitting them again. -/
namespace Terpz.SmartAccount
open Lib PrefixStore

/-- The hooks of a registered type; they work on the rest of the chain and leave the registry's own store alone. -/
structure Hooks (ω : Type) where
  onAuthenticatorAdded : Bytes → Bytes → Text → Attempt ω Err Unit
  onAuthenticatorRemoved : Bytes → Bytes → Text → Attempt ω Err Unit

/-- The registered types, the printed form of addresses and the encodings of what is stored. -/
structure Registrar (ω : Type) where
  getAuthenticatorByType : Text → Option (Hooks ω)
  addressString : Bytes → Text
  accAddressFromBech32 : Text → Except Err Bytes
  marshal : AccountAuthenticator → Bytes
  unmarshal : Bytes → Except Err AccountAuthenticator
  unmarshal_marshal : ∀ a, unmarshal (marshal a) = .ok a
  marshalId : UInt64 → Bytes
  unmarshalId : Bytes → Except Err UInt64
  unmarshalId_marshalId : ∀ id, unmarshalId (marshalId id) = .ok id

/-- An account: its printed address parses back and holds no separator. -/
structure Registrar.Address {ω : Type} (k : Registrar ω) where
  bytes : Bytes
  parses : k.accAddressFromBech32 (k.addressString bytes) = .ok bytes
  no_separator : 124 ∉ k.addressString bytes

structure Registry (ω : Type) where
  store : PrefixStore UInt8 UInt8
  world : ω

structure AuthenticatorData where
  address : Text
  authenticators : List AccountAuthenticator
  deriving DecidableEq, Repr

/-- The part of the genesis file that holds the registry. -/
structure RegistryGenesis where
  nextAuthenticatorId : UInt64
  authenticatorData : List AuthenticatorData
  deriving DecidableEq, Repr

def firstAuthenticatorId : UInt64 := 1

namespace Registrar
variable {ω : Type} (k : Registrar ω)

def setStore (key value : Bytes) : Attempt (Registry ω) Err Unit :=
  Attempt.modifyState (fun s => { s with store := s.store.set key value })

def runHook (hook : Attempt ω Err Unit) : Attempt (Registry ω) Err Unit := fun s =>
  ({ s with world := (hook s.world).1 }, (hook s.world).2)

/-- A hook on a cache context that is never written. -/
def tryHook (hook : Attempt ω Err Unit) : Attempt (Registry ω) Err Unit := fun s => (s, (hook s.world).2)

def initializeOrGetNextAuthenticatorId : Attempt (Registry ω) Err UInt64 := fun s =>
  match s.store[keyNextAccountAuthenticatorId]? with
  | none =>
    ({ s with store := s.store.set keyNextAccountAuthenticatorId (k.marshalId firstAuthenticatorId) },
      .ok firstAuthenticatorId)
  | some bz => (s, k.unmarshalId bz)

def setNextAuthenticatorId (id : UInt64) : Attempt (Registry ω) Err Unit :=
  setStore keyNextAccountAuthenticatorId (k.marshalId id)

def recordKey (account : Bytes) (id : UInt64) : Bytes := keyAccountId (k.addressString account) id

def notRegistered (type : Text) : Err := ⟨.other, text "authenticator type " ++ type ++ text " is not registered"⟩

def addAuthenticator (account : Bytes) (type : Text) (config : Bytes) : Attempt (Registry ω) Err UInt64 :=
  match k.getAuthenticatorByType type with
  | none => Attempt.lift (.error (notRegistered type))
  | some impl => do
    let id ← k.initializeOrGetNextAuthenticatorId
    (runHook (impl.onAuthenticatorAdded account config (decimal id.toNat))).mapFailure
      (fun _ e => e.wrap (text "`OnAuthenticatorAdded` failed on authenticator type " ++ type))
    k.setNextAuthenticatorId (id + 1)
    setStore (k.recordKey account id) (k.marshal ⟨id, type, config⟩)
    pure id

/-- The record under the key, for its removal. -/
def existing (account : Bytes) (id : UInt64) (found : Option Bytes) : Except Err AccountAuthenticator :=
  match found with
  | none => .error ⟨.other, text "authenticator with id " ++ decimal id.toNat ++ text " does not exist for account " ++
      k.addressString account⟩
  | some bz => (k.unmarshal bz).mapError (fun e => e.wrap (text "failed to get authenticator"))

def removeAuthenticator (account : Bytes) (id : UInt64) : Attempt (Registry ω) Err Unit := do
  let record ← Attempt.observe (fun s : Registry ω => k.existing account id s.store[k.recordKey account id]?)
  match k.getAuthenticatorByType record.type with
  | none => Attempt.lift (.error (notRegistered record.type))
  | some impl => do
    (runHook (impl.onAuthenticatorRemoved account record.config (decimal id.toNat))).mapFailure
      (fun _ e => e.wrap (text "`OnAuthenticatorRemoved` failed on authenticator type " ++ record.type))
    Attempt.modifyState (fun s => { s with store := s.store.delete (k.recordKey account id) })

def gatherValues : List (Bytes × Bytes) → Except Err (List AccountAuthenticator)
  | [] => .ok []
  | (_, value) :: entries => do
    let record ← (k.unmarshal value).mapError (fun e => e.wrap (text "failed to unmarshal account authenticator"))
    let rest ← gatherValues entries
    .ok (record :: rest)

def getAuthenticatorDataForAccount (s : Registry ω) (account : Bytes) : Except Err (List AccountAuthenticator) :=
  k.gatherValues (s.store.iteratePrefix (keyAccount (k.addressString account)))

/-- A record goes to the last address if that is its own, and opens a new one otherwise. -/
def appendData (data : List AuthenticatorData) (address : Text) (record : AccountAuthenticator) :
    List AuthenticatorData :=
  match data.getLast? with
  | none => data ++ [⟨address, [record]⟩]
  | some last =>
    if last.address ≠ address then data ++ [⟨address, [record]⟩]
    else data.dropLast ++ [{ last with authenticators := last.authenticators ++ [record] }]

def parseEntries : List AuthenticatorData → List (Bytes × Bytes) → Except Err (List AuthenticatorData)
  | data, [] => .ok data
  | data, (key, value) :: entries => do
    let record ← k.unmarshal value
    parseEntries (appendData data ((key.splitOn 124).getD 1 []) record) entries

def getAllAuthenticatorData (s : Registry ω) : Except Err (List AuthenticatorData) :=
  k.parseEntries [] (s.store.iteratePrefix keyAccountAuthenticatorsPrefixId)

/-- Errors are panics here. -/
def exportGenesis : Attempt (Registry ω) Err RegistryGenesis := do
  let next ← k.initializeOrGetNextAuthenticatorId
  let data ← Attempt.observe k.getAllAuthenticatorData
  pure ⟨next, data⟩

def addAuthenticatorWithId (account : Bytes) (record : AccountAuthenticator) : Attempt (Registry ω) Err Unit :=
  match k.getAuthenticatorByType record.type with
  | none => Attempt.lift (.error (notRegistered record.type))
  | some impl => do
    tryHook (impl.onAuthenticatorAdded account record.config (decimal record.id.toNat))
    setStore (k.recordKey account record.id) (k.marshal record)

def addRecords (account : Bytes) : List AccountAuthenticator → Attempt (Registry ω) Err Unit
  | [] => pure ()
  | record :: records => do
    k.addAuthenticatorWithId account record
    addRecords account records

def addData : List AuthenticatorData → Attempt (Registry ω) Err Unit
  | [] => pure ()
  | d :: data => do
    let account ← Attempt.lift (k.accAddressFromBech32 d.address)
    k.addRecords account d.authenticators
    addData data

/-- Errors are panics here too. -/
def initGenesis (genState : RegistryGenesis) : Attempt (Registry ω) Err Unit := do
  k.setNextAuthenticatorId (if genState.nextAuthenticatorId = 0 then firstAuthenticatorId
      else genState.nextAuthenticatorId)
  k.addData genState.authenticatorData

end Registrar
end Terpz.SmartAccount
