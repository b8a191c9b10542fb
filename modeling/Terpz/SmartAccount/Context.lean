import Terpz.Lib.Attempt
import Terpz.SmartAccount.Types

/-! Transactions and the context their handlers work on: a cache over the parent store, the gas meter of the
transaction and the one opened for the fee payer, and the calls made so far. -/
namespace Terpz.SmartAccount
open Lib

structure Msg where
  typeUrl : Text
  value : Except Err Bytes
  /-- The answer of `GetMsgV1Signers`. -/
  signers : Except Err (List Bytes)

structure SignatureV2 where
  /-- The bytes of `SingleSignatureData`; none for a multi-signature. -/
  single : Option Bytes
  sequence : UInt64

structure FeeTx where
  feePayer : Bytes
  feeGranter : Bytes
  fee : List (Text × Int)

structure SigTx where
  signatures : Except Err (List SignatureV2)
  signers : Except Err (List Bytes)

/-- A transaction; an interface it does not have is none. Its signers are those of its messages. -/
structure Tx where
  msgs : List Msg
  feeTx : Option FeeTx
  sigTx : Option SigTx
  nonCriticalExtensionOptions : Option (List LocalAny)
  timeoutHeight : Option UInt64
  memo : Option Text
  signers_of_msgs : ∀ st, sigTx = some st → ∀ ss, st.signers = .ok ss →
    ∀ m ∈ msgs, ∀ ms, m.signers = .ok ms → ∀ a ∈ ms, a ∈ ss

/-- How a call ends other than by returning. -/
inductive Failure where
  | err (e : Err)
  | outOfGas (descriptor : Text)
  | panic (value : Text)
  deriving DecidableEq, Repr

/-- An error under a description; a panic passes. -/
def Failure.wrap (description : Text) : Failure → Failure
  | .err e => .err (e.wrap description)
  | f => f

def failure {α : Type} : Except Failure α → Option Failure
  | .ok _ => none
  | .error f => some f

/-- A store of the chain and a key in it. -/
abbrev StoreKey := Text × Bytes

abbrev Store := View StoreKey Bytes

structure GasMeters (μ : Type) where
  newGasMeter : UInt64 → μ
  gasConsumed : μ → UInt64
  consumeGas : UInt64 → Text → Attempt μ Failure Unit

/-- A call that reads the store and spends gas. -/
abbrev Query (μ α : Type) := Store → Attempt μ Failure α

/-- A call that may also write; its writes stand also when it fails. -/
abbrev Effect (μ : Type) := Store → μ → (Overlay StoreKey Bytes × μ) × Except Failure Unit

/-- The methods of an initialized authenticator. -/
structure Impl (μ : Type) where
  type : Text
  staticGas : UInt64
  authenticate : AuthenticationRequest → Effect μ
  track : AuthenticationRequest → Effect μ
  confirmExecution : AuthenticationRequest → Effect μ

structure InitializedAuthenticator (μ : Type) where
  id : UInt64
  authenticator : Impl μ

/-- The calls the handlers make, with the failure they ended in. -/
inductive Event where
  | authenticate (request : AuthenticationRequest) (failure : Option Failure)
  | deductFee (failure : Option Failure)
  | track (request : AuthenticationRequest) (failure : Option Failure)
  | confirmExecution (request : AuthenticationRequest) (failure : Option Failure)
  | next
  deriving DecidableEq, Repr

def trimSpace (bz : Bytes) : Bytes :=
  let isSpace (b : UInt8) : Bool := b = 32 ∨ b = 9 ∨ b = 10 ∨ b = 13
  ((bz.dropWhile isSpace).reverse.dropWhile isSpace).reverse

/-- `json.Unmarshal` into a boolean; what is not one reads as false. -/
def jsonBool (bz : Bytes) : Bool := trimSpace bz = text "true"

/-- The parameter the keeper decoded last. -/
structure ActiveMemo where
  isSmartAccountActiveBz : Bytes
  isSmartAccountActiveVal : Bool
  val_eq : isSmartAccountActiveVal = jsonBool isSmartAccountActiveBz

def ActiveMemo.refresh (m : ActiveMemo) (bz : Bytes) : ActiveMemo :=
  if bz = m.isSmartAccountActiveBz then m else ⟨bz, jsonBool bz, rfl⟩

structure Context (μ : Type) where
  store : Cache StoreKey Bytes
  gasMeter : μ
  payerMeter : μ
  /-- Which of the two meters the context carries. -/
  onPayer : Bool
  memo : ActiveMemo
  trace : List Event

namespace Context
variable {μ α : Type}

/-- A context as the base app hands it to a handler. -/
def start (store : Cache StoreKey Bytes) (gasMeter : μ) (memo : ActiveMemo) : Context μ :=
  ⟨store, gasMeter, gasMeter, false, memo, []⟩

def meter (ctx : Context μ) : μ := if ctx.onPayer then ctx.payerMeter else ctx.gasMeter

def setMeter (ctx : Context μ) (m : μ) : Context μ :=
  if ctx.onPayer then { ctx with payerMeter := m } else { ctx with gasMeter := m }

def query (q : Query μ α) : Attempt (Context μ) Failure α := fun ctx =>
  (ctx.setMeter (q ctx.store.view ctx.meter).1, (q ctx.store.view ctx.meter).2)

/-- A call on the context itself. -/
def perform (effect : Effect μ) : Attempt (Context μ) Failure Unit := fun ctx =>
  let out := effect ctx.store.view ctx.meter
  ({ ctx.setMeter out.1.2 with store := ctx.store.extend out.1.1 }, out.2)

/-- A call on a cache context whose writes are dropped. -/
def performNeverWrite (effect : Effect μ) : Attempt (Context μ) Failure Unit := fun ctx =>
  let out := effect ctx.store.view ctx.meter
  (ctx.setMeter out.1.2, out.2)

/-- A call that is recorded with its failure. -/
def recorded (event : Option Failure → Event) (x : Attempt (Context μ) Failure α) : Attempt (Context μ) Failure α :=
  fun ctx => ({ (x ctx).1 with trace := (x ctx).1.trace ++ [event (failure (x ctx).2)] }, (x ctx).2)

/-- The contexts differ in nothing but the meters. -/
structure Metered (ctx ctx' : Context μ) : Prop where
  store : ctx'.store = ctx.store
  onPayer : ctx'.onPayer = ctx.onPayer
  trace : ctx'.trace = ctx.trace

theorem Metered.refl (ctx : Context μ) : Metered ctx ctx := ⟨rfl, rfl, rfl⟩

theorem Metered.trans {a b c : Context μ} (h : Metered a b) (h' : Metered b c) : Metered a c :=
  ⟨h'.store.trans h.store, h'.onPayer.trans h.onPayer, h'.trace.trans h.trace⟩

theorem metered_setMeter (ctx : Context μ) (m : μ) : Metered ctx (ctx.setMeter m) := by
  unfold setMeter
  split <;> exact ⟨rfl, rfl, rfl⟩

variable {ctx : Context μ} {R : Context μ → Prop}

/-- A query moves a meter only, and answers from the store it sees. -/
theorem meets_query {q : Query μ α} (hR : ∀ s, Metered ctx s → R s) : Attempt.Meets (Metered ctx) (query q)
    (fun a s => Metered ctx s ∧ ∃ m, (q ctx.store.view m).2 = .ok a) R := by
  intro s hs
  have hm := hs.trans (metered_setMeter s (q s.store.view s.meter).1)
  have hview : s.store.view = ctx.store.view := by rw [hs.store]
  simp only [query]
  rcases hq : q s.store.view s.meter with ⟨m, _ | a⟩ <;> rw [hq] at hm
  · exact hR _ hm
  · exact ⟨hm, s.meter, by rw [← hview, hq]⟩

/-- A recorded call: it returned and its writes are in the store, or it failed and is recorded so. -/
theorem meets_recorded_perform (effect : Effect μ) (event : Option Failure → Event) :
    Attempt.Meets (Metered ctx) (recorded event (perform effect))
      (fun _ s => (∃ m o m', effect ctx.store.view m = ((o, m'), .ok ()) ∧ s.store = ctx.store.extend o) ∧
        s.onPayer = ctx.onPayer ∧ s.trace = ctx.trace ++ [event none])
      (fun s => s.store.base = ctx.store.base ∧ ∃ f, s.trace = ctx.trace ++ [event (some f)]) := by
  intro s hs
  have hm := hs.trans (metered_setMeter s (effect s.store.view s.meter).1.2)
  have hview : s.store.view = ctx.store.view := by rw [hs.store]
  simp only [recorded, perform]
  rcases he : effect s.store.view s.meter with ⟨⟨o, m⟩, f | a⟩ <;> rw [he] at hm
  · exact ⟨by rw [hs.store]; rfl, f, by rw [← hm.trace]; rfl⟩
  · exact ⟨⟨s.meter, o, m, by rw [← hview, he], by rw [hs.store]⟩, hm.onPayer, by rw [← hm.trace]; rfl⟩

/-- A recorded call on a cache that is dropped leaves no write. -/
theorem meets_recorded_neverWrite (effect : Effect μ) (event : Option Failure → Event) :
    Attempt.Meets (Metered ctx) (recorded event (performNeverWrite effect))
      (fun _ s => (∃ m o m', effect ctx.store.view m = ((o, m'), .ok ())) ∧ s.store = ctx.store ∧
        s.onPayer = ctx.onPayer ∧ s.trace = ctx.trace ++ [event none])
      (fun s => s.store = ctx.store ∧ ∃ f, s.trace = ctx.trace ++ [event (some f)]) := by
  intro s hs
  have hm := hs.trans (metered_setMeter s (effect s.store.view s.meter).1.2)
  have hview : s.store.view = ctx.store.view := by rw [hs.store]
  simp only [recorded, performNeverWrite]
  rcases he : effect s.store.view s.meter with ⟨⟨o, m⟩, f | a⟩ <;> rw [he] at hm
  · exact ⟨hm.store, f, by rw [← hm.trace]; rfl⟩
  · exact ⟨⟨s.meter, o, m, by rw [← hview, he]⟩, hm.store, hm.onPayer, by rw [← hm.trace]; rfl⟩

end Context
end Terpz.SmartAccount
