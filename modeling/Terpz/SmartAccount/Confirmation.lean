import Terpz.SmartAccount.Post
import Terpz.SmartAccount.Keeper.MsgServer
import Terpz.SmartAccount.CompositeFormula

/-! A transaction of the authenticator flow passes the post handler confirmed, unless its own messages switched
smart accounts off. -/
namespace Terpz.SmartAccount
open Lib

/-- A tree as the handlers call it. The composite model spends no gas of its own; what the tree tracks is a
parameter. -/
def Authenticator.toImpl {μ : Type} (cdc : Codec) (staticGas : UInt64) (track : AuthenticationRequest → Effect μ)
    (t : Authenticator StoreKey Bytes) : Impl μ where
  type := t.type
  staticGas := staticGas
  authenticate request v m :=
    let out := t.authenticate cdc (.fresh v) request
    ((out.1.dirty, m), out.2.mapError .err)
  track := track
  confirmExecution request v m :=
    let out := t.confirmExecution cdc (.fresh v) request
    ((out.1.dirty, m), out.2.mapError .err)

namespace App
variable {μ : Type} (app : App μ)

def selected (tx : Tx) : List UInt64 := (app.isSelectedAuthenticatorTxExtensionMissing tx).2

/-- The calls that confirm the messages from an index on: each by the authenticator that its signer has under the
selected id, on the store that the calls before left. -/
inductive Confirmed (tx : Tx) (simulate : Bool) : Nat → List Msg → Store → List Event → Store → Prop where
  | nil (i : Nat) (v : Store) : Confirmed tx simulate i [] v [] v
  | cons {i : Nat} {msg : Msg} {msgs : List Msg} {v v' : Store} {es : List Event} {account : Bytes}
    {others : List Bytes} {id : UInt64} {auth : InitializedAuthenticator μ} {feeTx : FeeTx}
    {request : AuthenticationRequest} {m m' m'' : μ} {o : Overlay StoreKey Bytes}
    (signer : msg.signers = .ok (account :: others))
    (select : (app.selected tx)[i]? = some id)
    (stored : app.initializedAuthenticator v account id = .ok auth)
    (feeTx_eq : tx.feeTx = some feeTx)
    (requested : (app.generateAuthenticationRequest account feeTx.feePayer feeTx msg tx i simulate noReplayProtection
      v m).2 = .ok request)
    (confirmed : auth.authenticator.confirmExecution (identified request auth) v m' = ((o, m''), .ok ()))
    (rest : Confirmed tx simulate (i + 1) msgs (v.over o) es v') :
    Confirmed tx simulate i (msg :: msgs) v (.confirmExecution (identified request auth) none :: es) v'

/-- Every message was confirmed on the way from one context to the other. -/
def ConfirmsAll (tx : Tx) (simulate : Bool) (ctx ctx' : Context μ) : Prop :=
  ∃ es, ctx'.trace = ctx.trace ++ es ∧ app.Confirmed tx simulate 0 tx.msgs ctx.store.view es ctx'.store.view

variable {app} {tx : Tx} {simulate : Bool}

/-- There is one call for each message. -/
theorem Confirmed.length_eq {i : Nat} {msgs : List Msg} {v v' : Store} {es : List Event}
    (h : app.Confirmed tx simulate i msgs v es v') : es.length = msgs.length := by
  induction h with
  | nil => rfl
  | cons _ _ _ _ _ _ _ ih => rw [List.length_cons, List.length_cons, ih]

/-- A confirmed message is one call on the store, recorded without a failure. -/
private theorem meets_confirmMsg {feeTx : FeeTx} (hfee : tx.feeTx = some feeTx) (i : Nat) (msg : Msg)
    (ctx : Context μ) :
    Attempt.Meets (Context.Metered ctx) (app.confirmMsg feeTx tx simulate (app.selected tx) i msg)
      (fun _ s => ∃ e o, s.trace = ctx.trace ++ [e] ∧ s.store.view = ctx.store.view.over o ∧
        ∀ msgs es v', app.Confirmed tx simulate (i + 1) msgs (ctx.store.view.over o) es v' →
          app.Confirmed tx simulate i (msg :: msgs) ctx.store.view (e :: es) v')
      (fun _ => True) := by
  refine .bind_fact (.lift (fun _ _ => trivial)) (fun signers hsigners => ?_)
  refine .bind_fact (.lift (fun _ _ => trivial)) (fun account haccount => ?_)
  refine .bind_fact (.lift (fun _ _ => trivial)) (fun id hid => ?_)
  refine .bind_fact (.mapFailure (Context.meets_query (fun _ _ => trivial))) (fun auth ⟨m, hauth⟩ => ?_)
  refine .bind_fact (.mapFailure (Context.meets_query (fun _ _ => trivial))) (fun request ⟨m', hrequest⟩ => ?_)
  refine (Context.meets_recorded_perform _ _).mapFailure.weaken (fun _ h => h) ?_ (fun _ _ => trivial)
  rintro - s ⟨⟨n, o, n', hconfirm, hstore⟩, -, htrace⟩
  refine ⟨_, o, htrace, by rw [hstore, Cache.view_extend], fun msgs es v' hrest => ?_⟩
  obtain ⟨hlt, hhead⟩ := List.getElem?_eq_some_iff.mp (atIndex_eq_ok.mp haccount)
  obtain ⟨account', others, rfl⟩ := List.exists_cons_of_length_pos hlt
  cases hhead
  exact .cons (liftErr_eq_ok.mp hsigners) (atIndex_eq_ok.mp hid)
      (app.getInitialized_ok hauth) hfee hrequest hconfirm hrest

private theorem meets_confirmMsgs {feeTx : FeeTx} (hfee : tx.feeTx = some feeTx) (msgs : List Msg) :
    ∀ (i : Nat) (ctx : Context μ), Attempt.Meets (fun s => s.store.view = ctx.store.view ∧ s.trace = ctx.trace)
      (app.confirmMsgs feeTx tx simulate (app.selected tx) i msgs)
      (fun _ s => ∃ es, s.trace = ctx.trace ++ es ∧ app.Confirmed tx simulate i msgs ctx.store.view es s.store.view)
      (fun _ => True) := by
  induction msgs with
  | nil =>
    intro i ctx
    refine .pure () ?_
    rintro s ⟨hview, htrace⟩
    exact ⟨[], by rw [htrace, List.append_nil], hview ▸ .nil i _⟩
  | cons msg msgs ih =>
    rintro i ctx s ⟨hview, htrace⟩
    -- the message starts from the context it finds, the rest from the one it leaves
    refine Attempt.Meets.bind (meets_confirmMsg hfee i msg s) ?_ s (.refl s)
    rintro - s' ⟨e, o, htrace', hview', hcons⟩
    refine (ih (i + 1) s').weaken (fun _ h => h) ?_ (fun _ h => h) s' ⟨rfl, rfl⟩
    rintro - t ⟨es, ht, hrest⟩
    refine ⟨e :: es, by rw [ht, htrace', htrace, List.append_assoc, List.singleton_append], ?_⟩
    rw [← hview]
    exact hcons msgs es _ (hview' ▸ hrest)

/-- With smart accounts off the handler returns at once. -/
private theorem newPostHandler_inactive {ctx : Context μ} (h : (app.getIsSmartAccountActive ctx).2 = .ok false)
    (success : Bool) :
    app.newPostHandler tx simulate success ctx = ((app.isCircuitBreakActive tx ctx).1, .ok ()) := by
  have hrun : app.isCircuitBreakActive tx ctx = ((app.isCircuitBreakActive tx ctx).1, .ok (true, [])) :=
    Prod.ext rfl (Keeper.isCircuitBreakActive_of_inactive h)
  exact Attempt.bind_apply_ok hrun _

private theorem confirmsAll_of_active {ctx : Context μ} (h : (app.getIsSmartAccountActive ctx).2 = .ok true)
    (hext : (app.isSelectedAuthenticatorTxExtensionMissing tx).1 = false) (success : Bool)
    (hok : (app.newPostHandler tx simulate success ctx).2 = .ok ()) :
    app.ConfirmsAll tx simulate ctx (app.newPostHandler tx simulate success ctx).1 := by
  have hrun : app.isCircuitBreakActive tx ctx = ((app.isCircuitBreakActive tx ctx).1, .ok (false, app.selected tx)) :=
    Prod.ext rfl ((Keeper.isCircuitBreakActive_of_active h).trans (congrArg Except.ok (Prod.ext hext rfl)))
  have hframe := Keeper.metered_isCircuitBreakActive (k := app.toKeeper) tx ctx
  have hpost : app.newPostHandler tx simulate success ctx = _ := Attempt.bind_apply_ok hrun _
  rw [hpost] at hok ⊢
  cases hfee : tx.feeTx with
  | none =>
    simp only [hfee] at hok
    cases hok
  | some feeTx =>
    simp only [hfee] at hok ⊢
    refine Attempt.Meets.of_ok (P := fun s => s.store.view = ctx.store.view ∧ s.trace = ctx.trace)
      (R := fun _ => True) (.bind (meets_confirmMsgs hfee tx.msgs 0 ctx) (fun _ => .pure () (fun _ hs => hs)))
      ⟨by rw [hframe.store], hframe.trace⟩ hok

end App

/-- A routed transaction that passes the post handler had every message confirmed, exactly if it has no message or
its messages did not leave smart accounts switched off. -/
theorem confirmation_not_escaped_iff {μ : Type} (app : App μ) (before after : Context μ) (tx : Tx)
    (simulate success : Bool) :
    (app.Routed before tx → (app.newPostHandler tx simulate success after).2 = .ok () →
      app.ConfirmsAll tx simulate after (app.newPostHandler tx simulate success after).1) ↔
    (app.Routed before tx → tx.msgs = [] ∨ (app.getIsSmartAccountActive after).2 ≠ .ok false) := by
  have hframe := Keeper.metered_isCircuitBreakActive (k := app.toKeeper) tx after
  constructor
  · intro h hrouted
    by_contra hcond
    obtain ⟨hmsgs, hoff⟩ := not_or.mp hcond
    have hpost : app.newPostHandler tx simulate success after = _ :=
      App.newPostHandler_inactive (not_not.mp hoff) success
    obtain ⟨es, htrace, hconfirmed⟩ := h hrouted (by rw [hpost])
    rw [hpost, hframe.trace, List.self_eq_append_right] at htrace
    subst htrace
    exact hmsgs (List.length_eq_zero_iff.mp hconfirmed.length_eq.symm)
  · intro hcond hrouted hok
    obtain ⟨-, hext⟩ := Keeper.routed_iff.mp hrouted
    obtain ⟨⟨_, _⟩, hbreak, -⟩ := Attempt.bind_eq_ok.mp hok
    obtain ⟨active, hactive, -⟩ := Attempt.bind_eq_ok.mp hbreak
    cases active with
    | true => exact App.confirmsAll_of_active hactive hext success hok
    | false =>
      have hmsgs := (hcond hrouted).resolve_right (not_not.mpr hactive)
      refine ⟨[], ?_, ?_⟩
      · rw [App.newPostHandler_inactive hactive, hframe.trace, List.append_nil]
      · rw [App.newPostHandler_inactive hactive, hframe.store, hmsgs]
        exact .nil 0 _

/-! An app with one controller, whose account has one authenticator. Deducting fees and tracking write to the store. -/

def controller : Bytes := List.replicate 20 1
def controllerText : Text := text "terp1qyqszqgpqyqszqgpqyqszqgpqyqszqgp4egj80"

def activeKey : StoreKey := (text "params", text "smartaccount/IsSmartAccountActive")
def controllersKey : StoreKey := (text "params", text "smartaccount/CircuitBreakerControllers")

def sampleParamSpace : ParamSpace Nat where
  getRaw v := (v activeKey).getD []
  getParamSet v := .ok
    { maximumUnauthenticatedGas := 120000
      isSmartAccountActive := jsonBool ((v activeKey).getD [])
      circuitBreakerControllers :=
        if v controllersKey = some (text "[\"" ++ controllerText ++ text "\"]") then [controllerText] else [] }
  setParamSet p _ m :=
    let flag := text (if p.isSmartAccountActive then "true" else "false")
    ((fun k => if k = activeKey then some (some flag) else none, m), .ok ())
  getRaw_set p v m o m' h := by
    cases h
    simp [View.over]

/-- A leaf that accepts its account and answers `confirmed` after the messages. -/
def sampleLeaf (confirmed : Bool) : Leaf StoreKey Bytes where
  type := text "Limit"
  authenticate _ _ := ([], .ok ())
  confirmExecution _ _ :=
    ([], failIf (confirmed = false) (Err.of .unauthorized (text "spend limit exceeded")))

/-- The record of an authenticator with id 1 and type "Limit". -/
def sampleRecord : Bytes := [8, 1, 18, 5] ++ text "Limit"

/-- A call that leaves one entry. -/
def writes (key : StoreKey) (value : Bytes) : Effect Nat :=
  fun _ m => ((fun k => if k = key then some (some value) else none, m), .ok ())

def sampleApp (confirmed : Bool) : App Nat where
  gas := ⟨fun _ => 0, UInt64.ofNat, fun n _ m => (m + n.toNat, .ok ())⟩
  readGas _ _ m := (m + 1000, .ok ())
  paramSpace := sampleParamSpace
  circuitBreakerGovernor := text "terp10d07y265gmmuvt4z0w9aw880jnsr700jag6fuq"
  unmarshal bz := if bz = sampleRecord then .ok ⟨1, text "Limit", []⟩ else .error ⟨.other, text "unexpected EOF"⟩
  getAuthenticatorByType type :=
    if type = text "Limit" then
      some (fun _ => .ok ((Authenticator.leaf (sampleLeaf confirmed)).toImpl sampleCodec 0
        (fun _ => writes (text "limit", controller) [1])))
    else none
  unpackAny any :=
    if any.typeUrl = text "/terp.smartaccount.v1beta1.TxExtension" then .ok (some [1, 1])
    else .error ⟨.other, text "no registered implementations"⟩
  addressString a := if a = controller then controllerText else []
  accAddressFromBech32 t := if t = controllerText then .ok controller else .error ⟨.other, text "invalid bech32"⟩
  getAccount _ a := if a = controller then some ⟨7, 0⟩ else none
  blockHeight := 5
  chainId := text "morocco-1"
  isCheckTx := false
  signBytes _ _ := .ok []
  deductFee _ _ := writes (text "bank", controller) (text "99")

def sampleMsg : Msg := ⟨text "/terp.smartaccount.v1beta1.MsgSetActiveState", .ok [], .ok [controller]⟩

/-- Two messages of the controller, to be authenticated by the authenticator with id 1. -/
def sampleTx : Tx where
  msgs := [sampleMsg, sampleMsg]
  feeTx := some ⟨controller, [], []⟩
  sigTx := some ⟨.ok [⟨some [7], 0⟩], .ok [controller]⟩
  nonCriticalExtensionOptions := some [⟨text "/terp.smartaccount.v1beta1.TxExtension", []⟩]
  timeoutHeight := some 0
  memo := some []
  signers_of_msgs := by
    rintro st ⟨⟩ ss ⟨⟩ m hm ms hms a ha
    obtain rfl : m = sampleMsg := by simpa using hm
    cases hms
    exact ha

def sampleContext : Context Nat :=
  .start (.fresh (fun k =>
      if k = activeKey then some (text "true")
      else if k = controllersKey then some (text "[\"" ++ controllerText ++ text "\"]")
      else if k = (text "smartaccount", text "[2]|" ++ controllerText ++ text "|1|") then some sampleRecord
      else none))
    0 ⟨[], false, by decide +kernel⟩

private theorem sampleTx_routed (confirmed : Bool) : (sampleApp confirmed).Routed sampleContext sampleTx := by
  rw [Keeper.routed_iff]
  cases confirmed <;> decide +kernel

theorem limit_confirmed :
    (sampleApp true).ConfirmsAll sampleTx false sampleContext
      ((sampleApp true).newPostHandler sampleTx false true sampleContext).1 :=
  (confirmation_not_escaped_iff (sampleApp true) sampleContext sampleContext sampleTx false true).mpr
    (fun _ => .inr (by decide +kernel)) (sampleTx_routed true) (by decide +kernel)

/-- The authenticator refuses to confirm, but the controller's message switches smart accounts off: the
transaction passes and nothing was asked. -/
theorem switching_off_escapes_confirmation :
    let app := sampleApp false
    let switched := MsgServer.setActiveState app.toKeeper ⟨controllerText, false⟩ sampleContext
    app.Routed sampleContext sampleTx ∧ (app.newPostHandler sampleTx false true sampleContext).2.isOk = false ∧
      switched.2 = .ok () ∧ (app.newPostHandler sampleTx false true switched.1).2 = .ok () ∧
      (app.newPostHandler sampleTx false true switched.1).1.trace = [] ∧
      ¬ app.ConfirmsAll sampleTx false switched.1 (app.newPostHandler sampleTx false true switched.1).1 := by
  have htrace : ((sampleApp false).newPostHandler sampleTx false true
      (MsgServer.setActiveState (sampleApp false).toKeeper
        ⟨controllerText, false⟩ sampleContext).1).1.trace = [] := by
    decide +kernel
  refine ⟨sampleTx_routed false, by decide +kernel, by decide +kernel, by decide +kernel, htrace, ?_⟩
  rintro ⟨es, hes, hconfirmed⟩
  rw [htrace] at hes
  cases (List.append_eq_nil_iff.mp hes.symm).2
  cases hconfirmed.length_eq

end Terpz.SmartAccount
