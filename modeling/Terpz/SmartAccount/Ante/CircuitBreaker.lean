import Terpz.SmartAccount.Keeper.Keeper

/-! The circuit breaker: a transaction goes to the authenticator flow if smart accounts are active and it
selects authenticators, and to the classic flow otherwise. -/
namespace Terpz.SmartAccount.Keeper
open Lib
variable {μ : Type} (k : Keeper μ)

/-- Whether the extension is missing, and what it selects. -/
def isSelectedAuthenticatorTxExtensionMissing (tx : Tx) : Bool × List UInt64 :=
  match tx.nonCriticalExtensionOptions with
  | none => (true, [])
  | some exts =>
    match k.getAuthenticatorExtension exts with
    | none => (true, [])
    | some selected => if selected.length < 1 then (true, []) else (false, selected)

def isCircuitBreakActive (tx : Tx) : Attempt (Context μ) Failure (Bool × List UInt64) := do
  let active ← k.getIsSmartAccountActive
  match active with
  | false => pure (true, [])
  | true => pure (k.isSelectedAuthenticatorTxExtensionMissing tx)

/-- The decorator sends the transaction to the authenticator flow. -/
def Routed (ctx : Context μ) (tx : Tx) : Prop := ∃ selected, (k.isCircuitBreakActive tx ctx).2 = .ok (false, selected)

variable {k} {ctx : Context μ} {tx : Tx}

theorem metered_isCircuitBreakActive (tx : Tx) (ctx : Context μ) :
    Context.Metered ctx (k.isCircuitBreakActive tx ctx).1 := by
  have hm := k.metered_getIsSmartAccountActive ctx
  unfold isCircuitBreakActive
  rw [Attempt.bind_apply]
  rcases h : k.getIsSmartAccountActive ctx with ⟨s, _ | _ | _⟩ <;> (rw [h] at hm; exact hm)

/-- With smart accounts off the breaker is active. -/
theorem isCircuitBreakActive_of_inactive (h : (k.getIsSmartAccountActive ctx).2 = .ok false) :
    (k.isCircuitBreakActive tx ctx).2 = .ok (true, []) := Attempt.bind_eq_ok.mpr ⟨false, h, rfl⟩

/-- With smart accounts on the extension decides. -/
theorem isCircuitBreakActive_of_active (h : (k.getIsSmartAccountActive ctx).2 = .ok true) :
    (k.isCircuitBreakActive tx ctx).2 = .ok (k.isSelectedAuthenticatorTxExtensionMissing tx) :=
  Attempt.bind_eq_ok.mpr ⟨true, h, rfl⟩

theorem routed_iff : k.Routed ctx tx ↔
    (k.getIsSmartAccountActive ctx).2 = .ok true ∧ (k.isSelectedAuthenticatorTxExtensionMissing tx).1 = false := by
  constructor
  · rintro ⟨selected, h⟩
    obtain ⟨active, hactive, hrest⟩ := Attempt.bind_eq_ok.mp h
    cases active with
    | false => cases hrest
    | true => exact ⟨hactive, congrArg Prod.fst (Except.ok.inj hrest)⟩
  · rintro ⟨hactive, hext⟩
    refine ⟨(k.isSelectedAuthenticatorTxExtensionMissing tx).2, ?_⟩
    rw [isCircuitBreakActive_of_active hactive, ← hext]

end Terpz.SmartAccount.Keeper
