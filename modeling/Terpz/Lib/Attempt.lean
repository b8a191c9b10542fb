import Terpz.Lib.Checks

/-! Computations on a state that may fail and then leave the state they had reached, with rules for what holds
when they return and when they fail. -/
namespace Terpz.Lib

def Attempt (σ ε α : Type) := σ → σ × Except ε α

namespace Attempt
variable {σ ε α β : Type}

instance : Monad (Attempt σ ε) where
  pure a := fun s => (s, .ok a)
  bind x f := fun s =>
    match x s with
    | (s', .ok a) => f a s'
    | (s', .error e) => (s', .error e)

/-- A computation that does not touch the state. -/
def lift (x : Except ε α) : Attempt σ ε α := fun s => (s, x)

/-- What a computation reads off the state. -/
def observe (f : σ → Except ε α) : Attempt σ ε α := fun s => (s, f s)

def modifyState (f : σ → σ) : Attempt σ ε Unit := fun s => (f s, .ok ())

/-- Another failure in place of the one of the computation; the state it left decides which. -/
def mapFailure (f : σ → ε → ε) (x : Attempt σ ε α) : Attempt σ ε α := fun s =>
  ((x s).1, (x s).2.mapError (f (x s).1))

@[simp] theorem pure_apply (a : α) (s : σ) : (pure a : Attempt σ ε α) s = (s, .ok a) := rfl

theorem bind_apply (x : Attempt σ ε α) (f : α → Attempt σ ε β) (s : σ) : (x >>= f) s =
    match x s with
    | (s', .ok a) => f a s'
    | (s', .error e) => (s', .error e) := rfl

theorem bind_apply_ok {x : Attempt σ ε α} {s s' : σ} {a : α} (h : x s = (s', .ok a)) (f : α → Attempt σ ε β) :
    (x >>= f) s = f a s' := by
  rw [bind_apply, h]

/-- A sequence returns if its parts do, the second in the state the first left. -/
theorem bind_eq_ok {x : Attempt σ ε α} {f : α → Attempt σ ε β} {s : σ} {b : β} :
    ((x >>= f) s).2 = .ok b ↔ ∃ a, (x s).2 = .ok a ∧ (f a (x s).1).2 = .ok b := by
  rw [bind_apply]
  rcases h : x s with ⟨s', _ | a⟩ <;> simp

/-- From every state with `P` the computation returns with `Q` or fails with `R`. -/
def Meets (P : σ → Prop) (x : Attempt σ ε α) (Q : α → σ → Prop) (R : σ → Prop) : Prop :=
  ∀ s, P s → match x s with
    | (s', .ok a) => Q a s'
    | (s', .error _) => R s'

namespace Meets
variable {P P' : σ → Prop} {x : Attempt σ ε α} {Q Q' : α → σ → Prop} {R R' : σ → Prop}

theorem pure (a : α) (h : ∀ s, P s → Q a s) : Meets P (Pure.pure a : Attempt σ ε α) Q R := h

theorem bind {f : α → Attempt σ ε β} {S : β → σ → Prop} (hx : Meets P x Q R) (hf : ∀ a, Meets (Q a) (f a) S R) :
    Meets P (x >>= f) S R := by
  intro s hs
  have hxs := hx s hs
  rw [bind_apply]
  rcases h : x s with ⟨s', _ | a⟩
  · rw [h] at hxs
    exact hxs
  · rw [h] at hxs
    exact hf a s' hxs

theorem weaken (h : Meets P x Q R) (hP : ∀ s, P' s → P s) (hQ : ∀ a s, Q a s → Q' a s) (hR : ∀ s, R s → R' s) :
    Meets P' x Q' R' := by
  intro s hs
  have hxs := h s (hP s hs)
  rcases hx : x s with ⟨s', _ | a⟩
  · rw [hx] at hxs
    exact hR s' hxs
  · rw [hx] at hxs
    exact hQ a s' hxs

/-- What comes after a computation that keeps the precondition may use what is known of its result. -/
theorem bind_fact {F : α → Prop} {f : α → Attempt σ ε β} {S : β → σ → Prop} (hx : Meets P x (fun a s => P s ∧ F a) R)
    (hf : ∀ a, F a → Meets P (f a) S R) : Meets P (x >>= f) S R :=
  .bind hx (fun a s hs => hf a hs.2 s hs.1)

theorem lift {x : Except ε α} (hR : ∀ s, P s → R s) : Meets P (Attempt.lift x) (fun a s => P s ∧ x = .ok a) R := by
  intro s hs
  cases x with
  | error e => exact hR s hs
  | ok a => exact ⟨hs, rfl⟩

theorem mapFailure {f : σ → ε → ε} (h : Meets P x Q R) : Meets P (x.mapFailure f) Q R := by
  intro s hs
  have hxs := h s hs
  rcases hx : x s with ⟨s', _ | a⟩
  · rw [hx] at hxs
    simp only [Attempt.mapFailure, hx]
    exact hxs
  · rw [hx] at hxs
    simp only [Attempt.mapFailure, hx]
    exact hxs

/-- What a run that returned left behind. -/
theorem of_ok (h : Meets P x Q R) {s : σ} {a : α} (hs : P s) (ha : (x s).2 = .ok a) : Q a (x s).1 := by
  have hxs := h s hs
  rcases hx : x s with ⟨s', _ | b⟩
  · rw [hx] at ha
    cases ha
  · rw [hx] at hxs ha
    cases ha
    exact hxs

end Meets
end Attempt
end Terpz.Lib
