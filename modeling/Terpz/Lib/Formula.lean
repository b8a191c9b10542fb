import Mathlib.Data.Option.Basic

/-! Formulas of conjunctions and disjunctions of any width, read in two ways: over fixed truth values, and
from left to right over a state, where a disjunct that fails leaves no trace. -/
namespace Terpz.Lib

inductive Formula (α : Type) where
  | atom (a : α)
  | all (fs : List (Formula α))
  | any (fs : List (Formula α))

namespace Formula
variable {α σ : Type}

section Eval
variable (f : α → Bool)

mutual
def eval : Formula α → Bool
  | atom a => f a
  | all fs => evalAll fs
  | any fs => evalAny fs

def evalAll : List (Formula α) → Bool
  | [] => true
  | g :: gs => g.eval && evalAll gs

def evalAny : List (Formula α) → Bool
  | [] => false
  | g :: gs => g.eval || evalAny gs
end

end Eval

section EvalIn
variable (step : σ → α → Option σ)

mutual
def evalIn : Formula α → σ → Option σ
  | atom a, s => step s a
  | all fs, s => evalInAll fs s
  | any fs, s => evalInAny fs s

/-- Each conjunct starts where the one before it ended. -/
def evalInAll : List (Formula α) → σ → Option σ
  | [], s => some s
  | g :: gs, s => (g.evalIn s).bind (evalInAll gs)

/-- Each disjunct starts where the disjunction did; the first that holds ends it. -/
def evalInAny : List (Formula α) → σ → Option σ
  | [], _ => none
  | g :: gs, s => (g.evalIn s).or (evalInAny gs s)
end

end EvalIn

/-- Cases for a formula whose hypotheses cover its parts. -/
theorem induct {P : Formula α → Prop} (atom : ∀ a, P (.atom a)) (all : ∀ fs, (∀ g ∈ fs, P g) → P (.all fs))
    (any : ∀ fs, (∀ g ∈ fs, P g) → P (.any fs)) (g : Formula α) : P g := by
  refine @Formula.rec α P (fun fs => ∀ g ∈ fs, P g) atom all any ?_ ?_ g
  · intro g hg
    cases hg
  · intro g fs hg hfs g' hg'
    rcases List.mem_cons.mp hg' with rfl | hg'
    · exact hg
    · exact hfs g' hg'

/-- Over a state that no atom changes, both readings agree. -/
theorem evalIn_const (f : α → Bool) (g : Formula α) (s : σ) :
    g.evalIn (fun s a => if f a then some s else none) s = if g.eval f then some s else none := by
  induction g using induct with
  | atom a => rfl
  | all fs ih =>
    rw [evalIn, eval]
    induction fs with
    | nil => rfl
    | cons g gs ihs =>
      rw [evalInAll, evalAll, ih g List.mem_cons_self]
      cases hg : g.eval f with
      | false => rfl
      | true => exact ihs (fun g' hg' => ih g' (List.mem_cons_of_mem _ hg'))
  | any fs ih =>
    rw [evalIn, eval]
    induction fs with
    | nil => rfl
    | cons g gs ihs =>
      rw [evalInAny, evalAny, ih g List.mem_cons_self]
      cases hg : g.eval f with
      | true => rfl
      | false => exact ihs (fun g' hg' => ih g' (List.mem_cons_of_mem _ hg'))

end Formula
end Terpz.Lib
