import Mathlib.Data.Int.Notation
import Mathlib.Algebra.Group.Pi.Basic
import Mathlib.Algebra.Ring.Int.Defs

/-! Balances and supply in many denominations, changed by postings. -/
namespace Terpz.Lib

@[ext] structure Ledger (A D : Type) where
  balance : A → D → Int
  supply : D → Int

namespace Ledger
variable {A D : Type} [DecidableEq A]

/-- Adds an amount of each denomination to one account. -/
def post (l : Ledger A D) (a : A) (f : D → Int) : Ledger A D :=
  { l with balance := fun b d => l.balance b d + if b = a then f d else 0 }

/-- Adds an amount of each denomination to the supply. -/
def issue (l : Ledger A D) (f : D → Int) : Ledger A D := { l with supply := fun d => l.supply d + f d }

variable (l : Ledger A D) (a b : A) (f g : D → Int)

@[simp] theorem post_supply : (l.post a f).supply = l.supply := rfl
omit [DecidableEq A] in
@[simp] theorem issue_balance : (l.issue f).balance = l.balance := rfl
omit [DecidableEq A] in
@[simp] theorem issue_supply (d : D) : (l.issue f).supply d = l.supply d + f d := rfl

@[simp] theorem post_balance_of_ne {a b : A} (h : b ≠ a) : (l.post a f).balance b = l.balance b := by
  funext d
  simp [post, h]

@[simp] theorem post_zero : l.post a 0 = l := by
  simp [post]

omit [DecidableEq A] in
@[simp] theorem issue_zero : l.issue 0 = l := by
  simp [issue]

theorem post_post : (l.post a f).post a g = l.post a (f + g) := by
  ext b d
  · by_cases h : b = a <;> simp [post, h, add_assoc]
  · rfl

omit [DecidableEq A] in
theorem issue_issue : (l.issue f).issue g = l.issue (f + g) := by
  ext d
  · rfl
  · simp [issue, add_assoc]

theorem post_issue : (l.post a f).issue g = (l.issue g).post a f := rfl

/-- What is posted and taken back was never there. -/
theorem post_neg_cancel : (l.post a f).post a (-f) = l := by
  rw [post_post, add_neg_cancel, post_zero]

end Ledger
end Terpz.Lib
