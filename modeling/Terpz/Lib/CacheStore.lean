import Terpz.Lib.Overwrite

/-! Layered key-value stores. A cache records what was set since it was opened and reads everything else
from what lies below; writing it through sets below what it recorded. -/
namespace Terpz.Lib
open Function

/-- What a store answers for a key. -/
abbrev View (κ ν : Type) := κ → Option ν

/-- Sets and deletions in the order they were made. -/
abbrev Writes (κ ν : Type) := List (κ × Option ν)

/-- The keys that were set or deleted, with what they hold then. -/
abbrev Overlay (κ ν : Type) := κ → Option (Option ν)

def View.over {κ ν : Type} (v : View κ ν) (o : Overlay κ ν) : View κ ν := fun k => (o k).getD (v k)

structure Cache (κ ν : Type) where
  base : View κ ν
  dirty : Overlay κ ν

namespace Cache
variable {κ ν : Type}

/-- A cache that was just opened over a store. -/
def fresh (v : View κ ν) : Cache κ ν := ⟨v, fun _ => none⟩

def view (c : Cache κ ν) : View κ ν := c.base.over c.dirty

/-- A cache over a cache. -/
def branch (c : Cache κ ν) : Cache κ ν := fresh c.view

/-- The cache after further writes. -/
def extend (c : Cache κ ν) (o : Overlay κ ν) : Cache κ ν := ⟨c.base, fun k => (o k).or (c.dirty k)⟩

/-- The cache after a branch of it was written through. -/
def merge (c child : Cache κ ν) : Cache κ ν := c.extend child.dirty

/-- The cache after it was written through itself. -/
def flush (c : Cache κ ν) : Cache κ ν := fresh c.view

@[simp] theorem view_fresh (v : View κ ν) : (fresh v).view = v := rfl
@[simp] theorem view_branch (c : Cache κ ν) : c.branch.view = c.view := rfl

@[simp] theorem base_extend (c : Cache κ ν) (o : Overlay κ ν) : (c.extend o).base = c.base := rfl

theorem base_foldl_extend (c : Cache κ ν) (os : List (Overlay κ ν)) : (os.foldl extend c).base = c.base := by
  induction os generalizing c with
  | nil => rfl
  | cons o os ih => exact ih (c.extend o)

theorem view_extend (c : Cache κ ν) (o : Overlay κ ν) : (c.extend o).view = c.view.over o := by
  funext k
  cases ho : o k <;> simp [view, extend, View.over, ho]

variable [DecidableEq κ]

def set (c : Cache κ ν) (w : κ × Option ν) : Cache κ ν := { c with dirty := update c.dirty w.1 (some w.2) }

def puts (c : Cache κ ν) (ws : Writes κ ν) : Cache κ ν := ws.foldl set c

@[simp] theorem puts_nil (c : Cache κ ν) : c.puts [] = c := rfl

theorem puts_append (c : Cache κ ν) (ws ws' : Writes κ ν) : c.puts (ws ++ ws') = (c.puts ws).puts ws' :=
  List.foldl_append ..

theorem view_set (c : Cache κ ν) (w : κ × Option ν) : (c.set w).view = update c.view w.1 w.2 := by
  funext k
  by_cases hk : k = w.1
  · subst hk
    simp [view, set, View.over]
  · simp [view, set, View.over, hk]

/-- A cache shows its writes over what it showed before. -/
theorem view_puts (c : Cache κ ν) (ws : Writes κ ν) : (c.puts ws).view = overwrite c.view ws := by
  induction ws generalizing c with
  | nil => rfl
  | cons w ws ih => exact (ih (c.set w)).trans (congrArg (fun v => overwrite v ws) (view_set c w))

private theorem merge_set (c child : Cache κ ν) (w : κ × Option ν) : c.merge (child.set w) = (c.merge child).set w := by
  unfold merge extend set
  congr 1
  funext k
  by_cases hk : k = w.1
  · subst hk
    simp
  · simp [hk]

private theorem merge_puts (c child : Cache κ ν) (ws : Writes κ ν) :
    c.merge (child.puts ws) = (c.merge child).puts ws := by
  induction ws generalizing child with
  | nil => rfl
  | cons w ws ih => exact (ih (child.set w)).trans (congrArg (fun d => puts d ws) (merge_set c child w))

/-- Writing a branch through makes its writes in the cache itself, in their order. -/
theorem merge_branch_puts (c : Cache κ ν) (ws : Writes κ ν) : c.merge (c.branch.puts ws) = c.puts ws :=
  merge_puts c c.branch ws

end Cache
end Terpz.Lib
