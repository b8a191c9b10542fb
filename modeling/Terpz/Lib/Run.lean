import Mathlib.Data.List.Infix

/-! Runs of a deterministic transition system, and the invariant rule for runs whose
steps all meet a condition on the state they start from. -/
namespace Terpz.Lib
variable {σ α : Type} (step : σ → α → σ)

def run (s : σ) (as : List α) : σ := as.foldl step s

@[simp] theorem run_nil (s : σ) : run step s [] = s := rfl
@[simp] theorem run_cons (s : σ) (a : α) (as : List α) : run step s (a :: as) = run step (step s a) as := rfl
theorem run_append (s : σ) (as bs : List α) : run step s (as ++ bs) = run step (run step s as) bs :=
  List.foldl_append ..

/-- What no step changes, no run changes. -/
theorem foldl_frame {β : Type} (f : σ → β) (h : ∀ s a, f (step s a) = f s) (s : σ) (as : List α) :
    f (as.foldl step s) = f s := by
  induction as generalizing s with
  | nil => rfl
  | cons a as ih => rw [List.foldl_cons, ih, h]

/-- Every step of the run meets `C` in the state it is taken from. -/
def Along (C : σ → α → Prop) : σ → List α → Prop
  | _, [] => True
  | s, a :: as => C s a ∧ Along C (step s a) as

variable {step} {C : σ → α → Prop}

instance Along.decide [∀ s a, Decidable (C s a)] : (s : σ) → (as : List α) → Decidable (Along step C s as)
  | _, [] => isTrue trivial
  | s, a :: as => @instDecidableAnd _ _ _ (Along.decide (step s a) as)

theorem Along.nil (s : σ) : Along step C s [] := trivial

theorem Along.cons {s : σ} {a : α} {as : List α} (ha : C s a) (h : Along step C (step s a) as) :
    Along step C s (a :: as) := ⟨ha, h⟩

theorem Along.of_forall (h : ∀ s a, C s a) (s : σ) (as : List α) : Along step C s as := by
  induction as generalizing s with
  | nil => trivial
  | cons a as ih => exact ⟨h s a, ih _⟩

theorem Along.of_forall_mem {as : List α} (h : ∀ a ∈ as, ∀ s, C s a) (s : σ) : Along step C s as := by
  induction as generalizing s with
  | nil => trivial
  | cons a as ih => exact ⟨h a List.mem_cons_self s, ih (fun b hb => h b (List.mem_cons_of_mem _ hb)) _⟩

theorem Along.append {s : σ} {as bs : List α} (h : Along step C s (as ++ bs)) :
    Along step C s as ∧ Along step C (run step s as) bs := by
  induction as generalizing s with
  | nil => exact ⟨trivial, h⟩
  | cons a as ih =>
    obtain ⟨ha, hb⟩ := ih h.2
    exact ⟨⟨h.1, ha⟩, hb⟩

/-- The condition holds at each step of the run. -/
theorem Along.at_step {s : σ} {as bs : List α} {a : α} (h : Along step C s (as ++ a :: bs)) :
    C (run step s as) a := h.append.2.1

/-- An invariant kept by the steps that meet the condition holds at the end of the run. -/
theorem Along.invariant {I : σ → Prop} (hstep : ∀ s a, I s → C s a → I (step s a)) {s : σ} (h0 : I s)
    {as : List α} (h : Along step C s as) : I (run step s as) := by
  induction as generalizing s with
  | nil => exact h0
  | cons a as ih => exact ih (hstep s a h0 h.1) h.2

/-- The rule for every state the run passes through. -/
theorem Along.invariant_at {I : σ → Prop} (hstep : ∀ s a, I s → C s a → I (step s a)) {s : σ} (h0 : I s)
    {as pre : List α} (h : Along step C s as) (hp : pre <+: as) : I (run step s pre) := by
  obtain ⟨post, rfl⟩ := hp
  exact Along.invariant hstep h0 h.append.1

/-- Two conditions that agree wherever an invariant of all steps holds agree along every run. -/
theorem along_congr {I : σ → Prop} {D : σ → α → Prop} (hstep : ∀ s a, I s → I (step s a))
    (h : ∀ s a, I s → (C s a ↔ D s a)) {s : σ} (h0 : I s) (as : List α) : Along step C s as ↔ Along step D s as := by
  induction as generalizing s with
  | nil => exact Iff.rfl
  | cons a as ih => exact and_congr (h s a h0) (ih (hstep s a h0))

end Terpz.Lib
