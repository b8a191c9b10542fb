import Terpz.Lib.Run

/-! What the steps of a run report, one after another, and the invariant rule that relates the state to the report. -/
namespace Terpz.Lib
variable {σ α ε : Type} (step : σ → α → σ) (emit : σ → α → List ε)

def trace (s : σ) : List α → List ε
  | [] => []
  | a :: as => emit s a ++ trace (step s a) as

variable {step emit}

theorem run_trace_invariant {I : σ → List ε → Prop} (hstep : ∀ s l a, I s l → I (step s a) (l ++ emit s a)) {s : σ}
    {l : List ε} (h : I s l) (as : List α) : I (run step s as) (l ++ trace step emit s as) := by
  induction as generalizing s l with
  | nil =>
    rw [trace, List.append_nil]
    exact h
  | cons a as ih =>
    rw [run_cons, trace, ← List.append_assoc]
    exact ih (hstep s l a h)

end Terpz.Lib
