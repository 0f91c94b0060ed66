import Mathlib.Logic.Relation

/-!
# Runs with one way to go

Work that is done step by step is a relation between states, and most often a state leaves no
choice of the next one.  Then all runs from a state are pieces of one and the same run.  If this one
comes to a state from which no step leads on, there is no endless run, and no run gets stuck
anywhere else.

Main statements:

* `eq_of_stuck`: two runs from a state that cannot go on have come to the same state;
* `Ends.of_unique`: one run to a final state ends them all.
-/

namespace QuadCode

open Relation

variable {σ : Type} {step : σ → σ → Prop} {final : σ → Prop} {start s s' done : σ}

/-- Runs from a state come to an end: none goes on for ever, and one that cannot go on has come to a
final state. -/
structure Ends (step : σ → σ → Prop) (final : σ → Prop) (start : σ) : Prop where
  terminates : Acc (fun after before => step before after) start
  progress : ∀ {s : σ}, ReflTransGen step start s → final s ∨ ∃ s', step s s'

/-- With one way to go, a run that cannot go on is at the end of every other run. -/
theorem reaches_stuck (hunique : Relator.RightUnique step) (hrun : ReflTransGen step start done)
    (hstuck : ∀ s, ¬ step done s) (h : ReflTransGen step start s) : ReflTransGen step s done := by
  rcases ReflTransGen.total_of_right_unique hunique h hrun with hon | hback
  · exact hon
  · rcases hback.cases_head with rfl | ⟨next, hnext, -⟩
    · exact ReflTransGen.refl
    · exact absurd hnext (hstuck next)

/-- With one way to go, there is one place to get stuck. -/
theorem eq_of_stuck (hunique : Relator.RightUnique step) (h : ReflTransGen step start s)
    (h' : ReflTransGen step start s') (hstuck : ∀ next, ¬ step s next)
    (hstuck' : ∀ next, ¬ step s' next) : s = s' := by
  rcases (reaches_stuck hunique h' hstuck' h).cases_head with heq | ⟨next, hnext, -⟩
  · exact heq
  · exact absurd hnext (hstuck next)

/-- **One run to a final state ends all runs**, if there is one way to go and it does not lead on
from there. -/
theorem Ends.of_unique (hunique : Relator.RightUnique step) (hrun : ReflTransGen step start done)
    (hdone : final done) (hstuck : ∀ s, ¬ step done s) : Ends step final start where
  terminates := by
    induction hrun using ReflTransGen.head_induction_on with
    | refl => exact Acc.intro _ fun s hs => absurd hs (hstuck s)
    | head hnext _ ih => exact Acc.intro _ fun s hs => hunique hnext hs ▸ ih
  progress h := by
    rcases (reaches_stuck hunique hrun hstuck h).cases_head with rfl | ⟨next, hnext, -⟩
    · exact Or.inl hdone
    · exact Or.inr ⟨next, hnext⟩

end QuadCode
