/-
# What can be done to an analysis

An analysis is changed by hints, by steps, rounds and runs, by folding, by new
plans and by pruning. Each action may fail; the analysis then is as far as the
action came (`Analysis.outcome`).

Key definitions: `Action`, `Analysis.outcome`, `Analysis.after`, `Analysis.afterAll`.
Key theorems: `Analysis.afterAll_induction`.
-/
import EdgeFacts.Analysis.Fold
import EdgeFacts.Analysis.Prune

namespace EdgeFacts

/-- What can be done to an analysis. -/
inductive Action where
  | hint (node : Int) (fact : TensorFact)
  | hintByName (name : String) (fact : TensorFact)
  | step
  | round
  | run
  | foldNode (node : Int) (value : Tensor)
  | foldConstants
  | resetPlan
  | prune

/-- Whether an action only lets nodes infer. -/
def Action.LetsInfer : Action → Prop
  | .step | .round | .run => True
  | _ => False

namespace Analysis

/-- The outcome of an operation that fails as a whole. -/
def orStay (a : Analysis) : Except Failure Analysis → Outcome Unit
  | .ok b => (.ok (), b)
  | .error e => (.error e, a)

/-- The outcome without its result. -/
def withoutResult {α : Type} (x : Outcome α) : Outcome Unit :=
  (x.1.map fun _ => (), x.2)

/-- Whether an action succeeds, and the analysis that it leaves. -/
def outcome (a : Analysis) : Action → Outcome Unit
  | .hint node fact => a.orStay (a.hint node fact)
  | .hintByName name fact => a.orStay (a.hintByName name fact)
  | .step => a.orStay (a.step.map Prod.snd)
  | .round => withoutResult a.round
  | .run => a.run
  | .foldNode node value => a.orStay (a.foldNode node value)
  | .foldConstants => withoutResult a.foldConstants
  | .resetPlan => a.orStay a.resetPlan
  | .prune => withoutResult a.prune

/-- The analysis that an action leaves, also if it fails. -/
def after (a : Analysis) (x : Action) : Analysis := (a.outcome x).2

/-- The analysis that actions leave, one after the other. -/
def afterAll (a : Analysis) (xs : List Action) : Analysis := xs.foldl after a

/-- What some actions preserve holds after all of them. -/
theorem afterAll_induction {P : Analysis → Prop} {Q : Action → Prop}
    (h : ∀ a x, P a → Q x → P (a.after x)) : ∀ {xs : List Action} {a : Analysis}, P a →
    (∀ x ∈ xs, Q x) → P (a.afterAll xs)
  | [], _, ha, _ => ha
  | x :: xs, a, ha, hx => by
    have head : P (a.after x) := h a x ha (hx x (.head _))
    have tail : P ((a.after x).afterAll xs) :=
      afterAll_induction h head fun y hy => hx y (.tail _ hy)
    exact tail

theorem orStay_induction {P : Analysis → Prop} {a : Analysis} {r : Except Failure Analysis} (ha : P a)
    (h : ∀ b, r = .ok b → P b) : P (a.orStay r).2 := by
  cases r with
  | ok b => exact h b rfl
  | error e => exact ha

end Analysis

end EdgeFacts
