/-
# Every action keeps an analysis well formed

An action visits nodes, takes in a fact, folds nodes, makes a new plan or prunes.
What these keep holds after every action, whether it succeeds or stops halfway
(`Analysis.ActionInvariant.after`). Hints and visits only put new facts on a
graph; so what does not depend on facts need only be kept by the three changes of
the graph (`Analysis.GraphInvariant`).

Key definitions: `Action.Tells`, `Analysis.ActionInvariant`, `Analysis.GraphInvariant`.
Key theorems: `Analysis.ActionInvariant.after`, `Analysis.GraphInvariant.afterAll`,
`Analysis.settled_of_run`.
-/
import EdgeFacts.Proofs.Action
import EdgeFacts.Proofs.Fold
import EdgeFacts.Proofs.Prune
import EdgeFacts.Proofs.Run

namespace EdgeFacts

/-- Whether an action tells nothing but facts of some kind. -/
def Action.Tells (Told : TensorFact → Prop) : Action → Prop
  | .hint _ fact | .hintByName _ fact => Told fact
  | _ => True

theorem Action.tells_true (x : Action) : x.Tells fun _ => True := by
  cases x <;> trivial

namespace Analysis

theorem hint_sameGraph {a b : Analysis} {node : Int} {fact : TensorFact} (h : a.hint node fact = .ok b) :
    SameGraph b a ∧ b.stepIndex = a.stepIndex := by
  obtain ⟨i, js, r, -, -, -, rfl⟩ := hint_eq_ok_iff.1 h
  exact ⟨commit_sameGraph a r, rfl⟩

theorem hint_wellFormed {a b : Analysis} (hw : WellFormed a) {node : Int} {fact : TensorFact}
    (h : a.hint node fact = .ok b) : WellFormed b := by
  obtain ⟨hsame, hstep⟩ := hint_sameGraph h
  exact hsame.wellFormed hw (by rw [hstep, hsame.plan]; exact hw.stepIndex_lt)

theorem RunInvariant.after {P : Analysis → Prop} (hP : RunInvariant P) {a : Analysis} (hw : WellFormed a)
    (h : P a) {x : Action} (hx : x.LetsInfer) : WellFormed (a.after x) ∧ P (a.after x) := by
  cases x with
  | step =>
    refine orStay_induction (P := fun b => WellFormed b ∧ P b) ⟨hw, h⟩ fun b hb => ?_
    cases hs : a.step with
    | error e =>
      rw [hs] at hb
      cases hb
    | ok r =>
      rw [hs] at hb
      cases hb
      exact hP.step hw h hs
  | round => exact hP.round hw h
  | run => exact hP.run hw h
  | _ => exact hx.elim

/-- What holds of well-formed analyses at all places of the plan or at none, and
through visits, hints that tell facts of some kind, folds and new plans. -/
structure ActionInvariant (Told : TensorFact → Prop) (P : Analysis → Prop) : Prop extends RunInvariant P where
  hint : ∀ {a b : Analysis} {node : Int} {fact : TensorFact}, WellFormed a → P a → Told fact →
    a.hint node fact = .ok b → P b
  foldNode : ∀ {a b : Analysis} {node : Int} {value : Tensor}, WellFormed a → P a →
    a.foldNode node value = .ok b → P b
  replan : ∀ {a : Analysis} {plan : List Nat}, P a → plan ⊆ a.plan → P { a with plan, stepIndex := 0 }

namespace ActionInvariant

variable {Told : TensorFact → Prop} {P : Analysis → Prop} (hP : ActionInvariant Told P)
include hP

theorem foldInvariant : FoldInvariant P where
  fold hw h _ hb := by
    rcases applyFold_cases hb with rfl | ⟨v, hv⟩
    · exact h
    · exact hP.foldNode hw h hv
  replan _ h hsub := hP.replan h hsub

/-- **An action leaves a well-formed analysis**, also where it fails, and what
visits, hints, folds and new plans keep, if pruning keeps it too. -/
theorem after {a : Analysis} (hw : WellFormed a) (h : P a) {x : Action} (hx : x.Tells Told)
    (hpruned : x = .prune → P a.pruned) : WellFormed (a.after x) ∧ P (a.after x) := by
  have hstay : ∀ {r : Except Failure Analysis}, (∀ b, r = .ok b → WellFormed b ∧ P b) →
      WellFormed (a.orStay r).2 ∧ P (a.orStay r).2 := orStay_induction ⟨hw, h⟩
  have hhint {b : Analysis} {node : Int} {fact : TensorFact} (ht : Told fact)
      (hb : a.hint node fact = .ok b) : WellFormed b ∧ P b :=
    ⟨hint_wellFormed hw hb, hP.hint hw h ht hb⟩
  cases x with
  | hint node fact => exact hstay fun b hb => hhint hx hb
  | hintByName name fact =>
    refine hstay fun b hb => ?_
    obtain ⟨n, -, hb⟩ := hintByName_eq_ok_iff.1 hb
    exact hhint hx hb
  | step => exact hP.toRunInvariant.after hw h trivial
  | round => exact hP.toRunInvariant.after hw h trivial
  | run => exact hP.toRunInvariant.after hw h trivial
  | foldNode node value =>
    exact hstay fun b hb => ⟨foldNode_wellFormed hw hb, hP.foldNode hw h hb⟩
  | foldConstants => exact hP.foldInvariant.foldConstants hw h
  | resetPlan =>
    refine hstay fun b hb => ?_
    obtain ⟨plan, hplan, -, hwplan, hsub⟩ := resetPlan_spec hw
    cases hb.symm.trans hplan
    exact ⟨hwplan, hP.replan h hsub⟩
  | prune =>
    have heq : a.after .prune = a.pruned := congrArg Prod.snd (prune_eq hw.toLinked hw.toPlanned)
    rw [heq]
    exact ⟨pruned_wellFormed hw, hpruned rfl⟩

end ActionInvariant

/-- What holds of well-formed analyses whatever their facts, and through every
change of the graph. -/
structure GraphInvariant (P : Analysis → Prop) : Prop where
  sameGraph : ∀ {a b : Analysis}, SameGraph b a → P a → P b
  asFolded : ∀ {a : Analysis} (i : Nat) (value : Tensor), P a → P (a.asFolded i value)
  replan : ∀ {a : Analysis} {plan : List Nat}, P a → plan ⊆ a.plan → P { a with plan, stepIndex := 0 }
  pruned : ∀ {a : Analysis}, WellFormed a → P a → P a.pruned

namespace GraphInvariant

variable {P : Analysis → Prop} (hP : GraphInvariant P)
include hP

theorem actionInvariant : ActionInvariant (fun _ => True) P where
  movedTo p s f h := hP.sameGraph (movedTo_sameGraph _ p s f) h
  visit _ h _ hv := hP.sameGraph (visit_refines hv).toSameGraph h
  hint _ h _ hb := hP.sameGraph (hint_sameGraph hb).1 h
  foldNode hw h hb := by
    obtain ⟨i, r, -, -, rfl⟩ := (foldNode_eq_ok_iff hw.toLinked).1 hb
    exact hP.asFolded i _ (hP.sameGraph (commit_sameGraph _ r) h)
  replan := hP.replan

theorem runInvariant : RunInvariant P := hP.actionInvariant.toRunInvariant

theorem foldInvariant : FoldInvariant P := hP.actionInvariant.foldInvariant

/-- An action keeps what does not depend on facts. -/
theorem after {a : Analysis} (hw : WellFormed a) (h : P a) (x : Action) :
    WellFormed (a.after x) ∧ P (a.after x) :=
  hP.actionInvariant.after hw h x.tells_true fun _ => hP.pruned hw h

/-- **Whatever is done to it**, an analysis stays well formed. -/
theorem afterAll {a : Analysis} (hw : WellFormed a) (h : P a) (xs : List Action) :
    WellFormed (a.afterAll xs) ∧ P (a.afterAll xs) :=
  afterAll_induction (P := fun b => WellFormed b ∧ P b) (Q := fun _ => True)
    (fun _ x hb _ => hP.after hb.1 hb.2 x) ⟨hw, h⟩ fun _ _ => trivial

end GraphInvariant

theorem graphInvariant_true : GraphInvariant fun _ => True :=
  ⟨fun _ _ => trivial, fun _ _ _ => trivial, fun _ _ => trivial, fun _ _ => trivial⟩

/-- The operators stay those of the library, and the limit stays as it is. -/
theorem graphInvariant_library (limit : Option Nat) :
    GraphInvariant fun a => OfLibrary a ∧ a.roundLimit = limit where
  sameGraph h ha := by
    refine ⟨?_, h.roundLimit.trans ha.2⟩
    rw [OfLibrary, h.nodes]
    exact ha.1
  asFolded {a} i value ha := by
    refine ⟨fun n hn => ?_, ha.2⟩
    obtain ⟨k, hk⟩ := List.mem_iff_getElem?.1 hn
    obtain ⟨m, hm, rfl⟩ := asFolded_getElem?.1 hk
    split
    · trivial
    · exact ha.1 m (List.mem_of_getElem? hm)
  replan ha _ := ha
  pruned {a} hw ha := by
    refine ⟨fun n hn => ?_, ha.2⟩
    obtain ⟨k, hk⟩ := List.mem_iff_getElem?.1 hn
    obtain ⟨i, m, -, hm, -, rfl⟩ := pruned_node hw.toPlanned hk
    exact ha.1 m (List.mem_of_getElem? hm)

theorem settled_of_run {model : Model} {output : Int} {limit : Option Nat} {start r : Analysis}
    (hlib : ∀ n ∈ model.nodes, n.op.IsLibrary) (hstart : Analysis.start model output limit = .ok start)
    {xs : List Action} (hr : (start.afterAll xs).run = (.ok (), r)) : WellFormed r ∧ OfLibrary r ∧ r.Stable := by
  obtain ⟨hw₀, -, -, hnodes, -, hlimit⟩ := start_spec hstart
  have hlib₀ : OfLibrary start := by
    rw [OfLibrary, hnodes]
    exact hlib
  obtain ⟨hw, hlib', -⟩ := (graphInvariant_library limit).afterAll hw₀ ⟨hlib₀, hlimit⟩ xs
  obtain ⟨hwr, hdown⟩ := run_refines hw
  rw [hr] at hwr hdown
  refine ⟨hwr, ?_, stable_of_run hr⟩
  rw [OfLibrary, hdown.nodes]
  exact hlib'

end Analysis

end EdgeFacts
