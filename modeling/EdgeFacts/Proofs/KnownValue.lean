/-
# Known values are computed

Identities hand values back from their outputs to their inputs. Without values in hints
there is none to hand back that did not come from the input: a value on an edge out of a
node is what its operator computes from the values on the edges into it
(`Analysis.Forward.producers_valued`). The nodes that they come from have computed them
in the same way, so by induction over the plan a value that is known is what the model
evaluates to, whatever its inputs are fed (`Analysis.Forward.evaluateAll_eq_of_valued`).
This holds after any steps, rounds and runs, those that fail too, and wherever they stop
(`Analysis.values_flow_forwards`).

Key theorems: `Analysis.Forward.producers_valued`,
`Analysis.Forward.evaluateAll_eq_of_valued`, `Analysis.values_flow_forwards`.
-/
import EdgeFacts.Proofs.Agreement
import EdgeFacts.Proofs.Evaluate

namespace EdgeFacts

namespace Analysis

/-! ### Nodes with values -/

theorem Valued.inputs {a : Analysis} {i : Nat} {v : Tensor} (h : a.Valued i v) : ∃ n us,
    a.nodes[i]? = some n ∧ List.Forall₂ (fun d u => d.fact = .ofTensor u) (a.edgesInto i) us ∧
      n.op.eval us = .ok v := by
  obtain ⟨n, us, hn, hus, heval⟩ := h.before
  rw [← List.forall₂_eq_eq_eq, List.forall₂_map_left_iff, List.forall₂_map_right_iff] at hus
  exact ⟨n, us, hn, hus, heval⟩

namespace Forward

variable {a : Analysis} (h : Forward a) (hw : WellFormed a)
include h hw

/-- **The values on the edges into a planned node** are those of its producers. -/
theorem producers_valued {i : Nat} (hi : i ∈ a.plan) {n : Node} (hn : a.nodes[i]? = some n) {us : List Tensor}
    (hus : List.Forall₂ (fun d u => d.fact = .ofTensor u) (a.edgesInto i) us) :
    List.Forall₂ a.Valued n.producers us := by
  rw [Node.producers, List.forall₂_map_left_iff]
  refine (forall₂_comp (hw.inputs_origin hn hi).flip hus).imp ?_
  rintro x u ⟨d, ⟨hd, hs, hp⟩, hu⟩
  refine h.valued_of_value hp (mem_edgesFrom.2 ⟨(mem_edgesInto.1 hd).1, hs⟩) ?_
  rw [hu]
  rfl

/-- **A known value is the result at its node**, whatever is fed. -/
theorem evaluateAll_eq_of_valued {feed : Nat → Except Failure Tensor} : ∀ i ∈ a.plan, ∀ v, a.Valued i v →
    evaluateAll a.nodes feed a.plan noResults i = .ok v := by
  refine hw.ordered.induction (fun i hi => nomatch hi) fun i hi ih v hv => ?_
  obtain ⟨n, us, hn, hus, heval⟩ := hv.inputs
  have hinput : ¬ n.op.isPlaceholder = true := by
    intro hop
    obtain ⟨fact, hfact⟩ := Operator.placeholder_of_isPlaceholder hop
    rw [hfact] at heval
    cases heval
  have hproducers : n.producers.mapM (evaluateAll a.nodes feed a.plan noResults) = .ok us := by
    have hvalued := (List.forall₂_and_left _ _).2 ⟨fun _ hp => hp, h.producers_valued hw hi hn hus⟩
    exact mapM_eq_ok_iff.2 (hvalued.imp fun p u ⟨hp, hu⟩ => ih p (Plan.mem_producersAt_of_node hn hp) u hu)
  rw [evaluateAll_eq hw.ordered hi, evaluateNode_eq hn, if_neg hinput, hproducers]
  exact heval

end Forward

/-! ### Hints without values -/

/-- **Values only flow forwards.** Take an analysis of a model of operators of the library
after any hints without values, steps, rounds and runs, whether they succeeded or not. If
an edge out of a planned node carries a value, then so do all edges into the node, its
operator computes the value from theirs, all edges out of it carry this value, and the
model evaluates to it there whatever its inputs are fed. Nodes may have several outputs
that are used; to visit such a node fails. -/
theorem values_flow_forwards {model : Model} {output : Int} {limit : Option Nat} {start a : Analysis}
    (hlib : ∀ n ∈ model.nodes, n.op.IsLibrary) (hstart : Analysis.start model output limit = .ok start)
    {xs : List Action} (hxs : ∀ x ∈ xs, x.Valueless) (ha : start.afterAll xs = a) {i : Nat} (hi : i ∈ a.plan)
    {e : Edge} (he : e ∈ a.edgesFrom i) {v : Tensor} (hv : e.fact.value = some v) :
    ∃ n us, model.nodes[i]? = some n ∧
      List.Forall₂ (fun d u => d.fact = .ofTensor u) (a.edgesInto i) us ∧ n.op.eval us = .ok v ∧
      (∀ d ∈ a.edgesFrom i, d.fact = .ofTensor v) ∧ ∀ feed, model.evaluate i feed = .ok v := by
  obtain ⟨hw₀, -, -, hmodel, -⟩ := start_spec hstart
  obtain ⟨hw, hforward⟩ := (Unvalued.start hlib hstart).forward.afterAll hw₀ hxs
  have hnodes := (afterAll_sameGraph hw₀ hxs).nodes.trans hmodel
  rw [ha] at hw hforward hnodes
  have hvalued := hforward.valued_of_value hi he hv
  obtain ⟨n, us, hn, hus, heval⟩ := hvalued.inputs
  refine ⟨n, us, hnodes ▸ hn, hus, heval, hvalued.after, fun feed => ?_⟩
  calc model.evaluate i feed
    _ = a.toModel.evaluate i feed := by rw [toModel, hnodes]
    _ = evaluateAll a.nodes feed a.plan noResults i :=
      Model.evaluate_eq (m := a.toModel) hw.ordered hw.lt hw.resolved hi
    _ = .ok v := hforward.evaluateAll_eq_of_valued hw i hi v hvalued

/-- A constant that is added to itself, once through an identity. -/
def doubledConstant : Model := ⟨[
  ⟨0, "c", "Const", .const (integerPair 2 (-5)), []⟩,
  ⟨1, "y", "Identity", .identity, [⟨0, none⟩]⟩,
  ⟨2, "z", "Add", .add, [⟨0, none⟩, ⟨1, none⟩]⟩]⟩

/-- When the sum has not been visited, the identity already hands on the constant, which
is what it evaluates to. -/
theorem doubledConstant_flows : ∃ start, Analysis.start doubledConstant 2 none = .ok start ∧
    (∃ e ∈ (start.afterAll [.hint 2 integerPairs, .step, .step]).edgesFrom 2, e.fact.value = none) ∧
    (∃ e ∈ (start.afterAll [.hint 2 integerPairs, .step, .step]).edgesFrom 1,
      e.fact.value = some (integerPair 2 (-5))) ∧
    ∀ feed, doubledConstant.evaluate 1 feed = .ok (integerPair 2 (-5)) := by
  have hlib : ∀ n ∈ doubledConstant.nodes, n.op.IsLibrary := by
    intro n hn
    simp only [doubledConstant, List.mem_cons, List.not_mem_nil, or_false] at hn
    rcases hn with rfl | rfl | rfl <;> trivial
  have hxs : ∀ x ∈ [Action.hint 2 integerPairs, .step, .step], x.Valueless := by
    intro x hx
    simp only [List.mem_cons, List.not_mem_nil, or_false] at hx
    rcases hx with rfl | rfl | rfl
    · exact rfl
    all_goals trivial
  obtain ⟨start, hstart, hplan, hsum, e, he, hv⟩ : ∃ start, Analysis.start doubledConstant 2 none = .ok start ∧
      1 ∈ (start.afterAll [.hint 2 integerPairs, .step, .step]).plan ∧
      (∃ e ∈ (start.afterAll [.hint 2 integerPairs, .step, .step]).edgesFrom 2, e.fact.value = none) ∧
      ∃ e ∈ (start.afterAll [.hint 2 integerPairs, .step, .step]).edgesFrom 1,
        e.fact.value = some (integerPair 2 (-5)) :=
    ⟨_, rfl, by decide, ⟨_, .head _, rfl⟩, _, .head _, rfl⟩
  obtain ⟨n, us, -, -, -, -, heval⟩ := values_flow_forwards hlib hstart hxs rfl hplan he hv
  exact ⟨start, hstart, hsum, ⟨e, he, hv⟩, heval⟩

end Analysis

end EdgeFacts
