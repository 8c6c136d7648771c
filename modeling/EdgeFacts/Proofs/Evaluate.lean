/-
# Evaluation of whole graphs

The nodes of a plan are evaluated one after the other; inputs of the model are
fed. In an order of the producers the result at a node is what its operator
computes from the results at its producers; later nodes change nothing
(`evaluateAll_eq`), and neither do nodes that are left out (`Model.evaluate_eq`).
So an execution is what evaluation gives, up to the values of elements
(`evaluateAll_of_execution`).

Key definitions: `evaluateNode`, `evaluateAll`, `Model.evaluate`.
Key theorems: `evaluateAll_eq`, `Model.evaluate_eq`, `evaluateAll_of_execution`.
-/
import Mathlib.Logic.Function.Basic
import EdgeFacts.Proofs.Sound

namespace EdgeFacts

/-- What a node computes from the results of others; an input of the model is fed. -/
def evaluateNode (nodes : List Node) (feed results : Nat → Except Failure Tensor) (i : Nat) :
    Except Failure Tensor := do
  let n ← itemAt nodes i
  if n.op.isPlaceholder then feed i
  else n.op.eval (← n.producers.mapM results)

/-- The results of the nodes of a plan, one after the other. -/
def evaluateAll (nodes : List Node) (feed : Nat → Except Failure Tensor) :
    List Nat → (Nat → Except Failure Tensor) → Nat → Except Failure Tensor
  | [], results => results
  | i :: rest, results =>
    evaluateAll nodes feed rest (Function.update results i (evaluateNode nodes feed results i))

/-- Before anything is evaluated. -/
def noResults (_ : Nat) : Except Failure Tensor := .error (.primitive .noSuchKey)

/-- What a model computes at its output from what it is fed. -/
def Model.evaluate (m : Model) (output : Int) (feed : Nat → Except Failure Tensor) :
    Except Failure Tensor := do
  let plan ← Plan.ofNodes m.nodes [output]
  evaluateAll m.nodes feed plan noResults output.toNat

variable {nodes : List Node} {feed : Nat → Except Failure Tensor}

theorem evaluateAll_of_notMem : ∀ {plan : List Nat} {results : Nat → Except Failure Tensor} {i : Nat},
    i ∉ plan → evaluateAll nodes feed plan results i = results i
  | [], _, _, _ => rfl
  | j :: rest, results, i, h => by
    simp only [List.mem_cons, not_or] at h
    rw [evaluateAll, evaluateAll_of_notMem h.2, Function.update_of_ne h.1]

theorem evaluateNode_eq {results : Nat → Except Failure Tensor} {i : Nat} {n : Node}
    (hn : nodes[i]? = some n) : evaluateNode nodes feed results i =
      if n.op.isPlaceholder then feed i else n.producers.mapM results >>= n.op.eval := by
  rw [evaluateNode, itemAt_eq_ok_iff.2 hn]
  rfl

theorem evaluateNode_congr {results results' : Nat → Except Failure Tensor} {i : Nat}
    (h : ∀ p ∈ Plan.producersAt nodes i, results p = results' p) :
    evaluateNode nodes feed results i = evaluateNode nodes feed results' i := by
  unfold evaluateNode
  cases hn : nodes[i]? with
  | none => simp [itemAt, hn, orFail, bind, Except.bind]
  | some n =>
    have hmap : n.producers.mapM results = n.producers.mapM results' := by
      exact mapM_congr fun p hp => h p (Plan.mem_producersAt_of_node hn hp)
    simp only [itemAt_eq_ok_iff.2 hn, bind, Except.bind, hmap]

/-- **The result at a node** comes from the results at its producers. -/
theorem evaluateAll_eq : ∀ {plan done : List Nat} {results : Nat → Except Failure Tensor} {i : Nat},
    Plan.Ordered (Plan.producersAt nodes) done plan → i ∈ plan →
    evaluateAll nodes feed plan results i =
      evaluateNode nodes feed (evaluateAll nodes feed plan results) i
  | j :: rest, done, results, i, h, hi => by
    rw [evaluateAll]
    by_cases hir : i ∈ rest
    · exact evaluateAll_eq h.2.2 hir
    obtain rfl : i = j := by simpa [hir] using hi
    rw [evaluateAll_of_notMem hir, Function.update_self]
    refine evaluateNode_congr fun p hp => ?_
    have hdone : p ∈ done := h.2.1 hp
    have hpi : p ≠ i := fun hpi => h.1 (hpi ▸ hdone)
    have hpr : p ∉ rest := fun hpr => h.2.2.nodup.2 p hpr (.tail _ hdone)
    rw [evaluateAll_of_notMem hpr, Function.update_of_ne hpi]

theorem evaluateAll_of_subset {plan plan' : List Nat} (ho : Plan.Ordered (Plan.producersAt nodes) [] plan)
    (ho' : Plan.Ordered (Plan.producersAt nodes) [] plan') (hsub : plan' ⊆ plan) :
    ∀ i ∈ plan', evaluateAll nodes feed plan' noResults i = evaluateAll nodes feed plan noResults i := by
  refine ho'.induction (fun i hi => nomatch hi) fun i hi ih => ?_
  rw [evaluateAll_eq ho' hi, evaluateAll_eq ho (hsub hi)]
  exact evaluateNode_congr ih

/-- What a model computes at a node of a plan is the result there. -/
theorem Model.evaluate_eq {m : Model} {plan : List Nat}
    (ho : Plan.Ordered (Plan.producersAt m.nodes) [] plan) (hlt : ∀ i ∈ plan, i < m.nodes.length)
    (hresolved : ∀ i, Plan.Resolved m.nodes i) {i : Nat} (hi : i ∈ plan) :
    m.evaluate i feed = evaluateAll m.nodes feed plan noResults i := by
  have hmem : ∀ k, Plan.Required m.nodes (i : Int).toNat k → k ∈ plan := by
    intro k hk
    induction hk with
    | output => exact hi
    | producer _ hp ih => exact (ho.idxOf_lt ih hp).1
  have houtput : (0 : Int) ≤ i ∧ (i : Int) < m.nodes.length := ⟨Int.natCast_nonneg i, by have := hlt i hi; omega⟩
  obtain ⟨plan', hplan'⟩ : ∃ plan', Plan.ofNodes m.nodes [(i : Int)] = .ok plan' :=
    Plan.exists_ofNodes houtput (fun k _ => hresolved k) fun k hk p hp => (ho.idxOf_lt (hmem k hk) hp).2
  have hvalid := Plan.ofNodes_spec hplan'
  simp only [evaluate, hplan', bind, Except.bind]
  exact evaluateAll_of_subset ho hvalid.ordered (fun k hk => hmem k ((hvalid.mem_iff k).1 hk)) i
    ((hvalid.mem_iff i).2 .output)

/-- **An execution is what evaluation gives**, up to the values of elements. -/
theorem evaluateAll_of_execution {plan : List Nat} {value : Nat → Tensor}
    {results : Nat → Except Failure Tensor} (ho : Plan.Ordered (Plan.producersAt nodes) [] plan)
    (hlt : ∀ i ∈ plan, i < nodes.length) (hlib : ∀ n ∈ nodes, n.op.IsLibrary)
    (hex : Execution nodes (· ∈ plan) value)
    (hfeed : ∀ i ∈ plan, ∀ n, nodes[i]? = some n → n.op.isPlaceholder = true → feed i = .ok (value i)) :
    ∀ i ∈ plan, ∃ t, evaluateAll nodes feed plan results i = .ok t ∧ t.same (value i) = true := by
  refine ho.induction (fun i hi => nomatch hi) fun i hi ih => ?_
  obtain ⟨n, hn⟩ : ∃ n, nodes[i]? = some n := ⟨_, List.getElem?_eq_getElem (hlt i hi)⟩
  rw [evaluateAll_eq ho hi, evaluateNode_eq hn]
  by_cases hp : n.op.isPlaceholder = true
  · rw [if_pos hp]
    exact ⟨_, hfeed i hi n hn hp, Tensor.same_refl _⟩
  rw [if_neg hp]
  obtain ⟨u, hu, hsame⟩ := (hex.computes i n hn hi).eval (by simpa using hp)
  have hproducers : ∀ p ∈ n.producers, ∃ t, evaluateAll nodes feed plan results p = .ok t ∧
      t.same (value p) = true := fun p hpn => ih p (Plan.mem_producersAt_of_node hn hpn)
  obtain ⟨ts, hts⟩ := exists_forall₂_of_forall hproducers
  have hmap : n.producers.mapM (evaluateAll nodes feed plan results) = .ok ts :=
    mapM_eq_ok_iff.2 (hts.imp fun _ _ h => h.1)
  have hvalues : SameTensors (n.producers.map value) ts := by
    rw [SameTensors, List.forall₂_map_left_iff]
    exact hts.imp fun _ _ h => Tensor.same_symm h.2
  obtain ⟨t, ht, hut⟩ := Operator.eval_same (hlib n (List.mem_of_getElem? hn)) hvalues hu
  rw [hmap]
  exact ⟨t, ht, Tensor.same_trans (Tensor.same_symm hut) hsame⟩

end EdgeFacts
