/-
# Whatever is done to it, an analysis stays consistent

What can be read off the parts of an analysis at any time (`Analysis.Consistent`):
ids are positions, every input of a node has its edge, every edge stands once in
the list of each of its ends, the plan is an order of what the output needs, and
the nodes are a valid model. All of it follows from well-formedness and from
names that differ, which no action changes, for operators of every kind. Since
rounds over operators that a user defines may go on for ever, runs of any length
are among the calls here (`Call`).

Key definitions: `Call`, `Analysis.Consistent`.
Key theorems: `Model.validate_eq_ok_iff`, `Analysis.WellFormed.consistent`,
`Analysis.consistent_afterCalls`.
-/
import EdgeFacts.Proofs.Reachable
import EdgeFacts.Proofs.Sound

namespace EdgeFacts

/-! ### Valid models -/

namespace Model

theorem checkInputs_eq_ok_iff {count : Nat} {n : Node} : ∀ {xs : List Input},
    checkInputs count n xs = .ok () ↔ ∀ x ∈ xs, 0 ≤ x.producer ∧ x.producer < count
  | [] => by simp [checkInputs]
  | x :: xs => by
    rw [checkInputs, List.forall_mem_cons]
    split
    · rename_i hx
      rw [checkInputs_eq_ok_iff]
      exact ⟨fun h => ⟨hx, h⟩, And.right⟩
    · rename_i hx
      exact ⟨fun h => (nomatch h), fun h => absurd h.1 hx⟩

theorem checkNodes_cons {count position : Nat} {seen : List String} {m : Node} {nodes : List Node} :
    checkNodes count position seen (m :: nodes) = .ok () ↔
      m.id = position ∧ m.name ∉ seen ∧ checkInputs count m m.inputs = .ok () ∧
        checkNodes count (position + 1) (m.name :: seen) nodes = .ok () := by
  rw [checkNodes]
  by_cases hid : m.id = position
  · by_cases hseen : m.name ∈ seen
    · simp [hid, hseen, bind, Except.bind, throw, throwThe, MonadExceptOf.throw]
    · simp only [hid, hseen, ne_eq, not_true_eq_false, if_false, List.contains_iff_mem]
      cases checkInputs count m m.inputs <;> simp [bind, Except.bind]
  · simp [hid, bind, Except.bind, throw, throwThe, MonadExceptOf.throw]

theorem checkNodes_eq_ok_iff {count : Nat} : ∀ {nodes : List Node} {position : Nat} {seen : List String},
    checkNodes count position seen nodes = .ok () ↔
      (∀ (i : Nat) (n : Node), nodes[i]? = some n → n.id = ((position + i : Nat) : Int)) ∧
      (∀ n ∈ nodes, n.name ∉ seen) ∧ (nodes.map Node.name).Nodup ∧
      ∀ n ∈ nodes, ∀ x ∈ n.inputs, 0 ≤ x.producer ∧ x.producer < count
  | [], position, seen => by simp [checkNodes]
  | m :: nodes, position, seen => by
    have hids : (∀ (i : Nat) (n : Node), (m :: nodes)[i]? = some n → n.id = ((position + i : Nat) : Int)) ↔
        m.id = position ∧
          ∀ (i : Nat) (n : Node), nodes[i]? = some n → n.id = ((position + 1 + i : Nat) : Int) := by
      refine ⟨fun h => ⟨h 0 m rfl, fun i n hn => ?_⟩, fun ⟨hm, h⟩ i n hn => ?_⟩
      · rw [h (i + 1) n hn, Nat.add_assoc, Nat.add_comm 1 i]
      · cases i with
        | zero =>
          cases hn
          exact hm
        | succ i => rw [h i n hn, Nat.add_assoc, Nat.add_comm 1 i]
    rw [checkNodes_cons, checkInputs_eq_ok_iff, checkNodes_eq_ok_iff, hids]
    simp only [List.map_cons, List.nodup_cons, List.mem_cons, not_or, List.mem_map,
      not_exists, not_and]
    grind

theorem validate_eq_ok_iff {m : Model} : m.validate = .ok () ↔
    (∀ (i : Nat) (n : Node), m.nodes[i]? = some n → n.id = i) ∧ (m.nodes.map Node.name).Nodup ∧
      ∀ n ∈ m.nodes, ∀ x ∈ n.inputs, 0 ≤ x.producer ∧ x.producer < m.nodes.length := by
  simp [validate, checkNodes_eq_ok_iff]

end Model

namespace Analysis

/-! ### Names -/

theorem kept_sublist {α : Type} : ∀ (used : List Bool) (xs : List α), (kept used xs).Sublist xs
  | [], xs => by cases xs <;> exact List.nil_sublist _
  | true :: _, [] => .slnil
  | false :: _, [] => .slnil
  | true :: used, _ :: xs => (kept_sublist used xs).cons_cons _
  | false :: used, _ :: xs => (kept_sublist used xs).cons _

theorem map_name_asFolded (a : Analysis) (i : Nat) (value : Tensor) :
    (a.asFolded i value).nodes.map Node.name = a.nodes.map Node.name := by
  refine List.ext_getElem (by simp [asFolded]) fun k hk _ => ?_
  rw [List.getElem_map, List.getElem_map]
  simp only [asFolded, List.getElem_modify]
  split <;> rfl

theorem graphInvariant_names : GraphInvariant fun a => (a.nodes.map Node.name).Nodup where
  sameGraph h ha := by
    rw [h.nodes]
    exact ha
  asFolded {a} i value ha := by
    rw [map_name_asFolded]
    exact ha
  replan ha _ := ha
  pruned {a} _ ha := by
    have hnames : a.pruned.nodes.map Node.name = (kept a.usedNodes a.nodes).map Node.name := by
      rw [pruned, List.map_map]
      rfl
    rw [hnames]
    exact ha.sublist ((kept_sublist _ _).map _)

/-! ### What can be read off an analysis -/

/-- What holds of the parts of an analysis at any time. -/
structure Consistent (a : Analysis) : Prop where
  nodeIds : ∀ (i : Nat) (n : Node), a.nodes[i]? = some n → n.id = i
  edgeIds : ∀ (j : Nat) (e : Edge), a.edges[j]? = some e → e.id = j
  /-- Each node has one edge per input, in order, from the producer and the slot. -/
  inputs : ∀ (i : Nat) (n : Node), a.nodes[i]? = some n → ∃ js, a.incoming[i]? = some js ∧
    List.Forall₂ (fun (j : Nat) (x : Input) => ∃ (e : Edge) (p : Nat), a.edges[j]? = some e ∧
      x.producer = (p : Int) ∧ e.source = some p ∧ e.port = x.slot.getD 0 ∧ e.target = some i) js n.inputs
  /-- An edge is listed once at its target and nowhere else. -/
  incoming : ∀ (j : Nat) (e : Edge), a.edges[j]? = some e →
    ∀ i, (a.incoming.getD i []).count j = if e.target = some i then 1 else 0
  /-- An edge is listed once at its source and nowhere else. -/
  outgoing : ∀ (j : Nat) (e : Edge), a.edges[j]? = some e →
    ∀ i, (a.outgoing.getD i []).count j = if e.source = some i then 1 else 0
  /-- One edge leaves the graph from its output, which is planned. -/
  terminal : ∃ o ∈ a.plan, a.output = (o : Int) ∧ ∃ e ∈ a.edges, e.source = some o ∧ e.port = 0 ∧
    e.target = none
  plan_nodup : a.plan.Nodup
  plan_lt : ∀ i ∈ a.plan, i < a.nodes.length
  /-- Every producer of a planned node is planned before it. -/
  plan_ordered : ∀ (k i : Nat) (n : Node), a.plan[k]? = some i → a.nodes[i]? = some n →
    ∀ x ∈ n.inputs, ∃ (l p : Nat), l < k ∧ a.plan[l]? = some p ∧ x.producer = (p : Int)
  stepIndex_lt : a.stepIndex < a.plan.length
  valid : a.toModel.validate = .ok ()
  /-- Pruning succeeds. -/
  prunes : ∃ mapping, a.prune.1 = .ok mapping

/-- Where each node lists the edges with one of their tips at it, an edge is listed
once, at that tip. -/
theorem count_listed {edges : List Edge} (hids : ∀ (j : Nat) (e : Edge), edges[j]? = some e → e.id = j)
    {count : Nat} {tip : Edge → Option Nat} (htip : ∀ e ∈ edges, ∀ i, tip e = some i → i < count)
    {lists : List (List Nat)}
    (hlists : lists = (List.range count).map fun i => (edges.filter fun e => tip e = some i).map Edge.id)
    {j : Nat} {e : Edge} (he : edges[j]? = some e) (i : Nat) :
    (lists.getD i []).count j = if tip e = some i then 1 else 0 := by
  have hmem := List.mem_of_getElem? he
  by_cases hi : i < count
  · have hlist : lists[i]? = some ((edges.filter fun e => tip e = some i).map Edge.id) := by
      simp [hlists, hi]
    have hnodup : ((edges.filter fun e => tip e = some i).map Edge.id).Nodup :=
      (nodup_of_edgeIds hids).sublist (List.filter_sublist.map Edge.id)
    rw [List.getD_eq_getElem?_getD, hlist, Option.getD_some, hnodup.count]
    refine if_congr ⟨fun hj => ?_, fun ht => ?_⟩ rfl rfl
    · obtain ⟨d, hd, hid⟩ := List.mem_map.1 hj
      obtain ⟨hd, ht⟩ := List.mem_filter.1 hd
      obtain ⟨k, hk⟩ := List.mem_iff_getElem?.1 hd
      obtain rfl : k = j := (hids k d hk).symm.trans hid
      cases he.symm.trans hk
      exact of_decide_eq_true ht
    · exact List.mem_map.2 ⟨e, List.mem_filter.2 ⟨hmem, decide_eq_true ht⟩, hids j e he⟩
  · have hlist : lists[i]? = none := by
      rw [List.getElem?_eq_none_iff, hlists, List.length_map, List.length_range]
      exact Nat.le_of_not_lt hi
    rw [List.getD_eq_getElem?_getD, hlist, if_neg fun ht => hi (htip e hmem i ht)]
    rfl

/-- **A well-formed analysis of nodes whose names differ is consistent.** -/
theorem WellFormed.consistent {a : Analysis} (hw : WellFormed a) (hnames : (a.nodes.map Node.name).Nodup) :
    Consistent a where
  nodeIds := hw.ids
  edgeIds := hw.edgeIds
  inputs i n hn := by
    have hlt := (List.getElem?_eq_some_iff.1 hn).1
    refine ⟨_, hw.toLinked.incoming_getElem? hlt, ?_⟩
    have horigins : List.Forall₂ (fun (e : Edge) (x : Input) => e.origin = x.origin) (a.edgesInto i) n.inputs := by
      have heq := hw.inputs i n hn
      rw [← List.forall₂_eq_eq_eq, List.forall₂_map_left_iff, List.forall₂_map_right_iff] at heq
      exact heq
    rw [List.forall₂_map_left_iff]
    refine List.forall₂_iff_get.2 ⟨horigins.length_eq, fun k hk hk' => ?_⟩
    have ho := horigins.get hk hk'
    obtain ⟨he, ht⟩ := mem_edgesInto.1 (List.get_mem _ ⟨k, hk⟩)
    have hx := hw.resolved i n hn _ (List.get_mem _ ⟨k, hk'⟩)
    simp only [Edge.origin, Input.origin, Prod.mk.injEq] at ho
    exact ⟨_, _, hw.toLinked.getElem?_id he, (Int.toNat_of_nonneg hx.1).symm, ho.1, ho.2, ht⟩
  incoming _ _ he := count_listed hw.edgeIds hw.target_lt hw.incoming he
  outgoing _ _ he := count_listed hw.edgeIds hw.source_lt hw.outgoing he
  terminal := by
    obtain ⟨e, he, ho, ht⟩ := hw.terminal
    simp only [Edge.origin, Prod.mk.injEq] at ho
    exact ⟨_, hw.output_mem, (Int.toNat_of_nonneg hw.output_lt.1).symm, e, he, ho.1, ho.2, ht⟩
  plan_nodup := hw.ordered.nodup.1
  plan_lt := hw.lt
  plan_ordered k i n hk hn x hx := by
    have hi := List.mem_of_getElem? hk
    have hnonneg := (hw.resolved i n hn x hx).1
    obtain ⟨hp, hlt⟩ := hw.ordered.idxOf_lt hi (Plan.mem_producersAt.2 ⟨n, hn, x, hx, rfl⟩)
    have hidx : a.plan.idxOf i = k := by
      obtain ⟨hklt, rfl⟩ := List.getElem?_eq_some_iff.1 hk
      exact hw.ordered.nodup.1.idxOf_getElem k hklt
    refine ⟨_, _, hidx ▸ hlt, List.getElem?_eq_some_iff.2 ⟨List.idxOf_lt_length_of_mem hp, ?_⟩,
      (Int.toNat_of_nonneg hnonneg).symm⟩
    exact List.getElem_idxOf _
  stepIndex_lt := hw.stepIndex_lt
  valid := by
    refine Model.validate_eq_ok_iff.2 ⟨hw.ids, hnames, fun n hn x hx => ?_⟩
    obtain ⟨i, hi⟩ := List.mem_iff_getElem?.1 hn
    exact hw.resolved i n hi x hx
  prunes := ⟨_, congrArg Prod.fst (prune_eq hw.toLinked hw.toPlanned)⟩

/-! ### Calls -/

end Analysis

/-- What a user can call: an action, or a run of as many rounds as it takes,
given as a number that it does not exceed. -/
inductive Call where
  | act (x : Action)
  | runWithin (count : Nat)

/-- Whether a call tells nothing but facts of some kind. -/
def Call.Tells (Told : TensorFact → Prop) : Call → Prop
  | .act x => x.Tells Told
  | .runWithin _ => True

theorem Call.tells_true : ∀ x : Call, x.Tells fun _ => True
  | .act x => x.tells_true
  | .runWithin _ => trivial

namespace Analysis

/-- The analysis that a run leaves within a number of rounds, whether it settles,
fails or is still at work. -/
def ranWithin (a : Analysis) (count : Nat) : Analysis :=
  (rounds a.roundLimit count 0 { a with passIndex := 0 }).2

/-- The analysis that a call leaves, also if it fails. -/
def afterCall (a : Analysis) : Call → Analysis
  | .act x => a.after x
  | .runWithin count => a.ranWithin count

/-- The analysis that calls leave, one after the other. -/
def afterCalls (a : Analysis) (xs : List Call) : Analysis := xs.foldl afterCall a

theorem ActionInvariant.afterCall {Told : TensorFact → Prop} {P : Analysis → Prop} (hP : ActionInvariant Told P)
    {a : Analysis} (hw : WellFormed a) (h : P a) : ∀ {x : Call}, x.Tells Told →
    (x = .act .prune → P a.pruned) → WellFormed (a.afterCall x) ∧ P (a.afterCall x)
  | .act _, hx, hpruned => hP.after hw h hx fun heq => hpruned (congrArg Call.act heq)
  | .runWithin _, _, _ => hP.toRunInvariant.rounds (movedTo_wellFormed hw hw.stepIndex_lt)
      (hP.movedTo 0 a.stepIndex a.forward h)

/-- Calls leave a well-formed analysis, and what actions and pruning keep. -/
theorem ActionInvariant.afterCalls {Told : TensorFact → Prop} {P : Analysis → Prop} (hP : ActionInvariant Told P)
    (hpruned : ∀ {a : Analysis}, WellFormed a → P a → P a.pruned) : ∀ {xs : List Call} {a : Analysis},
    WellFormed a → P a → (∀ x ∈ xs, x.Tells Told) → WellFormed (a.afterCalls xs) ∧ P (a.afterCalls xs)
  | [], _, hw, h, _ => ⟨hw, h⟩
  | x :: xs, a, hw, h, htold => by
    obtain ⟨hwx, hx⟩ := hP.afterCall hw h (htold x (.head _)) fun _ => hpruned hw h
    have tail : WellFormed ((a.afterCall x).afterCalls xs) ∧ P ((a.afterCall x).afterCalls xs) :=
      hP.afterCalls hpruned hwx hx fun y hy => htold y (.tail _ hy)
    exact tail

theorem GraphInvariant.afterCalls {P : Analysis → Prop} (hP : GraphInvariant P) {xs : List Call} {a : Analysis}
    (hw : WellFormed a) (h : P a) : WellFormed (a.afterCalls xs) ∧ P (a.afterCalls xs) :=
  hP.actionInvariant.afterCalls hP.pruned hw h fun x _ => x.tells_true

theorem afterCalls_wellFormed {a : Analysis} (hw : WellFormed a) (xs : List Call) :
    WellFormed (a.afterCalls xs) :=
  (graphInvariant_true.afterCalls hw trivial).1

/-- **Whatever is called, an analysis stays consistent.** Take an analysis of a
valid model of any operators and any calls, one after the other, whether they
succeed or fail: hints, steps, rounds, runs of any length, folds of any node to
any value, folding of constants, new plans and pruning. The analysis that they
leave is consistent. -/
theorem consistent_afterCalls {model : Model} {output : Int} {limit : Option Nat} {start : Analysis}
    (hvalid : model.validate = .ok ()) (hstart : Analysis.start model output limit = .ok start)
    (xs : List Call) : Consistent (start.afterCalls xs) := by
  obtain ⟨hw, -, -, hnodes, -, -⟩ := start_spec hstart
  have hnames : (start.nodes.map Node.name).Nodup := by
    rw [hnodes]
    exact (Model.validate_eq_ok_iff.1 hvalid).2.1
  have hafter : WellFormed (start.afterCalls xs) ∧ ((start.afterCalls xs).nodes.map Node.name).Nodup :=
    graphInvariant_names.afterCalls hw hnames
  exact hafter.1.consistent hafter.2

/-- The analysis of the positive part of a pair is consistent after a run, after a
hint that contradicts an earlier one, after folding and after pruning. -/
theorem positivePart_consistent : ∃ a, start positivePart 1 none = .ok a ∧
    Consistent (a.afterCalls [.act (.hint 0 (.ofTensor (integerPair 3 (-1)))), .runWithin 7,
      .act (.hint 0 (.ofTensor (integerPair 0 0))), .act .foldConstants, .act .prune]) := by
  have hstart : start positivePart 1 none = .ok _ := rfl
  exact ⟨_, hstart, consistent_afterCalls rfl hstart _⟩

end Analysis

end EdgeFacts
