/-
# Pruning cannot be observed on what it keeps

Pruning gives a mapping: the planned nodes get the numbers from 0 on, in order,
and the others get none. What is left corresponds to what was there by this mapping
(`Analysis.KeptBy`): nodes keep their names, operators and inputs, and the edges
into and out of a node keep their order, ports and facts. This stays so
whatever hints are given for nodes that are kept and whatever is run: both analyses
give the same answers (`Analysis.prune_unobservable`). To prune again changes nothing.

Key definitions: `Retained`, `Analysis.KeptBy`, `Query`, `Analysis.answers`.
Key theorems: `Analysis.keptBy_core`, `Analysis.answers_core`, `Analysis.prune_pruned`,
`Analysis.prune_unobservable`.
-/
import Mathlib.Data.List.ReduceOption
import EdgeFacts.Proofs.Consistent
import EdgeFacts.Proofs.Core
import EdgeFacts.Proofs.PlanRenaming

namespace EdgeFacts

/-! ### What corresponds to what -/

/-- Whether a mapping gives a node a new number. -/
def Retained (mapping : List (Option Nat)) (i k : Nat) : Prop := mapping[i]? = some (some k)

/-- Whether numbers are of one node, before and after renumbering. -/
def SameNode (mapping : List (Option Nat)) (i k : Int) : Prop :=
  0 ≤ i ∧ 0 ≤ k ∧ Retained mapping i.toNat k.toNat

/-- Whether an edge is left of another: the ends at nodes with no new number are lost. -/
structure Edge.LeftOf (mapping : List (Option Nat)) (e d : Edge) : Prop where
  source : d.source = e.source.bind fun i => mapping[i]?.join
  target : d.target = e.target.bind fun i => mapping[i]?.join
  port : d.port = e.port
  fact : d.fact = e.fact

/-- Whether a node is left of another. -/
structure Node.LeftOf (mapping : List (Option Nat)) (n m : Node) : Prop where
  id : SameNode mapping n.id m.id
  name : m.name = n.name
  label : m.label = n.label
  op : m.op = n.op
  inputs : List.Forall₂ (fun x y => y.slot = x.slot ∧ SameNode mapping x.producer y.producer) n.inputs m.inputs

namespace Analysis

/-- Whether the edges with some numbers are left of those with others, in order. -/
def EdgesLeft (mapping : List (Option Nat)) (a b : Analysis) : List Nat → List Nat → Prop :=
  List.Forall₂ fun j k => ∃ e d, a.edges[j]? = some e ∧ b.edges[k]? = some d ∧ d.id = k ∧ e.LeftOf mapping d

/-- Whether an analysis is what a mapping keeps of another one. -/
structure KeptBy (mapping : List (Option Nat)) (a b : Analysis) : Prop where
  length_eq : mapping.length = a.nodes.length
  /-- The planned nodes have new numbers, and the others have none. -/
  none_iff : ∀ i < a.nodes.length, mapping[i]? = some none ↔ i ∉ a.plan
  /-- The new numbers go up from 0 without gaps. -/
  numbers : mapping.reduceOption = List.range b.nodes.length
  nodes : ∀ i k, Retained mapping i k → ∃ n m, a.nodes[i]? = some n ∧ b.nodes[k]? = some m ∧ n.LeftOf mapping m
  incoming : ∀ i k, Retained mapping i k →
    ∃ js ks, a.incoming[i]? = some js ∧ b.incoming[k]? = some ks ∧ EdgesLeft mapping a b js ks
  outgoing : ∀ i k, Retained mapping i k →
    ∃ js ks, a.outgoing[i]? = some js ∧ b.outgoing[k]? = some ks ∧ EdgesLeft mapping a b js ks
  output : SameNode mapping a.output b.output
  plan : List.Forall₂ (Retained mapping) a.plan b.plan
  place : b.passIndex = a.passIndex ∧ b.stepIndex = a.stepIndex ∧ b.forward = a.forward
  roundLimit : b.roundLimit = a.roundLimit

/-! ### The mapping -/

theorem retained_iff {used : List Bool} {i k : Nat} :
    Retained (denseMapping 0 used) i k ↔ used[i]? = some true ∧ newIndex used i = k := by
  rw [Retained, denseMapping_getElem?]
  cases used[i]? with
  | none => simp
  | some u => cases u <;> simp

theorem denseMapping_eq_none_iff {used : List Bool} {i : Nat} :
    (denseMapping 0 used)[i]? = some none ↔ used[i]? = some false := by
  rw [denseMapping_getElem?]
  cases used[i]? with
  | none => simp
  | some u => cases u <;> simp

theorem reduceOption_denseMapping : ∀ {used : List Bool} {next : Nat},
    (denseMapping next used).reduceOption = List.range' next (used.count true)
  | [], _ => rfl
  | true :: used, next => by
    rw [denseMapping, List.reduceOption_cons_of_some, reduceOption_denseMapping, List.count_cons_self,
      List.range'_succ]
  | false :: used, next => by
    rw [denseMapping, List.reduceOption_cons_of_none, reduceOption_denseMapping,
      List.count_cons_of_ne (by decide)]

variable {a : Analysis}

theorem retained_of_mem (hp : Planned a) {i : Nat} (hi : i ∈ a.plan) :
    Retained (denseMapping 0 a.usedNodes) i (newIndex a.usedNodes i) :=
  retained_iff.2 ⟨(usedNodes_getElem? hp).2 hi, rfl⟩

/-! ### What the core keeps -/

theorem node_leftOf (hl : Linked a) (hp : Planned a) {i : Nat} (hi : i ∈ a.plan) {n : Node}
    (hn : a.nodes[i]? = some n) : n.LeftOf (denseMapping 0 a.usedNodes) (renumberNode a.usedNodes n) := by
  refine ⟨⟨?_, Int.natCast_nonneg _, ?_⟩, rfl, rfl, rfl, ?_⟩
  · rw [hl.ids i n hn]
    exact Int.natCast_nonneg i
  · rw [hl.ids i n hn, renumberNode, hl.ids i n hn]
    exact retained_of_mem hp hi
  · rw [renumberNode, List.forall₂_map_right_iff]
    refine List.forall₂_same.2 fun x hx => ⟨rfl, (hl.resolved i n hn x hx).1, Int.natCast_nonneg _, ?_⟩
    have hproducer := (hp.ordered.idxOf_lt hi (Plan.mem_producersAt.2 ⟨n, hn, x, hx, rfl⟩)).1
    exact retained_of_mem hp hproducer

theorem edgesLeft_core (hl : Linked a) {js : List Nat} (h : ∀ j ∈ js, a.usedEdges[j]? = some true) :
    EdgesLeft (denseMapping 0 a.usedNodes) a a.core js (js.map (newIndex a.usedEdges)) := by
  rw [EdgesLeft, List.forall₂_map_right_iff]
  refine List.forall₂_same.2 fun j hj => ?_
  have hlt : j < a.edges.length := length_usedEdges a ▸ (List.getElem?_eq_some_iff.1 (h j hj)).1
  have he := List.getElem?_eq_getElem hlt
  have hd := core_edge (h j hj)
  rw [itemAt_eq_ok_iff.2 he] at hd
  refine ⟨_, _, he, itemAt_eq_ok_iff.1 hd, ?_, ?_, ?_, rfl, rfl⟩
  · rw [renumberEdge, hl.edgeIds j _ he]
  · simp only [renumberEdge, denseMapping_join]
  · simp only [renumberEdge, denseMapping_join]

/-- **The core is what is kept.** -/
theorem keptBy_core (hw : WellFormed a) : KeptBy (denseMapping 0 a.usedNodes) a a.core := by
  have hl := hw.toLinked
  have hp := hw.toPlanned
  have hplanned {i k : Nat} (h : Retained (denseMapping 0 a.usedNodes) i k) :
      i ∈ a.plan ∧ newIndex a.usedNodes i = k :=
    ⟨(usedNodes_getElem? hp).1 (retained_iff.1 h).1, (retained_iff.1 h).2⟩
  refine ⟨?_, ?_, ?_, ?_, ?_, ?_, ?_, ?_, ⟨rfl, rfl, rfl⟩, rfl⟩
  · rw [length_denseMapping, length_usedNodes]
  · intro i hi
    rw [denseMapping_eq_none_iff, ← usedNodes_getElem? hp,
      List.getElem?_eq_getElem ((length_usedNodes a).symm ▸ hi)]
    simp
  · have hlen : a.core.nodes.length = a.usedNodes.count true :=
      (List.length_map _).trans (length_kept (length_usedNodes a))
    rw [reduceOption_denseMapping, hlen, List.range_eq_range']
  · intro i k hik
    obtain ⟨hi, rfl⟩ := hplanned hik
    have hn := List.getElem?_eq_getElem (hp.lt i hi)
    have hm := pruned_getElem? hp hi
    rw [hn] at hm
    exact ⟨_, _, hn, hm, node_leftOf hl hp hi hn⟩
  · intro i k hik
    obtain ⟨hi, rfl⟩ := hplanned hik
    obtain ⟨before, -, hbefore, -, hcore, -, hused, -⟩ := core_around hl hp hi
    exact ⟨_, _, hbefore, hcore, edgesLeft_core hl hused⟩
  · intro i k hik
    obtain ⟨hi, rfl⟩ := hplanned hik
    obtain ⟨-, after, -, hafter, -, hcore, -, hused⟩ := core_around hl hp hi
    exact ⟨_, _, hafter, hcore, edgesLeft_core hl hused⟩
  · refine ⟨hl.output_lt.1, Int.natCast_nonneg _, ?_⟩
    exact retained_of_mem hp hp.output_mem
  · refine List.forall₂_map_right_iff.2 (List.forall₂_same.2 fun i hi => ?_)
    exact retained_of_mem hp hi

/-! ### Pruning again -/

theorem kept_of_all {α : Type} : ∀ {used : List Bool} {xs : List α}, used.length = xs.length →
    (∀ u ∈ used, u = true) → kept used xs = xs
  | [], [], _, _ => rfl
  | u :: used, x :: xs, hl, h => by
    obtain rfl := h u (.head _)
    rw [kept, kept_of_all (Nat.succ.inj hl) fun u hu => h u (.tail _ hu)]

theorem newIndex_of_all {used : List Bool} (h : ∀ u ∈ used, u = true) {i : Nat} (hi : i ≤ used.length) :
    newIndex used i = i := by
  have hall : ∀ u ∈ used.take i, true = u := fun u hu => (h u (List.mem_of_mem_take hu)).symm
  rw [newIndex, List.count_eq_length.2 hall, List.length_take, Nat.min_eq_left hi]

theorem denseMapping_of_all {used : List Bool} (h : ∀ u ∈ used, u = true) :
    denseMapping 0 used = (List.range used.length).map some := by
  refine List.ext_getElem (by rw [length_denseMapping, List.length_map, List.length_range]) fun i hi _ => ?_
  rw [length_denseMapping] at hi
  have hu : used[i]? = some true := (List.getElem?_eq_getElem hi).trans (congrArg some (h _ (List.getElem_mem hi)))
  have hi' := retained_iff.2 ⟨hu, newIndex_of_all h hi.le⟩
  obtain ⟨_, hget⟩ := List.getElem?_eq_some_iff.1 hi'
  rw [hget, List.getElem_map, List.getElem_range]

theorem map_of_fixed {α : Type} {f : α → α} {xs : List α} (h : ∀ x ∈ xs, f x = x) : xs.map f = xs :=
  (List.map_congr_left h).trans (List.map_id' xs)

/-- The lists of edges list edges. -/
theorem lt_of_mem_lists (hl : Linked a) {js : List Nat} (hjs : js ∈ a.incoming ∨ js ∈ a.outgoing) {j : Nat}
    (hj : j ∈ js) : j < a.edges.length := by
  obtain ⟨p, hp⟩ : ∃ p : Edge → Bool, js = (a.edges.filter p).map Edge.id := by
    rw [hl.incoming, hl.outgoing, incomingOf, outgoingOf] at hjs
    rcases hjs with hjs | hjs
    · obtain ⟨i, -, rfl⟩ := List.mem_map.1 hjs
      exact ⟨_, rfl⟩
    · obtain ⟨i, -, rfl⟩ := List.mem_map.1 hjs
      exact ⟨_, rfl⟩
  obtain ⟨e, he, rfl⟩ := List.mem_map.1 (hp ▸ hj)
  exact (List.getElem?_eq_some_iff.1 (hl.getElem?_id (List.mem_filter.1 he).1)).1

/-- Where all nodes and edges are used, pruning only goes back to the start of the plan. -/
theorem pruned_eq_self (hw : WellFormed a) (hnodes : ∀ u ∈ a.usedNodes, u = true)
    (hedges : ∀ u ∈ a.usedEdges, u = true) : a.pruned = { a with stepIndex := 0 } := by
  have hl := hw.toLinked
  have hnode {i : Nat} (hi : i < a.nodes.length) : newIndex a.usedNodes i = i :=
    newIndex_of_all hnodes (length_usedNodes a ▸ hi.le)
  have hid {i : Int} (h0 : 0 ≤ i) (hi : i < a.nodes.length) : (newIndex a.usedNodes i.toNat : Int) = i := by
    rw [hnode (by omega)]
    exact Int.toNat_of_nonneg h0
  have hend {x : Option Nat} (hx : ∀ i, x = some i → i < a.nodes.length) : x.bind (keptIndex? a.usedNodes) = x := by
    cases x with
    | none => rfl
    | some i =>
      have hlt : i < a.usedNodes.length := length_usedNodes a ▸ hx i rfl
      have hu : a.usedNodes[i]? = some true :=
        (List.getElem?_eq_getElem hlt).trans (congrArg some (hnodes _ (List.getElem_mem hlt)))
      rw [Option.bind_some, keptIndex?_of_used hu, hnode (hx i rfl)]
  have hedge {j : Nat} (hj : j < a.edges.length) : newIndex a.usedEdges j = j :=
    newIndex_of_all hedges (length_usedEdges a ▸ hj.le)
  have hlists {lists : List (List Nat)} (hlen : a.usedNodes.length = lists.length)
      (h : ∀ js ∈ lists, ∀ j ∈ js, j < a.edges.length) :
      (kept a.usedNodes lists).map (List.map (newIndex a.usedEdges)) = lists := by
    rw [kept_of_all hlen hnodes]
    exact map_of_fixed fun js hjs => map_of_fixed fun j hj => hedge (h js hjs j hj)
  have hnodes' : (kept a.usedNodes a.nodes).map (renumberNode a.usedNodes) = a.nodes := by
    rw [kept_of_all (length_usedNodes a) hnodes]
    refine map_of_fixed fun n hn => ?_
    obtain ⟨i, hi⟩ := List.mem_iff_getElem?.1 hn
    have hlt := (List.getElem?_eq_some_iff.1 hi).1
    have hnid := hl.ids i n hi
    have hinputs : n.inputs.map (fun x => { x with producer := (newIndex a.usedNodes x.producer.toNat : Int) }) =
        n.inputs := map_of_fixed fun x hx => by
      obtain ⟨h0, hx⟩ := hl.resolved i n hi x hx
      rw [hid h0 hx]
    rw [renumberNode, hinputs, hid (by omega) (by omega)]
  have hedges' : (kept a.usedEdges a.edges).map (renumberEdge a.usedNodes a.usedEdges) = a.edges := by
    rw [kept_of_all (length_usedEdges a) hedges]
    refine map_of_fixed fun e he => ?_
    rw [renumberEdge, hend (hl.source_lt e he), hend (hl.target_lt e he),
      hedge (List.getElem?_eq_some_iff.1 (hl.getElem?_id he)).1]
  have hplan : a.plan.map (newIndex a.usedNodes) = a.plan := map_of_fixed fun i hi => hnode (hw.lt i hi)
  unfold pruned
  rw [hnodes', hedges', hplan, hid hl.output_lt.1 hl.output_lt.2,
    hlists hl.length_lists.1 fun js hjs j => lt_of_mem_lists hl (.inl hjs),
    hlists hl.length_lists.2 fun js hjs j => lt_of_mem_lists hl (.inr hjs)]

/-- **To prune again changes nothing.** -/
theorem prune_pruned (hw : WellFormed a) :
    a.pruned.prune = (.ok ((List.range a.pruned.nodes.length).map some), a.pruned) := by
  have hwp := pruned_wellFormed hw
  have hp := hw.toPlanned
  have hnodes : ∀ u ∈ a.pruned.usedNodes, u = true := by
    intro u hu
    obtain ⟨k, hk⟩ := List.mem_iff_getElem?.1 hu
    have hlt : k < a.pruned.nodes.length := length_usedNodes a.pruned ▸ (List.getElem?_eq_some_iff.1 hk).1
    obtain ⟨i, -, hi, -, rfl, -⟩ := pruned_node hp (List.getElem?_eq_getElem hlt)
    have htrue := (usedNodes_getElem? hwp.toPlanned).2 (List.mem_map_of_mem (f := newIndex a.usedNodes) hi)
    exact Option.some.inj (hk.symm.trans htrue)
  have hedges : ∀ u ∈ a.pruned.usedEdges, u = true := by
    intro u hu
    obtain ⟨k, hk⟩ := List.mem_iff_getElem?.1 hu
    have hlt : k < a.pruned.edges.length := length_usedEdges a.pruned ▸ (List.getElem?_eq_some_iff.1 hk).1
    have hd := List.getElem?_eq_getElem hlt
    obtain ⟨e, he, hed⟩ := Option.map_eq_some_iff.1 ((List.getElem?_map ..).symm.trans hd)
    obtain ⟨j, hj, hje, -⟩ := exists_of_kept he
    have hmem := List.mem_of_getElem? hje
    rw [← hw.edgeIds j e hje] at hj
    obtain ⟨i, hi, hends⟩ := (usedEdges_getElem? hw.toLinked hp hmem).1 hj
    have hui := (usedNodes_getElem? hp).2 hi
    have htouches : a.pruned.edges[k].target = some (newIndex a.usedNodes i) ∨
        a.pruned.edges[k].source = some (newIndex a.usedNodes i) := by
      rw [← hed]
      exact hends.imp (bind_keptIndex? hui).2 (bind_keptIndex? hui).2
    have htrue := (usedEdges_getElem? hwp.toLinked hwp.toPlanned (List.getElem_mem hlt)).2
      ⟨_, List.mem_map_of_mem hi, htouches⟩
    rw [hwp.edgeIds k _ hd] at htrue
    exact Option.some.inj (hk.symm.trans htrue)
  rw [prune_eq hwp.toLinked hwp.toPlanned, pruned_eq_self hwp hnodes hedges, denseMapping_of_all hnodes,
    length_usedNodes]
  rfl

end Analysis

/-! ### Asking both -/

/-- What can be asked of an analysis after pruning: to take a hint for a node, to
take a step or a round, and to run for at most some number of rounds. -/
inductive Query where
  | hint (node : Nat) (fact : TensorFact)
  | step
  | round
  | run (count : Nat)

/-- Whether queries are the same for nodes with new numbers. -/
def Query.SameBy (mapping : List (Option Nat)) : Query → Query → Prop
  | .hint i f, .hint k g => Retained mapping i k ∧ g = f
  | .step, .step => True
  | .round, .round => True
  | .run m, .run n => n = m
  | _, _ => False

namespace Analysis

/-- The answer to a query: whether a step or a round changed a fact, or why the
query failed; and the analysis after it. -/
def answer (a : Analysis) : Query → Outcome (Option Bool)
  | .hint i fact =>
    match a.hint i fact with
    | .ok b => (.ok none, b)
    | .error e => (.error e, a)
  | .step =>
    match a.step with
    | .ok (changed, b) => (.ok (some changed), b)
    | .error e => (.error e, a)
  | .round => (a.round.1.map some, a.round.2)
  | .run count =>
    let ran := rounds a.roundLimit count 0 { a with passIndex := 0 }
    (ran.1.map fun _ => none, ran.2)

/-- The answers to queries, one after the other, and the analysis after them. -/
def answers : List Query → Analysis → List (Except Failure (Option Bool)) × Analysis
  | [], a => ([], a)
  | q :: qs, a => ((a.answer q).1 :: (answers qs (a.answer q).2).1, (answers qs (a.answer q).2).2)

theorem OutcomesRelated.map {α β γ δ : Type} {R : Analysis → Analysis → Prop} {rel : α → β → Prop}
    {rel' : γ → δ → Prop} {alike : Failure → Failure → Prop} {x : Outcome α} {y : Outcome β} {f : α → γ} {g : β → δ}
    (h : OutcomesRelated R rel alike x y) (hfg : ∀ u v, rel u v → rel' (f u) (g v)) :
    OutcomesRelated R rel' alike (x.1.map f, x.2) (y.1.map g, y.2) := by
  rcases h.cases with ⟨e, f, a, b, rfl, rfl, he, hR⟩ | ⟨u, v, a, b, rfl, rfl, huv, hR⟩
  · exact ⟨he, hR⟩
  · exact ⟨hfg u v huv, hR⟩

/-- **An analysis and its core answer a query alike.** -/
theorem answer_core {a : Analysis} (hw : WellFormed a) {q r : Query} (h : q.SameBy (denseMapping 0 a.usedNodes) r) :
    OutcomesRelated (fun b c => WellFormed b ∧ b.usedNodes = a.usedNodes ∧ c = b.core) Eq Failure.Alike
      (a.answer q) (a.core.answer r) := by
  have hlock := lockstep_core a.usedNodes
  have hR : WellFormed a ∧ a.usedNodes = a.usedNodes ∧ a.core = a.core := ⟨hw, rfl, rfl⟩
  cases q with
  | hint i fact =>
    cases r with
    | hint k g =>
      obtain ⟨hik, rfl⟩ := h
      obtain ⟨hu, rfl⟩ := retained_iff.1 hik
      have hi := (usedNodes_getElem? hw.toPlanned).1 hu
      rcases (hint_core (f := g) hw.toLinked hw.toPlanned hi).cases with
        ⟨e, f, hb, hc, he⟩ | ⟨b, c, hb, hc, rfl⟩
      · simp only [answer, hb, hc]
        exact ⟨he, hR⟩
      · simp only [answer, hb, hc]
        exact ⟨rfl, hint_wellFormed hw hb, (hint_sameGraph hb).1.usedNodes_eq, rfl⟩
    | _ => exact h.elim
  | step =>
    cases r with
    | step =>
      rcases (hlock.step hR).cases with ⟨e, f, ha, hc, he⟩ | ⟨⟨x, b⟩, ⟨y, c⟩, ha, hc, rfl, hbc⟩
      · simp only [answer, ha, hc]
        exact ⟨he, hR⟩
      · simp only [answer, ha, hc]
        exact ⟨rfl, hbc⟩
    | _ => exact h.elim
  | round =>
    cases r with
    | round => exact (hlock.round hR).map fun u v huv => congrArg some huv
    | _ => exact h.elim
  | run m =>
    cases r with
    | run n =>
      obtain rfl : n = m := h
      have hstart := hlock.movedTo 0 a.forward hR hw.stepIndex_lt
      have hrun : OutcomesRelated _ (fun _ _ => True) Failure.Alike
          (rounds a.roundLimit n 0 { a with passIndex := 0 })
          (rounds a.roundLimit n 0 { a.core with passIndex := 0 }) :=
        hlock.rounds .refl hstart
      exact hrun.map fun _ _ _ => rfl
    | _ => exact h.elim

/-- **An analysis and its core answer alike**, whatever they are asked. -/
theorem answers_core : ∀ {qs rs : List Query} {a : Analysis}, WellFormed a →
    List.Forall₂ (Query.SameBy (denseMapping 0 a.usedNodes)) qs rs →
    List.Forall₂ (ResultsRelated Eq Failure.Alike) (answers qs a).1 (answers rs a.core).1 ∧
      KeptBy (denseMapping 0 a.usedNodes) (answers qs a).2 (answers rs a.core).2
  | _, _, a, hw, .nil => ⟨.nil, keptBy_core hw⟩
  | q :: qs, r :: rs, a, hw, .cons hqr hrest => by
    obtain ⟨hanswer, hwb, hused, hcore⟩ := answer_core hw hqr
    have tail := answers_core (a := (a.answer q).2) hwb (hused.symm ▸ hrest)
    rw [hused, ← hcore] at tail
    exact ⟨.cons hanswer tail.1, tail.2⟩

/-- **Pruning cannot be observed on what it keeps.** Take an analysis of any model
after any calls, whether they succeeded or failed. Pruning succeeds. What is left is
what its mapping keeps, seen from the start of the plan, and its plan is up to date
if the plan was. Hints for kept nodes, steps, rounds and runs get the same answers
before and after pruning: the same tells of changes, and failures of one kind; and
what is left stays what the mapping keeps. To prune again changes nothing. -/
theorem prune_unobservable {model : Model} {output : Int} {limit : Option Nat} {start : Analysis}
    (hstart : Analysis.start model output limit = .ok start) (xs : List Call) :
    ∃ mapping b, (start.afterCalls xs).prune = (.ok mapping, b) ∧
      KeptBy mapping { start.afterCalls xs with stepIndex := 0 } b ∧
      (Plan.ofNodes (start.afterCalls xs).nodes [(start.afterCalls xs).output] = .ok (start.afterCalls xs).plan →
        Plan.ofNodes b.nodes [b.output] = .ok b.plan) ∧
      (∀ qs rs : List Query, List.Forall₂ (Query.SameBy mapping) qs rs →
        List.Forall₂ (ResultsRelated Eq Failure.Alike)
          (answers qs { start.afterCalls xs with stepIndex := 0 }).1 (answers rs b).1 ∧
        KeptBy mapping (answers qs { start.afterCalls xs with stepIndex := 0 }).2 (answers rs b).2) ∧
      b.prune = (.ok ((List.range b.nodes.length).map some), b) := by
  have hany : GraphInvariant fun _ => True :=
    ⟨fun _ _ => trivial, fun _ _ _ => trivial, fun _ _ => trivial, fun _ _ => trivial⟩
  obtain ⟨hw, -⟩ : WellFormed (start.afterCalls xs) ∧ True := hany.afterCalls (start_spec hstart).1 trivial
  generalize start.afterCalls xs = a at hw ⊢
  have hw₀ : WellFormed { a with stepIndex := 0 } :=
    movedTo_wellFormed (p := a.passIndex) (f := a.forward) hw (List.length_pos_of_mem hw.output_mem)
  exact ⟨_, _, prune_eq hw.toLinked hw.toPlanned, keptBy_core hw₀, pruned_plan hw,
    fun qs rs h => answers_core hw₀ h, prune_pruned hw⟩

/-- An input with its positive part and a copy of it. -/
def branching : Model := ⟨[
  ⟨0, "x", "Placeholder", .placeholder .unknown, []⟩,
  ⟨1, "y", "Relu", .relu, [⟨0, none⟩]⟩,
  ⟨2, "z", "Identity", .identity, [⟨0, none⟩]⟩]⟩

/-- The positive part is pruned if the copy is wanted; then the copy has its number,
and hears hints and settles as it would have before. -/
theorem branching_unobservable : ∃ a, start branching 2 none = .ok a ∧
    ∃ b, (a.afterCalls [.act (.hint 0 (.ofShape none (.closed [.known 2]))), .act .step]).prune =
        (.ok [some 0, none, some 1], b) ∧
      List.Forall₂ (ResultsRelated Eq Failure.Alike)
        (answers [.hint 2 (.ofShape none (.ofRank 1)), .round, .run 7]
          { a.afterCalls [.act (.hint 0 (.ofShape none (.closed [.known 2]))), .act .step] with stepIndex := 0 }).1
        (answers [.hint 1 (.ofShape none (.ofRank 1)), .round, .run 7] b).1 := by
  have hstart : start branching 2 none = .ok _ := rfl
  obtain ⟨mapping, b, hprune, -, -, hanswers, -⟩ := prune_unobservable hstart
    [.act (.hint 0 (.ofShape none (.closed [.known 2]))), .act .step]
  obtain rfl : [some 0, none, some 1] = mapping := Except.ok.inj (congrArg Prod.fst hprune)
  have hsame : List.Forall₂ (Query.SameBy [some 0, none, some 1])
      [.hint 2 (.ofShape none (.ofRank 1)), .round, .run 7] [.hint 1 (.ofShape none (.ofRank 1)), .round, .run 7] :=
    .cons ⟨rfl, rfl⟩ (.cons trivial (.cons rfl .nil))
  exact ⟨_, hstart, b, hprune, (hanswers _ _ hsame).1⟩

end Analysis

end EdgeFacts
