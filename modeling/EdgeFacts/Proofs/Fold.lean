/-
# Folding keeps an analysis well formed

To detach the edges into a node one after the other is to take the ends from all
of them at once (`Analysis.foldl_detach`). So folding a node commits its value
to the edges out of it and then turns the node into a constant with no edges
into it (`Analysis.foldNode_eq_ok_iff`). The plan is kept: it may list producers
that nothing needs any more, and a new plan leaves them out. What every fold of
a node preserves holds after all of them (`Analysis.FoldInvariant`).

Key definitions: `Edge.cut`, `Analysis.asFolded`, `Analysis.FoldInvariant`.
Key theorems: `Analysis.foldNode_eq_ok_iff`, `Analysis.foldNode_wellFormed`,
`Analysis.resetPlan_spec`, `Analysis.FoldInvariant.foldConstants`.
-/
import EdgeFacts.Analysis.Fold
import EdgeFacts.Proofs.Inference

namespace EdgeFacts

/-- The edge, without its ends if it leads into a node. -/
def Edge.cut (i : Nat) (e : Edge) : Edge := if e.target = some i then e.detached else e

theorem Edge.cut_id (i : Nat) (e : Edge) : (e.cut i).id = e.id := by
  unfold cut
  split <;> rfl

theorem Edge.cut_fact (i : Nat) (e : Edge) : (e.cut i).fact = e.fact := by
  unfold cut
  split <;> rfl

theorem Edge.cut_of_ne {i : Nat} {e : Edge} (h : e.target ≠ some i) : e.cut i = e := if_neg h

theorem Edge.cut_source {i s : Nat} {e : Edge} (h : (e.cut i).source = some s) :
    e.source = some s ∧ e.cut i = e := by
  unfold cut at h ⊢
  split
  · rename_i ht
    rw [if_pos ht] at h
    cases h
  · rename_i ht
    rw [if_neg ht] at h
    exact ⟨h, rfl⟩

theorem Edge.cut_target {i k : Nat} {e : Edge} :
    (e.cut i).target = some k ↔ e.target = some k ∧ k ≠ i := by
  unfold cut
  split
  · rename_i ht
    simp only [Edge.detached, reduceCtorEq, false_iff, not_and, not_not, ht, Option.some.injEq]
    exact Eq.symm
  · rename_i ht
    refine ⟨fun h => ⟨h, ?_⟩, And.left⟩
    rintro rfl
    exact ht h

namespace Analysis

/-! ### Detaching edges -/

/-- The edge, without its ends if its id is listed. -/
def cutIds (js : List Nat) (e : Edge) : Edge := if e.id ∈ js then e.detached else e

theorem cutIds_nil (e : Edge) : cutIds [] e = e := if_neg (by simp)

theorem cutIds_cons (j : Nat) (js : List Nat) (e : Edge) :
    cutIds js (cutIds [j] e) = cutIds (j :: js) e := by
  by_cases hj : e.id = j
  · by_cases hjs : j ∈ js <;> simp [cutIds, hj, hjs, Edge.detached]
  · simp [cutIds, hj]

theorem set_detached {edges : List Edge} (hids : ∀ (j : Nat) (e : Edge), edges[j]? = some e → e.id = j)
    {j : Nat} {e : Edge} (he : edges[j]? = some e) :
    edges.set j e.detached = edges.map (cutIds [j]) := by
  refine List.ext_getElem? fun k => ?_
  rw [List.getElem?_set, List.getElem?_map]
  by_cases hk : j = k
  · subst hk
    have hlt := (List.getElem?_eq_some_iff.1 he).1
    rw [if_pos rfl, if_pos hlt, he, Option.map_some, cutIds, if_pos (by simp [hids j e he])]
  · rw [if_neg hk]
    cases hd : edges[k]? with
    | none => rfl
    | some d =>
      have hne : d.id ≠ j := fun h => hk (h.symm.trans (hids k d hd))
      simp [cutIds, hne]

/-- Without the ends of one edge, the edges out of a node are the others. -/
theorem outgoingOf_cutIds (count : Nat) (edges : List Edge) (j : Nat) :
    outgoingOf count (edges.map (cutIds [j])) =
      (outgoingOf count edges).map fun ids => ids.filter fun k => !decide (k = j) := by
  have hid : Edge.id ∘ cutIds [j] = Edge.id := by
    funext e
    simp only [Function.comp, cutIds]
    split <;> rfl
  unfold outgoingOf
  rw [List.map_map]
  refine List.map_congr_left fun i _ => ?_
  rw [Function.comp, List.filter_map, List.map_map, List.filter_map, List.filter_filter, hid]
  refine congrArg (List.map Edge.id) (List.filter_congr fun e _ => ?_)
  by_cases hj : e.id = j
  · simp [cutIds, hj, Edge.detached]
  · simp [cutIds, hj]

/-- Whether edges are numbered by position, and the lists of edges out of nodes
say what the edges say. -/
structure Traced (a : Analysis) : Prop where
  edgeIds : ∀ (j : Nat) (e : Edge), a.edges[j]? = some e → e.id = j
  outgoing : a.outgoing = outgoingOf a.nodes.length a.edges

/-- The analysis without the ends of some edges. -/
def detachAll (a : Analysis) (js : List Nat) : Analysis :=
  { a with
    edges := a.edges.map (cutIds js)
    outgoing := outgoingOf a.nodes.length (a.edges.map (cutIds js)) }

theorem Traced.detachAll {a : Analysis} (h : Traced a) (js : List Nat) : Traced (a.detachAll js) where
  edgeIds j d hd := by
    obtain ⟨e, he, rfl⟩ := Option.map_eq_some_iff.1 ((List.getElem?_map ..).symm.trans hd)
    rw [← h.edgeIds j e he, cutIds]
    split <;> rfl
  outgoing := rfl

/-- An edge out of a node is listed there and nowhere else. -/
theorem Traced.notMem_outgoing {a : Analysis} (h : Traced a) {i j : Nat} {ids : List Nat}
    (hids : a.outgoing[i]? = some ids) (hj : ∀ e, a.edges[j]? = some e → e.source ≠ some i) : j ∉ ids := by
  rw [h.outgoing, outgoingOf, List.getElem?_map] at hids
  obtain ⟨k, hk, rfl⟩ := Option.map_eq_some_iff.1 hids
  obtain ⟨-, rfl⟩ := List.getElem?_eq_some_iff.1 hk
  intro hmem
  obtain ⟨e, he, rfl⟩ := List.mem_map.1 hmem
  obtain ⟨he, hs⟩ := List.mem_filter.1 he
  obtain ⟨k, hk⟩ := List.mem_iff_getElem?.1 he
  have hid := h.edgeIds k e hk
  exact hj e (hid ▸ hk) (by simpa using hs)

theorem Traced.nodup_outgoing {a : Analysis} (h : Traced a) {i : Nat} {ids : List Nat}
    (hids : a.outgoing[i]? = some ids) : ids.Nodup := by
  rw [h.outgoing, outgoingOf, List.getElem?_map] at hids
  obtain ⟨k, -, rfl⟩ := Option.map_eq_some_iff.1 hids
  exact (nodup_of_edgeIds h.edgeIds).sublist (List.filter_sublist.map _)

/-- Detaching an edge takes its ends, and its id from the list of its source. -/
theorem Traced.detach {a : Analysis} (h : Traced a) (j : Nat) : a.detach j = a.detachAll [j] := by
  have hfilter {i : Nat} {ids : List Nat} (hids : a.outgoing[i]? = some ids)
      (hj : ∀ e, a.edges[j]? = some e → e.source ≠ some i) :
      ids.filter (fun k => !decide (k = j)) = ids := by
    have hnot := h.notMem_outgoing hids hj
    refine List.filter_eq_self.2 fun k hk => ?_
    have : k ≠ j := fun hkj => hnot (hkj ▸ hk)
    simpa using this
  unfold Analysis.detach Analysis.detachAll
  rw [outgoingOf_cutIds, ← h.outgoing]
  split
  · rename_i hj
    have hedges : a.edges.map (cutIds [j]) = a.edges := by
      refine (List.map_congr_left fun e he => ?_).trans (List.map_id _)
      obtain ⟨k, hk⟩ := List.mem_iff_getElem?.1 he
      have hne : e.id ≠ j := by
        rintro rfl
        rw [h.edgeIds k e hk, hk] at hj
        cases hj
      simp [cutIds, hne]
    have houtgoing : (a.outgoing.map fun ids => ids.filter fun k => !decide (k = j)) = a.outgoing := by
      refine List.ext_getElem? fun i => ?_
      rw [List.getElem?_map]
      cases hids : a.outgoing[i]? with
      | none => rfl
      | some ids => exact congrArg some (hfilter hids fun e he => by rw [hj] at he; cases he)
    rw [hedges, houtgoing]
  · rename_i e he
    rw [set_detached h.edgeIds he]
    congr 1
    refine List.ext_getElem? fun i => ?_
    rw [List.getElem?_map]
    cases hids : a.outgoing[i]? with
    | none =>
      have hlen : a.outgoing.length ≤ i := List.getElem?_eq_none_iff.1 hids
      split <;> simp [hlen]
    | some ids =>
      by_cases hi : e.source = some i
      · have herase : ids.erase j = ids.filter fun k => !decide (k = j) := by
          rw [(h.nodup_outgoing hids).erase_eq_filter]
          rfl
        simp [hi, hids, herase]
      · have hnot := hfilter hids fun d hd => by
          cases he.symm.trans hd
          exact hi
        split
        · rename_i p hp
          have hpi : p ≠ i := fun h => hi (h ▸ hp)
          simp [hpi, hids, hnot]
        · simp [hids, hnot]

/-- To detach edges one after the other is to detach all of them. -/
theorem foldl_detach : ∀ {js : List Nat} {a : Analysis}, Traced a → js.foldl detach a = a.detachAll js
  | [], a, h => by
    have hedges : a.edges.map (cutIds []) = a.edges :=
      (List.map_congr_left fun e _ => cutIds_nil e).trans (List.map_id _)
    rw [List.foldl_nil, detachAll, hedges, ← h.outgoing]
  | j :: js, a, h => by
    have hedges : (a.edges.map (cutIds [j])).map (cutIds js) = a.edges.map (cutIds (j :: js)) := by
      rw [List.map_map]
      exact List.map_congr_left fun e _ => cutIds_cons j js e
    rw [List.foldl_cons, h.detach j, foldl_detach (h.detachAll [j])]
    simp only [detachAll, hedges]

/-! ### Folding a node -/

/-- The analysis with a node turned into a constant and the edges into it detached. -/
def asFolded (a : Analysis) (i : Nat) (value : Tensor) : Analysis :=
  { a with
    nodes := a.nodes.modify i (asConst value)
    edges := a.edges.map (Edge.cut i)
    incoming := a.incoming.set i []
    outgoing := outgoingOf a.nodes.length (a.edges.map (Edge.cut i)) }

theorem Linked.traced {a : Analysis} (h : Linked a) : Traced a := ⟨h.edgeIds, h.outgoing⟩

/-- The edges into a node are detached by their ids. -/
theorem Linked.map_cutIds {a : Analysis} (h : Linked a) (i : Nat) :
    a.edges.map (cutIds ((a.edgesInto i).map Edge.id)) = a.edges.map (Edge.cut i) := by
  refine List.map_congr_left fun e he => ?_
  simp only [cutIds, Edge.cut, h.id_mem_edgesInto he]

theorem nodeIndex_eq_ok_iff {a : Analysis} {node : Int} {i : Nat} :
    a.nodeIndex node = .ok i ↔ node = i ∧ i < a.nodes.length := by
  unfold nodeIndex
  split
  · simp only [Except.ok.injEq]
    omega
  · simp only [reduceCtorEq, false_iff]
    omega

/-- **What folding a node does.** Its value is committed to the edges out of it,
and then the node becomes a constant without inputs. -/
theorem foldNode_eq_ok_iff {a b : Analysis} (hl : Linked a) {node : Int} {value : Tensor} :
    a.foldNode node value = .ok b ↔ ∃ (i : Nat) (r : List (Nat × TensorFact)),
      (node = i ∧ i < a.nodes.length) ∧
      List.Forall₂ (Combined a) ((((a.edgesFrom i).map Edge.id).map fun _ => .ofTensor value).zip
        ((a.edgesFrom i).map Edge.id)) r ∧ (a.commit r).2.asFolded i value = b := by
  have hcut {i : Nat} (hi : i < a.nodes.length) (r : List (Nat × TensorFact)) :
      ((a.edgesInto i).map Edge.id).foldl detach (a.commit r).2 =
        { (a.commit r).2 with
          edges := (a.commit r).2.edges.map (Edge.cut i)
          outgoing := outgoingOf a.nodes.length ((a.commit r).2.edges.map (Edge.cut i)) } := by
    have hlr : Linked (a.commit r).2 := (commit_sameGraph a r).linked hl
    have hinto : (a.edgesInto i).map Edge.id = ((a.commit r).2.edgesInto i).map Edge.id := by
      have h₁ := hl.incoming_getElem? hi
      have h₂ : a.incoming[i]? = _ := hlr.incoming_getElem? hi
      exact Option.some.inj (h₁.symm.trans h₂)
    rw [foldl_detach hlr.traced, hinto, detachAll, hlr.map_cutIds i]
    rfl
  have hid {i : Nat} (hi : i < a.nodes.length) : a.nodes[i].id.toNat = i := by
    rw [hl.ids i _ (List.getElem?_eq_getElem hi)]
    rfl
  have hfolded {i : Nat} (hi : i < a.nodes.length) (r : List (Nat × TensorFact)) {c : Analysis}
      (hc : c = ((a.edgesInto i).map Edge.id).foldl detach (a.commit r).2) :
      { c with incoming := c.incoming.set i [], nodes := c.nodes.modify i (asConst value) } =
        (a.commit r).2.asFolded i value := by
    rw [hc, hcut hi r]
    rfl
  simp only [foldNode, bind_eq_ok_iff, itemAt_eq_ok_iff, pure_eq_ok, refineEdges_eq,
    refinePairs_eq_ok_iff, nodeIndex_eq_ok_iff, Except.ok.injEq]
  constructor
  · rintro ⟨i, ⟨rfl, hi⟩, js, hjs, r, hr, n, hn, ids, hids, rfl⟩
    cases hjs.symm.trans (hl.outgoing_getElem? hi)
    have hn' : a.nodes[i]? = some n := hn
    cases hn'.symm.trans (List.getElem?_eq_getElem hi)
    rw [hid hi] at hids ⊢
    have hids' : a.incoming[i]? = some ids := hids
    cases hids'.symm.trans (hl.incoming_getElem? hi)
    exact ⟨i, r, ⟨rfl, hi⟩, hr, (hfolded hi r rfl).symm⟩
  · rintro ⟨i, r, ⟨rfl, hi⟩, hr, rfl⟩
    refine ⟨i, ⟨rfl, hi⟩, _, hl.outgoing_getElem? hi, r, hr, a.nodes[i], List.getElem?_eq_getElem hi,
      (a.edgesInto i).map Edge.id, ?_, ?_⟩
    · rw [hid hi]
      exact hl.incoming_getElem? hi
    · rw [hid hi]
      exact hfolded hi r rfl

/-! ### Folded analyses are well formed -/

theorem asFolded_into {a : Analysis} {i k : Nat} (value : Tensor) :
    (a.asFolded i value).edgesInto k = if k = i then [] else a.edgesInto k := by
  simp only [edgesInto, asFolded, List.filter_map]
  split
  · rename_i hk
    rw [List.map_eq_nil_iff, List.filter_eq_nil_iff]
    intro e _ ht
    exact (Edge.cut_target.1 (of_decide_eq_true ht)).2 hk
  · rename_i hk
    have hfilter : (a.edges.filter fun e => decide ((e.cut i).target = some k)) =
        a.edges.filter fun e => decide (e.target = some k) := by
      refine List.filter_congr fun e _ => ?_
      simp [Edge.cut_target, hk]
    refine (congrArg (List.map (Edge.cut i)) hfilter).trans ?_
    refine (List.map_congr_left fun e he => ?_).trans (List.map_id _)
    refine Edge.cut_of_ne fun hi => hk ?_
    rw [of_decide_eq_true (List.mem_filter.1 he).2] at hi
    exact Option.some.inj hi

theorem asFolded_getElem? {a : Analysis} {i k : Nat} {value : Tensor} {n : Node} :
    (a.asFolded i value).nodes[k]? = some n ↔
      ∃ m, a.nodes[k]? = some m ∧ n = if k = i then asConst value m else m := by
  simp only [asFolded, List.getElem?_modify]
  cases a.nodes[k]? with
  | none => simp
  | some m =>
    by_cases hk : k = i
    · simp [hk, eq_comm]
    · simp [hk, Ne.symm hk, eq_comm]

theorem producersAt_asFolded_subset (a : Analysis) (i : Nat) (value : Tensor) (k : Nat) :
    Plan.producersAt (a.asFolded i value).nodes k ⊆ Plan.producersAt a.nodes k := by
  intro p hp
  obtain ⟨n, hn, x, hx, rfl⟩ := Plan.mem_producersAt.1 hp
  obtain ⟨m, hm, rfl⟩ := asFolded_getElem?.1 hn
  refine Plan.mem_producersAt.2 ⟨m, hm, x, ?_, rfl⟩
  split at hx
  · cases hx
  · exact hx

theorem asFolded_linked {a : Analysis} (h : Linked a) {i : Nat} (value : Tensor) :
    Linked (a.asFolded i value) := by
  have hlen : (a.asFolded i value).nodes.length = a.nodes.length := List.length_modify ..
  have hedge {j : Nat} {d : Edge} (hd : (a.asFolded i value).edges[j]? = some d) :
      ∃ e, a.edges[j]? = some e ∧ e.cut i = d :=
    Option.map_eq_some_iff.1 ((List.getElem?_map ..).symm.trans hd)
  refine { ids := ?_, resolved := ?_, edgeIds := ?_, incoming := ?_, outgoing := ?_, inputs := ?_,
           source_lt := ?_, target_lt := ?_, terminal := ?_, output_lt := hlen.symm ▸ h.output_lt }
  · intro k n hn
    obtain ⟨m, hm, rfl⟩ := asFolded_getElem?.1 hn
    rw [← h.ids k m hm]
    split <;> rfl
  · intro k n hn x hx
    obtain ⟨m, hm, rfl⟩ := asFolded_getElem?.1 hn
    rw [hlen]
    split at hx
    · cases hx
    · exact h.resolved k m hm x hx
  · intro j d hd
    obtain ⟨e, he, rfl⟩ := hedge hd
    rw [Edge.cut_id]
    exact h.edgeIds j e he
  · have hinto : incomingOf a.nodes.length (a.asFolded i value).edges =
        (List.range a.nodes.length).map fun k => ((a.asFolded i value).edgesInto k).map Edge.id := rfl
    rw [hlen, hinto]
    refine List.ext_getElem? fun k => ?_
    simp only [asFolded_into, List.getElem?_map]
    change (a.incoming.set i [])[k]? = _
    rw [List.getElem?_set, h.incoming, incomingOf, List.getElem?_map, List.length_map, List.length_range]
    by_cases hk : i = k
    · subst hk
      by_cases hlt : i < a.nodes.length <;> simp [hlt]
    · by_cases hlt : k < a.nodes.length <;> simp [hlt, hk, Ne.symm hk, edgesInto]
  · rw [hlen]
    rfl
  · intro k n hn
    obtain ⟨m, hm, rfl⟩ := asFolded_getElem?.1 hn
    have hinto := asFolded_into (a := a) (i := i) (k := k) value
    rw [edgesInto] at hinto
    rw [hinto]
    split
    · rfl
    · exact h.inputs k m hm
  · intro d hd k hk
    obtain ⟨e, he, rfl⟩ := List.mem_map.1 hd
    rw [hlen]
    exact h.source_lt e he k (Edge.cut_source hk).1
  · intro d hd k hk
    obtain ⟨e, he, rfl⟩ := List.mem_map.1 hd
    rw [hlen]
    exact h.target_lt e he k (Edge.cut_target.1 hk).1
  · obtain ⟨e, he, ho, ht⟩ := h.terminal
    refine ⟨e, List.mem_map.2 ⟨e, he, Edge.cut_of_ne ?_⟩, ho, ht⟩
    rw [ht]
    exact (Option.some_ne_none i).symm

theorem asFolded_wellFormed {a : Analysis} (h : WellFormed a) {i : Nat} (value : Tensor) :
    WellFormed (a.asFolded i value) := by
  refine { asFolded_linked h.toLinked value with
    ordered := Plan.Ordered.of_subset (fun k _ => producersAt_asFolded_subset a i value k) h.ordered
    lt := fun k hk => ?_
    output_mem := h.output_mem
    stepIndex_lt := h.stepIndex_lt }
  exact Nat.lt_of_lt_of_eq (h.lt k hk) (List.length_modify ..).symm

theorem foldNode_wellFormed {a b : Analysis} (hw : WellFormed a) {node : Int} {value : Tensor}
    (h : a.foldNode node value = .ok b) : WellFormed b := by
  obtain ⟨i, r, -, -, rfl⟩ := (foldNode_eq_ok_iff hw.toLinked).1 h
  exact asFolded_wellFormed ((commit_sameGraph a r).wellFormed hw hw.stepIndex_lt) value

/-! ### New plans -/

theorem Planned.of_required {a : Analysis} (h : Planned a) {i : Nat}
    (hi : Plan.Required a.nodes a.output.toNat i) : i ∈ a.plan := by
  induction hi with
  | output => exact h.output_mem
  | producer _ hp ih => exact (h.ordered.idxOf_lt ih hp).1

/-- **A new plan can always be made**, and it lists what the output needs. -/
theorem resetPlan_spec {a : Analysis} (hw : WellFormed a) : ∃ plan,
    a.resetPlan = .ok { a with plan, stepIndex := 0 } ∧ Plan.Valid a.nodes a.output plan ∧
      WellFormed { a with plan, stepIndex := 0 } ∧ plan ⊆ a.plan := by
  obtain ⟨plan, hplan⟩ : ∃ plan, Plan.ofNodes a.nodes [a.output] = .ok plan :=
    Plan.exists_ofNodes hw.output_lt (fun i _ => hw.resolved i)
      fun i hi p hp => (hw.ordered.idxOf_lt (hw.of_required hi) hp).2
  have hvalid := Plan.ofNodes_spec hplan
  have hplanned : Planned { a with plan, stepIndex := 0 } := Planned.of_valid hvalid
  refine ⟨plan, by simp only [resetPlan, hplan]; rfl, hvalid, ?_, fun i hi => ?_⟩
  · have hlinked : Linked { a with plan, stepIndex := 0 } := { hw.toLinked with }
    exact { hlinked, hplanned with stepIndex_lt := List.length_pos_of_mem hplanned.output_mem }
  · exact hw.of_required ((hvalid.mem_iff i).1 hi)

/-! ### Folding constants -/

theorem applyFold_eq_ok_iff {a b : Analysis} {node : Int} :
    a.applyFold node = .ok b ↔ ∃ f, a.outputFact node = .ok f ∧
      ((∃ v, f.value = some v ∧ a.foldNode node v = .ok b) ∨
        f.value = none ∧ ∃ i, a.nodeIndex node = .ok i ∧ ∃ known, a.knownInputs i = .ok known ∧
          (known = none ∧ b = a ∨ ∃ ts, known = some ts ∧ ∃ n, a.nodes[i]? = some n ∧
            ∃ v, n.op.eval ts = .ok v ∧ a.foldNode node v = .ok b)) := by
  simp only [applyFold, bind_eq_ok_iff]
  refine exists_congr fun f => and_congr_right fun _ => ?_
  cases f.value with
  | some v => simp
  | none =>
    simp only [reduceCtorEq, false_and, exists_false, false_or, true_and, bind_eq_ok_iff]
    refine exists_congr fun i => and_congr_right fun _ => ?_
    refine exists_congr fun known => and_congr_right fun _ => ?_
    cases known with
    | none => simp [pure_eq_ok, eq_comm]
    | some ts => simp [bind_eq_ok_iff, itemAt_eq_ok_iff]

/-- A fold leaves the analysis as it is or folds a node to some value. -/
theorem applyFold_cases {a b : Analysis} {node : Int} (h : a.applyFold node = .ok b) :
    b = a ∨ ∃ v, a.foldNode node v = .ok b := by
  obtain ⟨f, -, ⟨v, -, hv⟩ | ⟨-, i, -, known, -, ⟨-, rfl⟩ | ⟨ts, -, n, -, v, -, hv⟩⟩⟩ :=
    applyFold_eq_ok_iff.1 h
  · exact .inr ⟨v, hv⟩
  · exact .inl rfl
  · exact .inr ⟨v, hv⟩

theorem applyFold_wellFormed {a b : Analysis} {node : Int} (hw : WellFormed a) (h : a.applyFold node = .ok b) :
    WellFormed b ∧ b.plan = a.plan := by
  rcases applyFold_cases h with rfl | ⟨v, hv⟩
  · exact ⟨hw, rfl⟩
  · refine ⟨foldNode_wellFormed hw hv, ?_⟩
    obtain ⟨i, r, -, -, rfl⟩ := (foldNode_eq_ok_iff hw.toLinked).1 hv
    rfl

theorem foldable_subset {a : Analysis} {is : List Nat} (h : a.foldable = .ok is) : is ⊆ a.plan := by
  obtain ⟨-, rfl⟩ := filterM_eq_ok_iff.1 h
  exact fun i hi => (List.mem_filter.1 hi).1

/-- What holds of well-formed analyses through every fold of a planned node, and
when a new plan lists fewer nodes. -/
structure FoldInvariant (P : Analysis → Prop) : Prop where
  fold : ∀ {a b : Analysis} {i : Nat}, WellFormed a → P a → i ∈ a.plan → a.applyFold i = .ok b → P b
  replan : ∀ {a : Analysis} {plan : List Nat}, WellFormed a → P a → plan ⊆ a.plan →
    P { a with plan, stepIndex := 0 }

namespace FoldInvariant

variable {P : Analysis → Prop} (hP : FoldInvariant P)
include hP

theorem foldEach : ∀ {is : List Nat} {a : Analysis}, WellFormed a → P a → is ⊆ a.plan →
    WellFormed (Analysis.foldEach is a).2 ∧ P (Analysis.foldEach is a).2
  | [], _, hw, h, _ => ⟨hw, h⟩
  | i :: is, a, hw, h, hi => by
    unfold Analysis.foldEach
    split
    · exact ⟨hw, h⟩
    · rename_i b hb
      obtain ⟨hwb, hplan⟩ := applyFold_wellFormed hw hb
      have hPb : P b := hP.fold hw h (hi (.head _)) hb
      exact foldEach hwb hPb fun j hj => hplan ▸ hi (.tail _ hj)

theorem foldAll : ∀ {fuel : Nat} {a : Analysis}, WellFormed a → P a →
    WellFormed (Analysis.foldAll fuel a).2 ∧ P (Analysis.foldAll fuel a).2
  | 0, _, hw, h => ⟨hw, h⟩
  | fuel + 1, a, hw, h => by
    unfold Analysis.foldAll
    split
    · exact ⟨hw, h⟩
    · exact ⟨hw, h⟩
    · rename_i is _ his
      have head := hP.foldEach hw h (foldable_subset his)
      split
      · rename_i he
        rw [he] at head
        exact head
      · rename_i b he
        rw [he] at head
        have tail : WellFormed (Analysis.foldAll fuel b).2 ∧ P (Analysis.foldAll fuel b).2 :=
          foldAll head.1 head.2
        split
        · rename_i hr
          rw [hr] at tail
          exact tail
        · rename_i hr
          rw [hr] at tail
          exact tail

theorem foldConstants {a : Analysis} (hw : WellFormed a) (h : P a) :
    WellFormed a.foldConstants.2 ∧ P a.foldConstants.2 := by
  have hpass : WellFormed a.foldPass.2 ∧ P a.foldPass.2 := hP.foldAll hw h
  unfold Analysis.foldConstants
  split
  · rename_i hr
    rw [hr] at hpass
    exact hpass
  · rename_i hr
    rw [hr] at hpass
    obtain ⟨plan, hplan, -, hwplan, hsub⟩ := resetPlan_spec hpass.1
    rw [hplan]
    exact ⟨hwplan, hP.replan hpass.1 hpass.2 hsub⟩

end FoldInvariant

end Analysis

end EdgeFacts
