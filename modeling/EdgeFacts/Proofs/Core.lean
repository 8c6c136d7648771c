/-
# The core of an analysis runs in lockstep with it

The core of an analysis is what pruning leaves of it, at the place where it
stands (`Analysis.core`). A planned node has the same edges there, with the same
facts and in the same order, under other numbers; so a visit of it infers the same
facts and tells the same changes, and a failure is the same but for the number of
the node (`Failure.Alike`). Hence an analysis and its core run in lockstep
(`Analysis.lockstep_core`), and a hint for a planned node does the same to both
(`Analysis.hint_core`).

Key definitions: `Failure.Alike`, `Analysis.core`.
Key theorems: `Analysis.visit_core`, `Analysis.lockstep_core`, `Analysis.hint_core`.
-/
import EdgeFacts.Failure.Wording
import EdgeFacts.Proofs.Around
import EdgeFacts.Proofs.Lockstep
import EdgeFacts.Proofs.Prune
import EdgeFacts.Proofs.Reachable

namespace EdgeFacts

/-! ### Failures at nodes with other numbers -/

/-- The cause with no number of a node that broke a rule. -/
def Cause.withoutNode : Cause → Cause
  | .severalPorts name _ => .severalPorts name 0
  | .badRefinement name inputs _ => .badRefinement name inputs 0
  | c => c

namespace Failure

/-- The failure with no number of a node that broke a rule. -/
def withoutNode : Failure → Failure
  | analysis cause contexts => analysis cause.withoutNode contexts
  | f => f

/-- Whether two failures are the same but for the number of a node. -/
def Alike (e f : Failure) : Prop := e.withoutNode = f.withoutNode

theorem Alike.refl (e : Failure) : e.Alike e := rfl

theorem text_withoutNode (e : Failure) : e.withoutNode.text = e.text := by
  cases e with
  | analysis cause contexts => cases cause <;> rfl
  | _ => rfl

/-- The code under which a failure of the analysis is known. -/
def code? (e : Failure) : Option (String × String) := e.report?.map fun r => (r.kind.defaultCode, r.code)

theorem code?_withoutNode (e : Failure) : e.withoutNode.code? = e.code? := by
  cases e with
  | analysis cause contexts => cases cause <;> rfl
  | _ => rfl

/-- Failures that are alike are of one kind and say the same. -/
theorem Alike.same {e f : Failure} (h : e.Alike f) : e.text = f.text ∧ e.code? = f.code? := by
  rw [← text_withoutNode e, ← text_withoutNode f, ← code?_withoutNode e, ← code?_withoutNode f, h]
  exact ⟨rfl, rfl⟩

end Failure

namespace Analysis

/-! ### Commits to what is kept -/

theorem kept_set {α : Type} {x : α} : ∀ {used : List Bool} {xs : List α} {j : Nat}, used.length = xs.length →
    used[j]? = some true → kept used (xs.set j x) = (kept used xs).set (newIndex used j) x
  | true :: used, y :: xs, 0, _, _ => rfl
  | true :: used, y :: xs, j + 1, hl, hj => by
    rw [newIndex_succ, if_pos rfl, List.set_cons_succ, kept, kept, List.set_cons_succ,
      kept_set (Nat.succ.inj hl) (by simpa using hj)]
  | false :: used, y :: xs, j + 1, hl, hj => by
    rw [newIndex_succ, List.set_cons_succ, kept, kept]
    exact kept_set (Nat.succ.inj hl) (by simpa using hj)

theorem kept_set_of_dropped {α : Type} {x : α} : ∀ {used : List Bool} {xs : List α} {j : Nat},
    used[j]? = some false → kept used (xs.set j x) = kept used xs
  | false :: _, [], _, _ => rfl
  | false :: used, y :: xs, 0, _ => rfl
  | true :: _, [], _, _ => rfl
  | true :: used, y :: xs, j + 1, hj => by
    rw [List.set_cons_succ, kept, kept, kept_set_of_dropped (by simpa using hj)]
  | false :: used, y :: xs, j + 1, hj => by
    rw [List.set_cons_succ, kept, kept]
    exact kept_set_of_dropped (by simpa using hj)

theorem forall₂_set {α β : Type} {R : α → β → Prop} {x : α} {y : β} (hxy : R x y) :
    ∀ {xs : List α} {ys : List β}, List.Forall₂ R xs ys → ∀ k, List.Forall₂ R (xs.set k x) (ys.set k y)
  | [], [], _, _ => .nil
  | _ :: _, _ :: _, .cons _ h, 0 => .cons hxy h
  | _ :: _, _ :: _, .cons h₀ h, k + 1 => .cons h₀ (forall₂_set hxy h k)

section Commits

variable {used : List Bool} {rel : Edge → Edge → Prop} {like : TensorFact → TensorFact → Prop}
  {r r' : List (Nat × TensorFact)} {ds es : List Edge}

/-- Whether facts are for what is kept of some edges, as others are for the edges. -/
def ForKept (used : List Bool) (like : TensorFact → TensorFact → Prop) (r' r : List (Nat × TensorFact)) : Prop :=
  List.Forall₂ (fun p q => p.1 = newIndex used q.1 ∧ like p.2 q.2) r' (r.filter fun q => used.getD q.1 false)

theorem getD_eq_true_iff {j : Nat} : used.getD j false = true ↔ used[j]? = some true := by
  rw [List.getD_eq_getElem?_getD]
  cases used[j]? <;> simp

theorem exists_kept_edge (hl : used.length = es.length) (h : List.Forall₂ rel ds (kept used es)) {j : Nat}
    (hj : used[j]? = some true) : ∃ d e, ds[newIndex used j]? = some d ∧ es[j]? = some e ∧ rel d e := by
  have hlt : j < es.length := hl ▸ (List.getElem?_eq_some_iff.1 hj).1
  have he := List.getElem?_eq_getElem hlt
  obtain ⟨hk, hke⟩ := List.getElem?_eq_some_iff.1 ((kept_getElem? hl hj).trans he)
  have hkd := h.length_eq.symm ▸ hk
  refine ⟨_, _, List.getElem?_eq_getElem hkd, he, ?_⟩
  rw [← hke]
  exact h.get hkd hk

variable (hsame : ∀ {d e : Edge} {f g : TensorFact}, rel d e → like f g → f.same d.fact = g.same e.fact)
include hsame

/-- Facts for what is kept say something new where those for the kept edges do. -/
theorem commitEdges_kept_changed (hl : used.length = es.length) (h : List.Forall₂ rel ds (kept used es))
    (hr : ForKept used like r' r) :
    (commitEdges ds r').1 = (commitEdges es (r.filter fun q => used.getD q.1 false)).1 := by
  rw [← Bool.not_inj_iff, Bool.eq_iff_iff, Bool.not_eq_true', Bool.not_eq_true', commitEdges_eq_false_iff,
    commitEdges_eq_false_iff]
  have hpair : ∀ q ∈ r.filter (fun q => used.getD q.1 false), ∀ p : Nat × TensorFact,
      p.1 = newIndex used q.1 → like p.2 q.2 → ((∀ d, ds[p.1]? = some d → p.2.same d.fact = true) ↔
        ∀ e, es[q.1]? = some e → q.2.same e.fact = true) := by
    intro q hq p hkey hlike
    obtain ⟨d, e, hd, he, hde⟩ := exists_kept_edge hl h (getD_eq_true_iff.1 (List.mem_filter.1 hq).2)
    simp only [hkey, hd, he, Option.some.injEq, forall_eq', hsame hde hlike]
  unfold ForKept at hr
  generalize r.filter (fun q => used.getD q.1 false) = live at hr hpair
  induction hr with
  | nil => simp
  | cons hpq _ ih =>
    rw [List.forall_mem_cons, List.forall_mem_cons]
    exact and_congr (hpair _ (.head _) _ hpq.1 hpq.2) (ih fun q hq => hpair q (.tail _ hq))

variable (hset : ∀ {d e : Edge} {f g : TensorFact}, rel d e → like f g → rel { d with fact := f } { e with fact := g })
include hset

/-- Facts for what is kept are put there as those for the edges are put on the kept ones. -/
theorem commitEdges_kept : ∀ {r r' : List (Nat × TensorFact)} {ds es : List Edge}, used.length = es.length →
    List.Forall₂ rel ds (kept used es) → ForKept used like r' r →
    List.Forall₂ rel (commitEdges ds r').2 (kept used (commitEdges es r).2)
  | [], r', ds, es, _, h, hr => by
    cases hr
    exact h
  | (j, g) :: r, r', ds, es, hl, h, hr => by
    unfold ForKept at hr
    by_cases hj : used.getD j false = true
    · simp only [List.filter_cons, hj, if_true, List.forall₂_cons_right_iff] at hr
      obtain ⟨⟨k, f⟩, r', ⟨rfl, hfg⟩, hr, rfl⟩ := hr
      have hu := getD_eq_true_iff.1 hj
      obtain ⟨d, e, hd, he, hde⟩ := exists_kept_edge hl h hu
      simp only [commitEdges, hd, he, hsame hde hfg]
      split
      · exact commitEdges_kept hl h hr
      · refine commitEdges_kept (hl.trans List.length_set.symm) ?_ hr
        rw [kept_set hl hu]
        exact forall₂_set (hset hde hfg) h _
    · simp only [List.filter_cons, hj] at hr
      simp only [commitEdges]
      split
      · exact commitEdges_kept hl h hr
      · rename_i e he
        split
        · exact commitEdges_kept hl h hr
        · have hlt : j < used.length := hl ▸ (List.getElem?_eq_some_iff.1 he).1
          have hu : used[j]? = some false := by
            rw [List.getD_eq_getElem?_getD, List.getElem?_eq_getElem hlt] at hj
            rw [List.getElem?_eq_getElem hlt]
            simpa using hj
          refine commitEdges_kept (hl.trans List.length_set.symm) ?_ hr
          rw [kept_set_of_dropped hu]
          exact h

end Commits

/-! ### The core -/

/-- What pruning leaves of an analysis, at the place where it stands. -/
def core (a : Analysis) : Analysis := a.pruned.movedTo a.passIndex a.stepIndex a.forward

theorem SameGraph.usedNodes_eq {a b : Analysis} (h : SameGraph a b) : a.usedNodes = b.usedNodes := by
  rw [usedNodes, usedNodes, h.nodes, h.plan]

theorem SameGraph.usedEdges_eq {a b : Analysis} (h : SameGraph a b) : a.usedEdges = b.usedEdges := by
  rw [usedEdges, usedEdges, h.plan, h.incoming, h.outgoing, h.length_edges]

theorem Linked.length_lists {a : Analysis} (hl : Linked a) :
    a.usedNodes.length = a.incoming.length ∧ a.usedNodes.length = a.outgoing.length := by
  rw [hl.incoming, hl.outgoing]
  simp [incomingOf, outgoingOf, length_usedNodes]

theorem core_wellFormed {a : Analysis} (hw : WellFormed a) : WellFormed a.core :=
  movedTo_wellFormed (pruned_wellFormed hw) (by rw [pruned, List.length_map]; exact hw.stepIndex_lt)

/-- Committing to kept edges and taking the core can be done in either order. -/
theorem core_commit (a : Analysis) {r : List (Nat × TensorFact)} (hr : ∀ p ∈ r, a.usedEdges[p.1]? = some true) :
    a.core.commit (r.map (Prod.map (newIndex a.usedEdges) id)) = ((a.commit r).1, (a.commit r).2.core) := by
  have hl := length_usedEdges a
  have hlive : r.filter (fun p => a.usedEdges.getD p.1 false) = r :=
    List.filter_eq_self.2 fun p hp => getD_eq_true_iff.2 (hr p hp)
  have hedges : List.Forall₂ (fun d e => d = renumberEdge a.usedNodes a.usedEdges e) a.core.edges
      (kept a.usedEdges a.edges) := by
    rw [← List.forall₂_map_right_iff, List.forall₂_eq_eq_eq]
    rfl
  have hfor : ForKept a.usedEdges Eq (r.map (Prod.map (newIndex a.usedEdges) id)) r := by
    rw [ForKept, hlive, List.forall₂_map_left_iff]
    exact List.forall₂_same.2 fun _ _ => ⟨rfl, rfl⟩
  have hsame {d e : Edge} {f g : TensorFact} (hde : d = renumberEdge a.usedNodes a.usedEdges e) (hfg : f = g) :
      f.same d.fact = g.same e.fact := by
    rw [hde, hfg]
    rfl
  have hset {d e : Edge} {f g : TensorFact} (hde : d = renumberEdge a.usedNodes a.usedEdges e) (hfg : f = g) :
      { d with fact := f } = renumberEdge a.usedNodes a.usedEdges { e with fact := g } := by
    rw [hde, hfg]
    rfl
  have hchanged := commitEdges_kept_changed hsame hl hedges hfor
  have hafter := commitEdges_kept hsame hset hl hedges hfor
  rw [hlive] at hchanged
  rw [← List.forall₂_map_right_iff, List.forall₂_eq_eq_eq] at hafter
  have hgraph := commit_sameGraph a r
  refine Prod.ext hchanged ?_
  unfold core pruned
  rw [hgraph.usedNodes_eq, hgraph.usedEdges_eq]
  exact congrArg (fun edges => { a.core with edges }) hafter

section Visits

variable {a : Analysis}

theorem core_edge {j : Nat} (hj : a.usedEdges[j]? = some true) :
    itemAt a.core.edges (newIndex a.usedEdges j) =
      (itemAt a.edges j).map (renumberEdge a.usedNodes a.usedEdges) := by
  have hedge : a.core.edges[newIndex a.usedEdges j]? =
      a.edges[j]?.map (renumberEdge a.usedNodes a.usedEdges) := by
    rw [← kept_getElem? (length_usedEdges a) hj]
    exact List.getElem?_map ..
  rw [itemAt, itemAt, hedge]
  cases a.edges[j]? <;> rfl

theorem core_factOf {j : Nat} (hj : a.usedEdges[j]? = some true) :
    a.core.factOf (newIndex a.usedEdges j) = a.factOf j := by
  rw [factOf, factOf, core_edge hj]
  cases itemAt a.edges j <;> rfl

theorem core_factsOf : ∀ {js : List Nat}, (∀ j ∈ js, a.usedEdges[j]? = some true) →
    a.core.factsOf (js.map (newIndex a.usedEdges)) = a.factsOf js
  | [], _ => rfl
  | j :: js, h => by
    have tail := core_factsOf fun k hk => h k (.tail _ hk)
    unfold factsOf at tail ⊢
    rw [List.map_cons, List.mapM_cons, List.mapM_cons, core_factOf (h j (.head _)), tail]

theorem core_edges : ∀ {js : List Nat}, (∀ j ∈ js, a.usedEdges[j]? = some true) →
    (js.map (newIndex a.usedEdges)).mapM (itemAt a.core.edges) =
      (js.mapM (itemAt a.edges)).map (List.map (renumberEdge a.usedNodes a.usedEdges))
  | [], _ => rfl
  | j :: js, h => by
    have tail := core_edges fun k hk => h k (.tail _ hk)
    rw [List.map_cons, List.mapM_cons, List.mapM_cons, core_edge (h j (.head _)), tail]
    cases itemAt a.edges j with
    | error e => rfl
    | ok e => cases js.mapM (itemAt a.edges) <;> rfl

theorem core_haveOnePort {js : List Nat} (h : ∀ j ∈ js, a.usedEdges[j]? = some true) :
    a.core.haveOnePort (js.map (newIndex a.usedEdges)) = a.haveOnePort js := by
  have hports (es : List Edge) :
      (es.map (renumberEdge a.usedNodes a.usedEdges)).map Edge.port = es.map Edge.port := by
    rw [List.map_map]
    rfl
  unfold haveOnePort
  rw [core_edges h]
  cases js.mapM (itemAt a.edges) with
  | error e => rfl
  | ok es =>
    simp only [Except.map, bind, Except.bind, hports]

theorem core_refinePairs : ∀ {fs : List TensorFact} {js : List Nat}, (∀ j ∈ js, a.usedEdges[j]? = some true) →
    a.core.refinePairs fs (js.map (newIndex a.usedEdges)) =
      (a.refinePairs fs js).map (List.map (Prod.map (newIndex a.usedEdges) id))
  | [], _, _ => rfl
  | _ :: _, [], _ => rfl
  | f :: fs, j :: js, h => by
    have tail : a.core.refinePairs fs (js.map (newIndex a.usedEdges)) = _ :=
      core_refinePairs fun k hk => h k (.tail _ hk)
    rw [List.map_cons, refinePairs, refinePairs, core_factOf (h j (.head _)), tail]
    cases a.factOf j with
    | error e => rfl
    | ok g =>
      simp only [bind, Except.bind]
      cases f.meet g with
      | error e => rfl
      | ok m => cases a.refinePairs fs js <;> rfl

theorem core_refineEdges {f : TensorFact} {js : List Nat} (h : ∀ j ∈ js, a.usedEdges[j]? = some true) :
    a.core.refineEdges f (js.map (newIndex a.usedEdges)) =
      (a.refineEdges f js).map (List.map (Prod.map (newIndex a.usedEdges) id)) := by
  rw [refineEdges_eq, refineEdges_eq, ← core_refinePairs h, List.map_map]
  rfl

end Visits

section Planned

variable {a : Analysis} (hl : Linked a) (hp : Planned a) {i : Nat} (hi : i ∈ a.plan)
include hl hp hi

theorem core_around : ∃ before after : List Nat, a.incoming[i]? = some before ∧ a.outgoing[i]? = some after ∧
    a.core.incoming[newIndex a.usedNodes i]? = some (before.map (newIndex a.usedEdges)) ∧
    a.core.outgoing[newIndex a.usedNodes i]? = some (after.map (newIndex a.usedEdges)) ∧
    (∀ j ∈ before, a.usedEdges[j]? = some true) ∧ ∀ j ∈ after, a.usedEdges[j]? = some true := by
  have hlt := hp.lt i hi
  have hu := (usedNodes_getElem? hp).2 hi
  obtain ⟨hin, hout⟩ := hl.length_lists
  have hcore {lists : List (List Nat)} {js : List Nat} (hlen : a.usedNodes.length = lists.length)
      (hjs : lists[i]? = some js) :
      ((kept a.usedNodes lists).map (List.map (newIndex a.usedEdges)))[newIndex a.usedNodes i]? =
        some (js.map (newIndex a.usedEdges)) := by
    rw [List.getElem?_map, kept_getElem? hlen hu, hjs]
    rfl
  refine ⟨_, _, hl.incoming_getElem? hlt, hl.outgoing_getElem? hlt, hcore hin (hl.incoming_getElem? hlt),
    hcore hout (hl.outgoing_getElem? hlt), fun j hj => ?_, fun j hj => ?_⟩
  · obtain ⟨e, he, rfl⟩ := List.mem_map.1 hj
    obtain ⟨he, ht⟩ := mem_edgesInto.1 he
    exact (usedEdges_getElem? hl hp he).2 ⟨i, hi, .inl ht⟩
  · obtain ⟨e, he, rfl⟩ := List.mem_map.1 hj
    obtain ⟨he, hs⟩ := mem_edgesFrom.1 he
    exact (usedEdges_getElem? hl hp he).2 ⟨i, hi, .inr hs⟩

/-- **A planned node infers in the core what it infers**, for edges with other numbers. -/
theorem core_inferred {n : Node} (hn : a.nodes[i]? = some n) :
    ResultsRelated (fun r s => (∀ p ∈ r, a.usedEdges[p.1]? = some true) ∧
        s = r.map (Prod.map (newIndex a.usedEdges) id))
      Failure.Alike (a.inferred n) (a.core.inferred (renumberNode a.usedNodes n)) := by
  obtain ⟨before, after, hbefore, hafter, hcbefore, hcafter, hub, hua⟩ := core_around hl hp hi
  have hid : n.id.toNat = i := by
    rw [hl.ids i n hn]
    rfl
  have hcid : (renumberNode a.usedNodes n).id.toNat = newIndex a.usedNodes i := by
    rw [renumberNode, Int.toNat_natCast, hid]
  have hkeys : ∀ r, a.inferred n = .ok r → ∀ p ∈ r, a.usedEdges[p.1]? = some true := by
    intro r hr p hpr
    obtain ⟨s⟩ := inferred_eq_ok_iff.1 hr
    cases (hid ▸ s.incoming_eq).symm.trans hbefore
    cases (hid ▸ s.outgoing_eq).symm.trans hafter
    have hmem : p.1 ∈ s.before ++ s.after := s.keys ▸ List.mem_map_of_mem hpr
    exact (List.mem_append.1 hmem).elim (hub p.1) (hua p.1)
  have hrelated : ResultsRelated (fun r s => s = r.map (Prod.map (newIndex a.usedEdges) id)) Failure.Alike
      (a.inferred n) (a.core.inferred (renumberNode a.usedNodes n)) := by
    unfold inferred
    rw [hid, hcid, itemAt_eq_ok_iff.2 hbefore, itemAt_eq_ok_iff.2 hafter, itemAt_eq_ok_iff.2 hcbefore,
      itemAt_eq_ok_iff.2 hcafter]
    simp only [ok_bind, core_haveOnePort hua, core_factsOf hub, core_factsOf hua,
      core_refinePairs hub, core_refineEdges hua, List.length_map]
    refine .bind_same .refl fun onePort => ?_
    split
    · rfl
    refine .bind_same .refl fun inputs => .bind_same .refl fun outputs => .bind_same .refl fun output =>
      .bind_same .refl fun refinement => ?_
    split
    · rfl
    · split
      · rfl
      · refine .bind_map .refl fun before => .bind_map .refl fun after => ?_
        exact List.map_append.symm
  rcases hrelated.cases with ⟨e, f, hr, hs, he⟩ | ⟨r, s, hr, hs, rfl⟩
  · rw [hr, hs]
    exact he
  · rw [hr, hs]
    exact ⟨hkeys r hr, rfl⟩

/-- **A visit of a planned node does the same to the core**. -/
theorem visit_core : ResultsRelated (fun x y => x.1 = y.1 ∧ y.2 = x.2.core) Failure.Alike (a.visit i)
    (a.core.visit (newIndex a.usedNodes i)) := by
  have hn := List.getElem?_eq_getElem (hp.lt i hi)
  have hcn := pruned_getElem? hp hi
  rw [hn] at hcn
  have hcn' : itemAt a.core.nodes (newIndex a.usedNodes i) = .ok _ := itemAt_eq_ok_iff.2 hcn
  unfold visit
  rw [itemAt_eq_ok_iff.2 hn, hcn', ok_bind, ok_bind]
  rcases (core_inferred hl hp hi hn).cases with ⟨e, f, hr, hs, he⟩ | ⟨r, s, hr, hs, hused, rfl⟩
  · rw [hr, hs]
    exact he
  · rw [hr, hs, ok_bind, ok_bind, core_commit a hused]
    exact ⟨rfl, rfl⟩

/-- **A hint for a planned node does the same to the core**. -/
theorem hint_core {f : TensorFact} : ResultsRelated (fun b c => c = b.core) Failure.Alike (a.hint i f)
    (a.core.hint (newIndex a.usedNodes i) f) := by
  obtain ⟨-, after, -, hafter, -, hcafter, -, hused⟩ := core_around hl hp hi
  have hlt := hp.lt i hi
  have hclt : newIndex a.usedNodes i < a.core.nodes.length := pruned_lt hp hi
  have hnode : a.nodeIndex i = .ok i := nodeIndex_eq_ok_iff.2 ⟨rfl, hlt⟩
  have hcnode : a.core.nodeIndex (newIndex a.usedNodes i) = .ok (newIndex a.usedNodes i) :=
    nodeIndex_eq_ok_iff.2 ⟨rfl, hclt⟩
  unfold hint
  rw [hnode, hcnode, ok_bind, ok_bind, itemAt_eq_ok_iff.2 hafter, itemAt_eq_ok_iff.2 hcafter, ok_bind, ok_bind,
    core_refineEdges hused]
  cases hr : a.refineEdges f after with
  | error e => exact .refl e
  | ok r =>
    have hkeys : ∀ p ∈ r, a.usedEdges[p.1]? = some true := by
      rw [refineEdges_eq, refinePairs_eq_ok_iff, zip_const, List.forall₂_map_left_iff] at hr
      exact forall_of_forall₂ ((List.forall₂_and_left _ _).2 ⟨hused, hr⟩) fun j p h => h.2.1.symm ▸ h.1
    exact congrArg Prod.snd (core_commit a hkeys)

end Planned

/-- **An analysis and its core run in lockstep**, and the same nodes stay used. -/
theorem lockstep_core (used : List Bool) :
    Lockstep (fun a b => WellFormed a ∧ a.usedNodes = used ∧ b = a.core) (fun c d => c = d) Failure.Alike where
  wellFormed := by
    rintro a _ ⟨hw, -, rfl⟩
    exact ⟨hw, core_wellFormed hw⟩
  length_eq := by
    rintro a _ ⟨-, -, rfl⟩
    exact (List.length_map _).symm
  place_eq := by
    rintro a _ ⟨-, -, rfl⟩
    exact ⟨rfl, rfl, rfl⟩
  movedTo := by
    rintro a _ p s f ⟨hw, hu, rfl⟩ hs
    exact ⟨movedTo_wellFormed hw hs, hu, rfl⟩
  visit := by
    rintro a _ k i j ⟨hw, hu, rfl⟩ hi hj
    have hcore : a.core.plan[k]? = some (newIndex a.usedNodes i) := by
      have hmap := List.getElem?_map (f := newIndex a.usedNodes) (l := a.plan) (i := k)
      rw [hi] at hmap
      exact hmap
    cases hj.symm.trans hcore
    rcases (visit_core hw.toLinked hw.toPlanned (List.mem_of_getElem? hi)).cases with
      ⟨e, f, hv, hc, he⟩ | ⟨x, y, hv, hc, hsame, hafter⟩
    · rw [hv, hc]
      exact he
    · rw [hv, hc]
      have hgraph := (visit_refines hv).toSameGraph
      exact ⟨hsame, visit_wellFormed hw hv, hgraph.usedNodes_eq.trans hu, hafter⟩
  le_false := rfl
  le_or h h' := h ▸ h' ▸ rfl

end Analysis

end EdgeFacts
