/-
# Facts only ever gain information

Whatever a user calls, and whether it succeeds or fails halfway, an edge that
survives has afterwards a fact that refines the one before; operators may infer
what they like, and may forget what they were told. An inference is never put on
an edge as it is but met with the fact there, so only the meet counts, and the
fact of an edge is a lower bound of all that was ever on it. Pruning alone moves
edges and drops some (`Analysis.edgeAfter`); the others keep what they know. A
step tells exactly whether some fact became strictly more precise.

Key definitions: `TensorFact.Absorbs`, `Analysis.Gains`, `Analysis.edgeAfter`.
Key theorems: `TensorFact.Refines.absorbs`, `Analysis.actionInvariant_gains`,
`Analysis.step_changed_iff`, `Analysis.facts_gain`.
-/
import EdgeFacts.Proofs.Consistent
import EdgeFacts.Proofs.SameFacts

namespace EdgeFacts

/-! ### The order of facts by their meets -/

/-- Whether a fact is what comes of unifying it with another: it, where it comes
first, and the same, where it comes second. -/
structure TensorFact.Absorbs (new old : TensorFact) : Prop where
  first : new.meet old = .ok new
  second : ∃ m, old.meet new = .ok m ∧ SameFact m new

theorem TensorFact.Refines.absorbs {f g : TensorFact} (h : f.Refines g) : f.Absorbs g where
  first := by
    simp only [meet, meetDType_of_refines h.dtype, ShapeFact.meet_of_refines h.shape,
      meetValue_of_refines h.value]
    rfl
  second := meet_of_refines h

theorem TensorFact.absorbs_iff_refines {f g : TensorFact} : f.Absorbs g ↔ f.Refines g :=
  ⟨fun h => (isMeet.lower h.first).2, Refines.absorbs⟩

namespace Analysis

/-! ### Calls that keep the edges in place -/

/-- Whether an analysis has the edges of another, place by place, with facts that
say at least as much. -/
def Gains (b a : Analysis) : Prop :=
  List.Forall₂ (fun d e : Edge => d.port = e.port ∧ d.fact.Refines e.fact) b.edges a.edges

theorem Gains.refl (a : Analysis) : Gains a a := List.forall₂_same.2 fun _ _ => ⟨rfl, .refl _⟩

theorem Gains.trans {a b c : Analysis} (h : Gains c b) (k : Gains b a) : Gains c a :=
  (forall₂_comp h k).imp fun _ _ ⟨_, hd, he⟩ => ⟨hd.1.trans he.1, hd.2.trans he.2⟩

theorem Refines.gains {a b : Analysis} (h : Refines b a) : Gains b a := by
  refine List.forall₂_iff_get.2 ⟨h.length_edges, fun j hb ha => ?_⟩
  have hd := List.getElem?_eq_getElem hb
  have he := List.getElem?_eq_getElem ha
  exact ⟨(Edge.ends_eq_iff.1 (h.ends_of_getElem? hd he)).2.2.1, h.facts j _ _ hd he⟩

theorem asFolded_gains (a : Analysis) (i : Nat) (value : Tensor) : Gains (a.asFolded i value) a := by
  refine List.forall₂_map_left_iff.2 (List.forall₂_same.2 fun e _ => ⟨?_, ?_⟩)
  · show (e.cut i).port = e.port
    unfold Edge.cut
    split <;> rfl
  · rw [Edge.cut_fact]
    exact .refl _

/-- **Visits, hints, folds and new plans never take from a fact**, whatever
operators infer and whatever is told. -/
theorem actionInvariant_gains (a : Analysis) : ActionInvariant (fun _ => True) fun b => Gains b a where
  movedTo _ _ _ h := h
  visit _ h _ hv := (visit_refines hv).gains.trans h
  hint _ h _ hb := by
    obtain ⟨i, js, r, -, -, hr, rfl⟩ := hint_eq_ok_iff.1 hb
    exact (commit_refines (combined_refines_edge hr)).gains.trans h
  foldNode hw h hb := by
    obtain ⟨i, r, -, hr, rfl⟩ := (foldNode_eq_ok_iff hw.toLinked).1 hb
    have hcommit := commit_refines (combined_refines_edge hr)
    exact (asFolded_gains _ i _).trans (hcommit.gains.trans h)
  replan h _ := h

/-! ### Where edges are after a call -/

/-- Where an edge is after a call, if it survives: pruning drops edges and moves
the others together. -/
def edgeAfter (a : Analysis) : Call → Nat → Option Nat
  | .act .prune, j => ((denseMapping 0 a.usedEdges)[j]?).join
  | _, j => some j

theorem edgeAfter_of_ne {a : Analysis} {x : Call} (hx : x ≠ .act .prune) (j : Nat) :
    a.edgeAfter x j = some j := by
  unfold edgeAfter
  split
  · exact absurd rfl hx
  · rfl

theorem edgeAfter_prune {a : Analysis} {j k : Nat} :
    a.edgeAfter (.act .prune) j = some k ↔ a.usedEdges[j]? = some true ∧ newIndex a.usedEdges j = k := by
  rw [edgeAfter, denseMapping_join, keptIndex?_eq_some_iff]

theorem pruned_edge {a : Analysis} {j : Nat} {e : Edge} (hj : a.usedEdges[j]? = some true)
    (he : a.edges[j]? = some e) : a.pruned.edges[newIndex a.usedEdges j]? =
      some (renumberEdge a.usedNodes a.usedEdges e) := by
  rw [← kept_getElem? (length_usedEdges a) hj] at he
  rw [pruned, List.getElem?_map, he]
  rfl

theorem exists_of_pruned_edge {a : Analysis} {k : Nat} {d : Edge} (hd : a.pruned.edges[k]? = some d) :
    ∃ (j : Nat) (e : Edge), a.usedEdges[j]? = some true ∧ a.edges[j]? = some e ∧ newIndex a.usedEdges j = k := by
  rw [pruned, List.getElem?_map] at hd
  obtain ⟨e, he, -⟩ := Option.map_eq_some_iff.1 hd
  obtain ⟨j, hj, hx, hk⟩ := exists_of_kept he
  exact ⟨j, e, hj, hx, hk⟩

section

variable {a : Analysis} (hw : WellFormed a)
include hw

theorem afterCall_prune : a.afterCall (.act .prune) = a.pruned :=
  congrArg Prod.snd (prune_eq hw.toLinked hw.toPlanned)

theorem afterCall_gains {x : Call} (hx : x ≠ .act .prune) : Gains (a.afterCall x) a :=
  ((actionInvariant_gains a).afterCall hw (.refl a) x.tells_true fun h => absurd h hx).2

/-- An edge that survives a call says at least as much as before. -/
theorem exists_edge_afterCall (x : Call) {j k : Nat} {e : Edge} (he : a.edges[j]? = some e)
    (hk : a.edgeAfter x j = some k) :
    ∃ d, (a.afterCall x).edges[k]? = some d ∧ d.port = e.port ∧ d.fact.Refines e.fact := by
  by_cases hx : x = .act .prune
  · subst hx
    obtain ⟨hj, rfl⟩ := edgeAfter_prune.1 hk
    rw [afterCall_prune hw]
    exact ⟨_, pruned_edge hj he, rfl, .refl _⟩
  · rw [edgeAfter_of_ne hx] at hk
    cases hk
    have hgains := afterCall_gains hw hx
    obtain ⟨hlt, rfl⟩ := List.getElem?_eq_some_iff.1 he
    have hlt' : j < (a.afterCall x).edges.length := hgains.length_eq ▸ hlt
    exact ⟨_, List.getElem?_eq_getElem hlt', hgains.get hlt' hlt⟩

/-- A call makes no edges. -/
theorem exists_edge_of_afterCall (x : Call) {k : Nat} {d : Edge} (hd : (a.afterCall x).edges[k]? = some d) :
    ∃ (j : Nat) (e : Edge), a.edges[j]? = some e ∧ a.edgeAfter x j = some k := by
  by_cases hx : x = .act .prune
  · subst hx
    rw [afterCall_prune hw] at hd
    obtain ⟨j, e, hj, he, hk⟩ := exists_of_pruned_edge hd
    exact ⟨j, e, he, edgeAfter_prune.2 ⟨hj, hk⟩⟩
  · have hlt : k < a.edges.length := (afterCall_gains hw hx).length_eq ▸ (List.getElem?_eq_some_iff.1 hd).1
    exact ⟨k, _, List.getElem?_eq_getElem hlt, edgeAfter_of_ne hx k⟩

/-- **A step tells whether it found something out**: exactly if the fact on some
edge is strictly more precise than before. -/
theorem step_changed_iff {b : Analysis} {changed : Bool} (hb : a.step = .ok (changed, b)) :
    changed = true ↔ ∃ (j : Nat) (e d : Edge), a.edges[j]? = some e ∧ b.edges[j]? = some d ∧
      d.fact.Refines e.fact ∧ ¬ e.fact.Refines d.fact := by
  obtain ⟨i, c, hi, hv, rfl⟩ := (step_eq_ok_iff (List.ne_nil_of_mem hw.output_mem)).1 hb
  have hedges : c.moveOn.edges = c.edges := by
    obtain ⟨p, s, f, hm⟩ := c.moveOn_eq
    rw [hm]
    rfl
  rw [hedges]
  constructor
  · rintro rfl
    obtain ⟨j, d, e, hd, he, hnew⟩ := visit_changed hw.toLinked hw.toPlanned (List.mem_of_getElem? hi) hv
    have hle : d.fact.Refines e.fact := (visit_refines hv).facts j d e hd he
    refine ⟨j, e, d, he, hd, hle, fun hge => ?_⟩
    rw [TensorFact.same_iff_refines.2 ⟨hle, hge⟩] at hnew
    cases hnew
  · rintro ⟨j, e, d, he, hd, -, hstrict⟩
    cases changed with
    | true => rfl
    | false =>
      rw [visit_unchanged hv] at hd
      cases he.symm.trans hd
      exact absurd (.refl _) hstrict

end

/-- **Facts only ever gain information.** Take an analysis of any operators after
any calls, and one more call: an edge that survives it, whether it succeeds or
fails, has a fact that refines the one before, which is to say that unifying the
two gives the new one; and there are no other edges. If it is a step and the step
succeeds, it reports a change exactly if some fact is strictly more precise. -/
theorem facts_gain {model : Model} {output : Int} {limit : Option Nat} {start : Analysis}
    (hstart : Analysis.start model output limit = .ok start) (xs : List Call) :
    (∀ (x : Call) (j k : Nat) (e : Edge), (start.afterCalls xs).edges[j]? = some e →
      (start.afterCalls xs).edgeAfter x j = some k →
      ∃ d, ((start.afterCalls xs).afterCall x).edges[k]? = some d ∧ d.port = e.port ∧
        d.fact.Refines e.fact ∧ d.fact.Absorbs e.fact) ∧
    (∀ (x : Call) (k : Nat) (d : Edge), ((start.afterCalls xs).afterCall x).edges[k]? = some d →
      ∃ (j : Nat) (e : Edge), (start.afterCalls xs).edges[j]? = some e ∧
        (start.afterCalls xs).edgeAfter x j = some k) ∧
    ∀ (changed : Bool) (b : Analysis), (start.afterCalls xs).step = .ok (changed, b) →
      (changed = true ↔ ∃ (j : Nat) (e d : Edge), (start.afterCalls xs).edges[j]? = some e ∧
        b.edges[j]? = some d ∧ d.fact.Refines e.fact ∧ ¬ e.fact.Refines d.fact) := by
  have hw : WellFormed (start.afterCalls xs) := afterCalls_wellFormed (start_spec hstart).1 xs
  refine ⟨fun x j k e he hk => ?_, fun x k d hd => exists_edge_of_afterCall hw x hd,
    fun changed b hb => step_changed_iff hw hb⟩
  obtain ⟨d, hd, hport, hle⟩ := exists_edge_afterCall hw x he hk
  exact ⟨d, hd, hport, hle, hle.absorbs⟩

/-- An operator that forgets whatever it is told. -/
def forgetful : CustomOperator where
  typeName := "Forgetful"
  ownLabel := none
  stateless := true
  refine inputs _ := .ok (inputs.map fun _ => .unknown, some .unknown)
  eval _ := .error (.because (.notEvaluable "Forgetful"))

/-- An input and what such an operator makes of it. -/
def forgotten : Model := ⟨[
  ⟨0, "x", "Placeholder", .placeholder .unknown, []⟩,
  ⟨1, "y", "Forgetful", .custom forgetful, [⟨0, none⟩]⟩]⟩

/-- What is known of an input stays known through rounds over an operator that
forgets it, and a step finds out nothing new. -/
theorem forgotten_gain : ∃ a b, start forgotten 1 none = .ok a ∧
    (∃ e d : Edge, (a.afterCalls [.act (.hint 0 integerPairs)]).edges[0]? = some e ∧ e.fact = integerPairs ∧
      ((a.afterCalls [.act (.hint 0 integerPairs)]).afterCall (.runWithin 3)).edges[0]? = some d ∧
      d.fact.Absorbs e.fact) ∧
    (a.afterCalls [.act (.hint 0 integerPairs)]).step = .ok (false, b) ∧
    ∀ (j : Nat) (e d : Edge), (a.afterCalls [.act (.hint 0 integerPairs)]).edges[j]? = some e →
      b.edges[j]? = some d → d.fact.Refines e.fact → e.fact.Refines d.fact := by
  have hstart : start forgotten 1 none = .ok _ := rfl
  obtain ⟨hkept, -, hstep⟩ := facts_gain hstart [.act (.hint 0 integerPairs)]
  obtain ⟨d, hd, -, -, habsorbs⟩ := hkept (.runWithin 3) 0 0 _ rfl rfl
  refine ⟨_, _, hstart, ⟨_, d, rfl, rfl, hd, habsorbs⟩, rfl, fun j e d he hd hle => ?_⟩
  by_contra hge
  have hchanged := (hstep false _ rfl).2 ⟨j, e, d, he, hd, hle, hge⟩
  cases hchanged

end Analysis

end EdgeFacts
