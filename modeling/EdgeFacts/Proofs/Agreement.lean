/-
# What is known of an output is known on all edges out of it

Each consumer of a node has an edge of its own, and what it infers about its
input stands on that edge alone. The node takes it up when it is visited: it
combines the facts out of it, and what its operator makes of them goes to all of
these edges. Operators other than inputs of the model hand back the datatype and
the shape that they are given (`Operator.refine_returns`), so once a run has
settled these are the same on all edges out of a node (`Analysis.run_agrees`).
An input of the model infers what was declared for it and nothing else, and what
one of its consumers has found does not reach the others
(`Analysis.residual_differs`). Of values, operators hand back those that they
compute.

Key theorems: `Operator.refine_returns`, `Content.agree`, `Analysis.run_agrees`.
-/
import EdgeFacts.Proofs.Greatest
import EdgeFacts.Proofs.Settled

namespace EdgeFacts

/-! ### What operators hand back -/

theorem fourDims_lower {s : ShapeFact} {a b c d : DimFact} (h : fourDims s = .ok (a, b, c, d)) :
    (ShapeFact.closed [a, b, c, d]).Refines s := (ShapeFact.isMeet.lower (fourDims_eq_ok.1 h)).1

/-- The output that a convolution infers says what was known of it. -/
theorem ConvolvedShapes.output_refines {strideH strideW : Nat} {x k y x' k' y' : ShapeFact}
    (h : ConvolvedShapes strideH strideW x k y x' k' y') : y'.Refines y := by
  obtain ⟨_, _, _, _, _, _, _, _, yn, yh, yw, yo, batch, channels, features, _, height, _, width, -, -, hy,
    hbatch, -, hfeatures, -, hheight, -, hwidth, -, -, rfl⟩ := h
  refine ShapeFact.Refines.trans (ShapeFact.closed_refines_closed_iff.2 ?_) (fourDims_lower hy)
  exact .cons (DimFact.isMeet.lower hbatch).2 (.cons (DimFact.isMeet.lower hheight).2
    (.cons (DimFact.isMeet.lower hwidth).2 (.cons (DimFact.isMeet.lower hfeatures).2 .nil)))

/-- **An operator hands back the type that it is given for its output**, unless it
is an input of the model. A constant does where nothing beyond it is known. -/
theorem Operator.refine_returns {op : Operator} (hop : op.IsLibrary) (hinput : op.isPlaceholder = false)
    {fs ins : List TensorFact} {y out : TensorFact} (h : op.refine fs y = .ok (ins, some out))
    (hle : y.Refines out) : out.withoutValue.Refines y.withoutValue := by
  have htype (hd : DTypeRefines out.dtype y.dtype) (hs : out.shape.Refines y.shape) :
      out.withoutValue.Refines y.withoutValue := ⟨hd, hs, valueRefines_none _⟩
  rcases refine_cases hop h with ⟨t, rfl, -, -, rfl⟩ | ⟨fact, rfl, -, -, -⟩ | ⟨x, invertible, -, -, hr⟩ |
    ⟨perm, x, rfl, -, hr⟩ | ⟨a, b, rfl, -, hr⟩ | ⟨sums, strideH, strideW, x, k, rfl, -, hr⟩
  · exact (TensorFact.same_iff_refines.1 (TensorFact.same_of_refines_ofTensor hle)).2.withoutValue
  · cases hinput
  · obtain ⟨m, hm, -, hout, -⟩ := refineElementwise_eq_ok hr
    have hlow := (TensorFact.isMeet.lower hm).2
    rw [hout]
    exact ⟨hlow.dtype, hlow.shape, valueRefines_none _⟩
  · obtain ⟨before, hd, hs, -, -⟩ := refineTranspose_eq_ok hr
    exact htype (isMeet_dtype.lower hd).2 (refineTransposedShapes_lower hs).2
  · obtain ⟨d, s, -, hd, -, hs, -, -⟩ := refineAdd_eq_ok hr
    exact htype (isMeet_dtype.lower hd).2 (ShapeFact.isMeet.lower hs).2
  · obtain ⟨d, sx, sk, -, hd, hshapes, -, -⟩ := refineConvolution_eq_ok hr
    exact htype (isMeet_dtype.lower hd).2 hshapes.output_refines

theorem Operator.refine_known {op : Operator} (hop : op.IsLibrary) (hinput : op.isPlaceholder = false)
    {fs ins : List TensorFact} {y out : TensorFact} (h : op.refine fs y = .ok (ins, some out))
    (hfs : ∀ f ∈ fs, f.value ≠ none) : out.value ≠ none := by
  obtain ⟨vs, hvs⟩ : ∃ vs, fs.mapM TensorFact.value = some vs := by
    obtain ⟨vs, hvs⟩ := exists_forall₂_of_forall fun f hf => Option.ne_none_iff_exists'.1 (hfs f hf)
    exact ⟨vs, mapM_eq_some_iff.2 hvs⟩
  rcases refine_knownOutput hop h with ⟨hp, -⟩ | ⟨-, hknown⟩
  · rw [hinput] at hp
    cases hp
  · simp only [knownOutput, hvs] at hknown
    obtain ⟨t, -, ht⟩ := map_eq_ok_iff.1 hknown
    rw [← ht]
    exact Option.some_ne_none t

/-- An identity hands the value of its output back to its input, and computes it
of that input again. -/
theorem Operator.refine_identity {fs ins : List TensorFact} {y out : TensorFact}
    (h : Operator.identity.refine fs y = .ok (ins, some out)) :
    ∃ x, fs = [x] ∧ ins = [{ out with value := y.value }] ∧ out.value = x.value := by
  rcases fs with _ | ⟨x, _ | ⟨_, _⟩⟩
  · cases h
  · obtain ⟨m, -, hv, hout, hins⟩ := refineElementwise_eq_ok h
    refine ⟨x, rfl, ?_, ?_⟩
    · rw [hins, hout]
      rfl
    · unfold knownOutput at hv
      cases hx : x.value with
      | none =>
        simp only [List.mapM_cons, hx] at hv
        exact (Except.ok.inj hv).symm
      | some t =>
        simp only [List.mapM_cons, hx] at hv
        exact (Except.ok.inj hv).symm
  · cases h

namespace TensorFact

theorem withoutValue_eq {f g : TensorFact} (h : f.withoutValue.Refines g.withoutValue)
    (k : g.withoutValue.Refines f.withoutValue) : f.withoutValue = g.withoutValue := by
  have hsame := same_iff_refines.2 ⟨h, k⟩
  simp only [same, Bool.and_eq_true, decide_eq_true_eq] at hsame
  obtain ⟨⟨hd, hs⟩, -⟩ := hsame
  unfold withoutValue at hd hs ⊢
  simp only at hd hs
  rw [hd, hs]

theorem same_of_value {f g : TensorFact} (h : g.Refines f) (htype : f.withoutValue = g.withoutValue)
    (hv : g.value = none ∨ f.value ≠ none) : f.same g = true := by
  have hd : f.dtype = g.dtype := (TensorFact.mk.inj htype).1
  have hs : f.shape = g.shape := (TensorFact.mk.inj htype).2.1
  have hvalue : sameExact Tensor.same f.value g.value = true := by
    cases hf : f.value with
    | none =>
      rw [hv.resolve_right (absurd hf)]
      rfl
    | some v =>
      obtain ⟨u, hu, huv⟩ := h.value v hf
      rw [hu]
      exact Tensor.same_symm huv
  simp [same, hd, hs, hvalue]

end TensorFact

/-! ### Nodes with nothing to add -/

namespace Content

variable {op : Operator} {before after : List Edge} (h : Content op before after)
include h

/-- What is known of the output of a node with nothing to add: a fact below those on
the edges out of it, each of which is below what its operator infers; and what it
infers about its inputs is known on the edges into it. -/
theorem output : ∃ y ins out, TensorFact.meetAll .unknown (after.map Edge.fact) = .ok y ∧
    op.refine (before.map Edge.fact) y = .ok (ins, some out) ∧
    (∀ e ∈ after, y.Refines e.fact ∧ e.fact.Refines out) ∧ ∀ x ∈ ins.zip before, x.2.fact.Refines x.1 := by
  obtain ⟨ins, out, ⟨-, ⟨y, hy, href⟩, hlen⟩, hall⟩ := h
  have hbelow {x : TensorFact × Edge} (hx : x ∈ pairsFor before after ins out) : x.2.fact.Refines x.1 := by
    obtain ⟨m, hm, hsame⟩ := hall x hx
    exact (TensorFact.same_iff_refines.1 hsame).2.trans (TensorFact.isMeet.lower hm).1
  refine ⟨y, ins, out, hy, href, fun e he => ⟨?_, ?_⟩, fun x hx => ?_⟩
  · exact (TensorFact.meetAll_lower hy).2 _ (List.mem_map_of_mem he)
  · exact hbelow ((mem_pairsFor hlen).2 (.inr ⟨e, he, rfl⟩))
  · exact hbelow ((mem_pairsFor hlen).2 (.inl hx))

/-- **The edges out of a node with nothing to add are of one type**, and where it is
an identity or all its inputs are known they carry one fact. -/
theorem agree (hop : op.IsLibrary) (hinput : op.isPlaceholder = false) :
    ∃ y, TensorFact.meetAll .unknown (after.map Edge.fact) = .ok y ∧ ∀ e ∈ after,
      e.fact.withoutValue = y.withoutValue ∧
      (op = .identity ∨ (∀ d ∈ before, d.fact.value ≠ none) → e.fact.same y = true) := by
  obtain ⟨y, ins, out, hy, href, hafter, hbefore⟩ := h.output
  refine ⟨y, hy, fun e he => ?_⟩
  obtain ⟨hye, heo⟩ := hafter e he
  have hback := Operator.refine_returns hop hinput href (hye.trans heo)
  have htype := TensorFact.withoutValue_eq (heo.withoutValue.trans hback) hye.withoutValue
  have hvalue (hne : out.value ≠ none) : e.fact.value ≠ none := by
    obtain ⟨v, hv⟩ := Option.ne_none_iff_exists'.1 hne
    obtain ⟨u, hu, -⟩ := heo.value v hv
    rw [hu]
    exact Option.some_ne_none u
  refine ⟨htype, fun hcase => TensorFact.same_of_value hye htype ?_⟩
  rcases hcase with rfl | hknown
  · obtain ⟨x, hx, rfl, hout⟩ := Operator.refine_identity href
    obtain ⟨d, ds, rfl, rfl, -⟩ := List.map_eq_cons_iff.1 hx
    -- the value handed back is on the edge into the node, so the operator computes it
    have hback := hbefore ({ out with value := y.value }, d) (.head _)
    cases hv : y.value with
    | none => exact .inl rfl
    | some v =>
      obtain ⟨u, hu, -⟩ := hback.value v hv
      exact .inr (hvalue (by rw [hout, hu]; exact Option.some_ne_none u))
  · refine .inr (hvalue (Operator.refine_known hop hinput href fun f hf => ?_))
    obtain ⟨d, hd, rfl⟩ := List.mem_map.1 hf
    exact hknown d hd

end Content

/-! ### Actions that bring in no value -/

/-- Whether an action is a hint without a value or only lets nodes infer. -/
def Action.Valueless : Action → Prop
  | .hint _ fact | .hintByName _ fact => fact.value = none
  | x => x.LetsInfer

namespace Analysis

/-- All that is known of a node stays known where edges about which all is known
stay as they are. -/
theorem Valued.of_sameGraph {a b : Analysis} {i : Nat} {v : Tensor} (h : a.Valued i v) (hl : Linked a)
    (hsame : SameGraph b a)
    (hkept : ∀ e ∈ a.edges, ∀ t, e.fact = .ofTensor t → b.edges[e.id]? = some e) : b.Valued i v := by
  have hinto : b.edgesInto i = a.edgesInto i := hsame.edgesInto_eq hl fun e he => by
    obtain ⟨t, ht⟩ := h.exact_into e he
    exact hkept e (mem_edgesInto.1 he).1 t ht
  have hfrom : b.edgesFrom i = a.edgesFrom i := hsame.edgesFrom_eq hl fun e he =>
    hkept e (mem_edgesFrom.1 he).1 v (h.after e he)
  obtain ⟨n, us, hn, hus, heval⟩ := h.before
  exact ⟨hfrom ▸ h.after, n, us, hsame.nodes ▸ hn, hinto ▸ hus, heval⟩

theorem Forward.hint {a b : Analysis} (h : Forward a) (hl : Linked a) {node : Int} {f : TensorFact}
    (hf : f.value = none) (hb : a.hint node f = .ok b) : Forward b := by
  obtain ⟨i, -, hsame, hmet, hrest⟩ := hint_edges hl hb
  have hkept : ∀ e ∈ a.edges, ∀ t, e.fact = .ofTensor t → b.edges[e.id]? = some e := by
    intro e he t ht
    by_cases hs : e.source = some i
    · obtain ⟨m, hm, hedge⟩ := hmet e (mem_edgesFrom.2 ⟨he, hs⟩)
      have hle := (TensorFact.isMeet.lower hm).2
      rw [ht] at hle hedge
      rw [hedge, if_pos (TensorFact.same_of_refines_ofTensor hle)]
    · exact hrest e he hs
  have hmetv {g m : TensorFact} (hg : g.value = none) (hm : f.meet g = .ok m) : m.value = none :=
    (TensorFact.value_of_meet_left hm hf).trans hg
  refine ⟨?_, fun k hk => ?_, fun k hk => ?_⟩
  · rw [OfLibrary, hsame.nodes]
    exact h.library
  · rcases h.planned k (hsame.plan ▸ hk) with hnone | ⟨v, hv⟩
    · left
      intro d hd
      obtain ⟨e, he, hde⟩ := hsame.exists_edgeFrom hl hd
      by_cases hki : k = i
      · subst hki
        obtain ⟨m, hm, hedge⟩ := hmet e he
        cases hde.symm.trans hedge
        split
        · exact hnone e he
        · exact hmetv (hnone e he) hm
      · exact hnone d (hsame.edgesFrom_of_ne hl hki hrest ▸ hd)
    · exact .inr ⟨v, hv.of_sameGraph hl hsame hkept⟩
  · obtain ⟨g, hg, hall⟩ := h.unplanned k (hsame.plan ▸ hk)
    obtain ⟨g', rfl | hm, hall'⟩ := hint_uniform hl hb hall
    · exact ⟨_, hg, hall'⟩
    · exact ⟨g', hmetv hg hm, hall'⟩

/-- What hints without values keep, and visits, is kept by actions that bring in no value. -/
theorem RunInvariant.afterAll_valueless {P : Analysis → Prop} (hP : RunInvariant P)
    (hint : ∀ {a b : Analysis} {node : Int} {f : TensorFact}, WellFormed a → P a → f.value = none →
      a.hint node f = .ok b → P b) {a : Analysis} {xs : List Action} (hw : WellFormed a) (h : P a)
    (hxs : ∀ x ∈ xs, x.Valueless) : WellFormed (a.afterAll xs) ∧ P (a.afterAll xs) := by
  refine afterAll_induction (P := fun a => WellFormed a ∧ P a) (fun a x ⟨hw, h⟩ hx => ?_) ⟨hw, h⟩ hxs
  have hstay : ∀ {r : Except Failure Analysis}, (∀ b, r = .ok b → WellFormed b ∧ P b) →
      WellFormed (a.orStay r).2 ∧ P (a.orStay r).2 := orStay_induction ⟨hw, h⟩
  have hhint {node : Int} {fact : TensorFact} (hf : fact.value = none) {b : Analysis}
      (hb : a.hint node fact = .ok b) : WellFormed b ∧ P b := ⟨hint_wellFormed hw hb, hint hw h hf hb⟩
  cases x with
  | hint node fact => exact hstay fun b hb => hhint hx hb
  | hintByName name fact =>
    refine hstay fun b hb => ?_
    obtain ⟨n, -, hb⟩ := hintByName_eq_ok_iff.1 hb
    exact hhint hx hb
  | _ => exact hP.after hw h hx

/-- **Without values in hints, values flow forwards.** -/
theorem Forward.afterAll {a : Analysis} {xs : List Action} (hw : WellFormed a) (h : Forward a)
    (hxs : ∀ x ∈ xs, x.Valueless) : WellFormed (a.afterAll xs) ∧ Forward (a.afterAll xs) :=
  runInvariant_forward.afterAll_valueless (fun hw h hf hb => h.hint hw.toLinked hf hb) hw h hxs

theorem afterAll_sameGraph {a : Analysis} (hw : WellFormed a) {xs : List Action} (hxs : ∀ x ∈ xs, x.Valueless) :
    SameGraph (a.afterAll xs) a := by
  have hgraph : RunInvariant fun b => SameGraph b a :=
    ⟨fun p s f h => (movedTo_sameGraph _ p s f).trans h, fun _ h _ hv => (visit_refines hv).toSameGraph.trans h⟩
  exact (hgraph.afterAll_valueless (fun _ h _ hb => (hint_sameGraph hb).1.trans h) hw (.refl a) hxs).2

/-! ### Settled runs -/

theorem value_of_meetAll_none {fs : List TensorFact} {y : TensorFact}
    (hy : TensorFact.meetAll .unknown fs = .ok y) (h : ∀ f ∈ fs, f.value = none) : y.value = none := by
  by_contra hne
  rcases TensorFact.value_of_meetAll hy (Option.ne_none_iff_isSome.1 hne) with hu | ⟨f, hf, hv⟩
  · cases hu
  · rw [h f hf] at hv
    cases hv

/-- **After a run all edges out of a node are of one type.** Take an analysis of a
model of operators of the library after any actions, and a run that settles. Then
the edges out of each planned node that is no input of the model are of the
datatype and the shape that are known of its output. They carry one fact where
the node is an identity, where all its inputs are known, and everywhere if no
action brings in a value. -/
theorem run_agrees {model : Model} {output : Int} {limit : Option Nat} {start r : Analysis}
    (hlib : ∀ n ∈ model.nodes, n.op.IsLibrary) (hstart : Analysis.start model output limit = .ok start)
    (xs : List Action) (hr : (start.afterAll xs).run = (.ok (), r)) {i : Nat} {n : Node} (hi : i ∈ r.plan)
    (hn : r.nodes[i]? = some n) (hinput : n.op.isPlaceholder = false) :
    ∃ f, r.outputFact i = .ok f ∧ ∀ e ∈ r.edgesFrom i,
      e.fact.dtype = f.dtype ∧ e.fact.shape = f.shape ∧
      (n.op = .identity ∨ (∀ d ∈ r.edgesInto i, d.fact.value ≠ none) ∨ (∀ x ∈ xs, x.Valueless) →
        e.fact.same f = true) := by
  obtain ⟨hw₀, -, -, hnodes, -, hlimit⟩ := start_spec hstart
  have hlib₀ : OfLibrary start := by
    rw [OfLibrary, hnodes]
    exact hlib
  obtain ⟨hw, hlib', -⟩ := (graphInvariant_library limit).afterAll hw₀ ⟨hlib₀, hlimit⟩ xs
  obtain ⟨hwr, hdown⟩ := run_refines hw
  rw [hr] at hwr hdown
  obtain ⟨m, hm, hcontent⟩ := (stableAt_iff hwr.toLinked).1 (stable_of_run hr i hi)
  cases hn.symm.trans hm
  have hop : n.op.IsLibrary := hlib'.of_refines hdown n (List.mem_of_getElem? hn)
  obtain ⟨y, hy, hall⟩ := hcontent.agree hop hinput
  refine ⟨y, (outputFact_eq hwr.toLinked (hwr.lt i hi)).trans hy, fun e he => ?_⟩
  obtain ⟨htype, hsame⟩ := hall e he
  obtain ⟨hd, hs, -⟩ := TensorFact.mk.inj htype
  refine ⟨hd, hs, fun hcase => ?_⟩
  rcases hcase with hid | hknown | hxs
  · exact hsame (.inl hid)
  · exact hsame (.inr hknown)
  · have hle := (TensorFact.meetAll_lower hy).2 _ (List.mem_map_of_mem he)
    have hforward : Forward r := by
      obtain ⟨hwf, hf⟩ := (Unvalued.start hlib hstart).forward.afterAll hw₀ hxs
      have hafter := (runInvariant_forward.run hwf hf).2
      rwa [hr] at hafter
    rcases hforward.planned i hi with hnone | ⟨v, hv⟩
    · refine TensorFact.same_of_value hle htype (.inl (value_of_meetAll_none hy fun f hf => ?_))
      obtain ⟨d, hd, rfl⟩ := List.mem_map.1 hf
      exact hnone d hd
    · rw [hv.after e he] at hle ⊢
      exact TensorFact.same_iff_refines.2 (TensorFact.same_iff_refines.1
        (TensorFact.same_of_refines_ofTensor hle)).symm

/-- An input added to the sum of its positive part and that part's positive part. -/
def residual : Model := ⟨[
  ⟨0, "x", "Placeholder", .placeholder .unknown, []⟩,
  ⟨1, "y", "Relu", .relu, [⟨0, none⟩]⟩,
  ⟨2, "z", "Relu", .relu, [⟨1, none⟩]⟩,
  ⟨3, "s", "Add", .add, [⟨1, none⟩, ⟨2, none⟩]⟩,
  ⟨4, "t", "Add", .add, [⟨0, none⟩, ⟨3, none⟩]⟩]⟩

/-- The fact of all lists of two elements. -/
def twoElements : TensorFact := .ofShape none (.closed [.known 2])

theorem residual_library : ∀ n ∈ residual.nodes, n.op.IsLibrary := by
  intro n hn
  simp only [residual, List.mem_cons, List.not_mem_nil, or_false] at hn
  rcases hn with rfl | rfl | rfl | rfl | rfl
  · rfl
  all_goals trivial

/-- What a hint says of the second positive part is known of the first towards both
of its consumers. -/
theorem residual_agrees : ∃ a r, start residual 4 none = .ok a ∧
    (a.afterAll [.hint 2 twoElements]).run = (.ok (), r) ∧ (r.edgesFrom 1).length = 2 ∧
      ∃ f, r.outputFact 1 = .ok f ∧ ∀ e ∈ r.edgesFrom 1, e.fact.same f = true := by
  have hplain : ∀ x ∈ [Action.hint 2 twoElements], x.Valueless := by
    intro x hx
    obtain rfl := List.mem_singleton.1 hx
    exact rfl
  obtain ⟨a, r, hstart, hrun, hplan, hnode, hlength⟩ : ∃ a r, start residual 4 none = .ok a ∧
      (a.afterAll [.hint 2 twoElements]).run = (.ok (), r) ∧ 1 ∈ r.plan ∧
      r.nodes[1]? = some ⟨1, "y", "Relu", .relu, [⟨0, none⟩]⟩ ∧ (r.edgesFrom 1).length = 2 :=
    ⟨_, _, rfl, rfl, by decide, rfl, rfl⟩
  obtain ⟨f, hf, hall⟩ := run_agrees residual_library hstart [.hint 2 twoElements] hrun hplan hnode rfl
  exact ⟨a, r, hstart, hrun, hlength, f, hf, fun e he => (hall e he).2.2 (.inr (.inr hplain))⟩

/-- It is known of the input towards the first positive part, but not towards the sum. -/
theorem residual_differs : ∃ a r, start residual 4 none = .ok a ∧
    (a.afterAll [.hint 2 twoElements]).run = (.ok (), r) ∧ 0 ∈ r.plan ∧
      ∃ e d f, r.edgesFrom 0 = [e, d] ∧ r.outputFact 0 = .ok f ∧
        e.fact.same f = true ∧ d.fact.same f = false :=
  ⟨_, _, rfl, rfl, by decide, _, _, _, rfl, rfl, rfl, rfl⟩

end Analysis

end EdgeFacts
