/-
# Values flow forwards

If no hint gives a value, the values on edges come from constants and from what
operators compute of them. Then all that flows out of a node is known at once: an
analysis is `Forward` if each planned node either has no value on any edge out of
it, or is `Valued`: all is known on every edge into and out of it, and its
operator computes what flows out of it from what flows into it. A visit keeps
that (`Analysis.runInvariant_forward`): an operator hands a value back to its
input only where the value came from there, and from all there is to know about
its inputs it infers all there is to know about its output
(`Operator.refine_exact`), the type and the shape already from theirs
(`Operator.refine_types`).

Key definitions: `TensorFact.Types`, `Analysis.Valued`, `Analysis.Forward`,
`Analysis.Unvalued`.
Key theorems: `Operator.refine_types`, `Operator.refine_exact`,
`Analysis.Unvalued.hintAll`, `Analysis.runInvariant_forward`.
-/
import EdgeFacts.Analysis.Pipeline
import EdgeFacts.Proofs.Around
import EdgeFacts.Proofs.StreamShape

namespace EdgeFacts

/-! ### Values in facts that operators infer -/

namespace TensorFact

theorem value_of_meet_left {a b c : TensorFact} (h : a.meet b = .ok c) (ha : a.value = none) :
    c.value = b.value := by
  have hv := (meet_eq_ok h).2.2
  rw [ha] at hv
  exact (Except.ok.inj hv).symm

theorem value_of_meet_right {a b c : TensorFact} (h : a.meet b = .ok c) (hb : b.value = none) :
    c.value = a.value := by
  have hv := (meet_eq_ok h).2.2
  rw [hb] at hv
  cases ha : a.value <;> (rw [ha] at hv; exact (Except.ok.inj hv).symm)

theorem meetClosed_unvalued : MeetClosed fun f => f.value = none where
  unknown := rfl
  meet hf hg hm := (value_of_meet_left hm hf).trans hg

end TensorFact

/-- The value of an output is known if the values of all inputs are, and it is what
the operator computes of them. -/
theorem knownOutput_eq_some_iff {op : Operator} {fs : List TensorFact} {v : Tensor} :
    knownOutput op fs = .ok (some v) ↔ ∃ us, fs.mapM TensorFact.value = some us ∧ op.eval us = .ok v := by
  unfold knownOutput
  cases fs.mapM TensorFact.value with
  | none => simp
  | some us => simp [map_eq_ok_iff]

namespace Operator

variable {op : Operator} (hop : op.IsLibrary) {fs ins : List TensorFact} {y out : TensorFact}
  (h : op.refine fs y = .ok (ins, some out))
include hop h

theorem refine_unvalued (hy : y.value = none) : ∀ f ∈ ins, f.value = none := by
  rcases refine_cases hop h with ⟨t, -, -, rfl, -⟩ | ⟨fact, -, -, rfl, -⟩ | ⟨x, invertible, -, -, h⟩ |
    ⟨perm, x, -, -, h⟩ | ⟨a, b, -, -, h⟩ | ⟨sums, sh, sw, x, k, -, -, h⟩
  · exact fun f hf => absurd hf List.not_mem_nil
  · exact fun f hf => absurd hf List.not_mem_nil
  · obtain ⟨m, -, -, -, rfl⟩ := refineElementwise_eq_ok h
    simp [hy]
  · obtain ⟨before, -, -, -, rfl⟩ := refineTranspose_eq_ok h
    simp [TensorFact.ofShape]
  · obtain ⟨d, s, -, -, -, -, -, rfl⟩ := refineAdd_eq_ok h
    simp [TensorFact.ofShape]
  · obtain ⟨d, sx, sk, -, -, -, -, rfl⟩ := refineConvolution_eq_ok h
    simp [TensorFact.ofShape]

/-- The value that an operator infers for its output is what it computes of known
inputs; for an input of the model there is none. -/
theorem refine_knownOutput : op.isPlaceholder = true ∧ out.value = none ∨
    op.isPlaceholder = false ∧ knownOutput op fs = .ok out.value := by
  rcases refine_cases hop h with ⟨t, rfl, rfl, -, rfl⟩ | ⟨fact, rfl, -, -, rfl⟩ |
    ⟨x, invertible, hkind, rfl, hr⟩ | ⟨perm, x, rfl, rfl, hr⟩ | ⟨a, b, rfl, rfl, hr⟩ |
    ⟨sums, strideH, strideW, x, k, rfl, rfl, hr⟩
  · exact .inr ⟨rfl, rfl⟩
  · exact .inl ⟨rfl, hop⟩
  · obtain ⟨-, -, hv, -, -⟩ := refineElementwise_eq_ok hr
    rcases hkind with ⟨rfl, -⟩ | ⟨rfl, -⟩
    · exact .inr ⟨rfl, hv⟩
    · exact .inr ⟨rfl, hv⟩
  · obtain ⟨-, -, -, hv, -⟩ := refineTranspose_eq_ok hr
    exact .inr ⟨rfl, hv⟩
  · obtain ⟨-, -, -, -, -, -, hv, -⟩ := refineAdd_eq_ok hr
    exact .inr ⟨rfl, hv⟩
  · obtain ⟨-, -, -, -, -, -, hv, -⟩ := refineConvolution_eq_ok hr
    exact .inr ⟨rfl, hv⟩

end Operator

/-! ### Facts that know the type and all extents -/

namespace TensorFact

/-- Whether a fact knows the type and all extents of a tensor. -/
structure Types (f : TensorFact) (t : Tensor) : Prop where
  dtype : f.dtype = some (.elem t.elem)
  shape : f.shape = .ofExtents t.shape

theorem types_ofTensor (t : Tensor) : (ofTensor t).Types t := ⟨rfl, rfl⟩

theorem Types.of_refines {f g : TensorFact} {t u : Tensor} (h : g.Types u) (hd : DTypeRefines f.dtype g.dtype)
    (hs : f.shape.Refines g.shape) (helem : t.elem = u.elem) (hshape : t.shape = u.shape) : f.Types t := by
  refine ⟨hd _ ?_, ShapeFact.Refines.eq_ofExtents ?_⟩
  · rw [h.dtype, helem]
  · rw [hshape, ← h.shape]
    exact hs

end TensorFact

theorem meetDType_elem {a b : ElemType} {c d f : Option DType}
    (h₁ : meetDType (some (.elem a)) (some (.elem b)) = .ok c) (h₂ : meetDType c f = .ok d) :
    b = a ∧ d = some (.elem a) := by
  obtain ⟨ha, hb⟩ := isMeet_dtype.lower h₁
  have hca := ha _ rfl
  exact ⟨DType.elem.inj (Option.some.inj ((hb _ rfl).symm.trans hca)), (isMeet_dtype.lower h₂).1 _ hca⟩

section

variable {x k t : Tensor} {fx fk y out : TensorFact} {ins : List TensorFact} (hx : fx.Types x)
include hx

theorem refineElementwise_types {op : Operator} {invertible : Bool} (helem : t.elem = x.elem)
    (hshape : t.shape = x.shape) (hr : refineElementwise op invertible fx y = .ok (ins, some out)) :
    out.Types t := by
  obtain ⟨m, hm, -, hout, -⟩ := refineElementwise_eq_ok hr
  have hle := (TensorFact.isMeet.lower hm).1
  rw [hout]
  exact hx.of_refines hle.dtype hle.shape helem hshape

theorem refineTranspose_types {perm : Option (List AxisEntry)} (hop : (Operator.transpose perm).IsLibrary)
    (ht : transposeTensor perm x = .ok t) (hr : refineTranspose perm fx y = .ok (ins, some out)) :
    out.Types t := by
  obtain ⟨entries, axes, hp, ha, rfl⟩ := transposeTensor_eq_ok_iff.1 ht
  obtain ⟨-, hd, -, -, -⟩ := refineTranspose_eq_ok hr
  refine ⟨(isMeet_dtype.lower hd).1 _ hx.dtype, ?_⟩
  exact refineTranspose_along hop hx.shape (fun k h => absurd h.symm (Option.some_ne_none k)) hp ha hr

variable (hk : fk.Types k)
include hk

/-- Two operands that combine have one type, and so has what they combine to. -/
theorem combined_dtype {c d : Option DType} (h₁ : meetDType fx.dtype fk.dtype = .ok c)
    (h₂ : meetDType c y.dtype = .ok d) (helem : t.elem = x.elem.promote k.elem) : d = some (.elem t.elem) := by
  rw [hx.dtype, hk.dtype] at h₁
  obtain ⟨hsame, hd⟩ := meetDType_elem h₁ h₂
  rw [hd, helem, hsame, ElemType.promote_self]

theorem refineAdd_types (ht : x.add k = .ok t) (hr : refineAdd fx fk y = .ok (ins, some out)) :
    out.Types t := by
  obtain ⟨zs, hzs, rfl⟩ := Tensor.add_eq_ok_iff.1 ht
  obtain ⟨d, s, hd, hdtype, hs, hshape, -, -⟩ := refineAdd_eq_ok hr
  rw [hx.shape, hk.shape] at hs
  cases hs.symm.trans (broadcastShapes_ofExtents hzs)
  exact ⟨combined_dtype hx hk hd hdtype rfl, (ShapeFact.isMeet.lower hshape).1.eq_ofExtents⟩

theorem refineConvolution_types {sums : Contraction} {strideH strideW : Nat}
    (ht : convolveTensors sums strideH strideW x k = .ok t)
    (hr : refineConvolution sums strideH strideW fx fk y = .ok (ins, some out)) : out.Types t := by
  obtain ⟨-, -, -, -, -, -, -, -, -, -, -, -, -, -, helem, -⟩ := convolveTensors_eq_ok ht
  obtain ⟨d, _, _, hd, hdtype, -, -, -⟩ := refineConvolution_eq_ok hr
  refine ⟨combined_dtype hx hk hd hdtype helem, ?_⟩
  exact (refineConvolution_along hx.shape hk.shape (fun k h => absurd h.symm (Option.some_ne_none k)) ht hr).2

end

namespace Operator

/-- **From the types and the shapes of its inputs an operator infers those of its output.** -/
theorem refine_types {op : Operator} (hop : op.IsLibrary) {ts : List Tensor} {t : Tensor}
    (he : op.eval ts = .ok t) {fs ins : List TensorFact} (hfs : List.Forall₂ TensorFact.Types fs ts)
    {y out : TensorFact} (h : op.refine fs y = .ok (ins, some out)) : out.Types t := by
  rcases refine_cases hop h with ⟨u, rfl, rfl, -, rfl⟩ | ⟨fact, rfl, -, -, -⟩ |
    ⟨fx, invertible, hkind, rfl, hr⟩ | ⟨perm, fx, rfl, rfl, hr⟩ | ⟨fx, fk, rfl, rfl, hr⟩ |
    ⟨sums, strideH, strideW, fx, fk, rfl, rfl, hr⟩
  · cases hfs
    cases he
    exact TensorFact.types_ofTensor _
  · cases he
  · rcases hfs with _ | @⟨_, u, _, _, hx, _ | _⟩
    have hmap : t.elem = u.elem ∧ t.shape = u.shape := by
      rcases hkind with ⟨rfl, -⟩ | ⟨rfl, -⟩
      · cases he
        exact ⟨rfl, rfl⟩
      · cases he
        exact ⟨rfl, rfl⟩
    exact refineElementwise_types hx hmap.1 hmap.2 hr
  · rcases hfs with _ | ⟨hx, _ | _⟩
    exact refineTranspose_types hx hop he hr
  · rcases hfs with _ | ⟨hx, _ | ⟨hk, _ | _⟩⟩
    exact refineAdd_types hx hk (ofKernel_eq_ok_iff.1 he) hr
  · rcases hfs with _ | ⟨hx, _ | ⟨hk, _ | _⟩⟩
    exact refineConvolution_types hx hk he hr

/-- **From all there is to know about its inputs an operator infers all there is
to know about its output.** -/
theorem refine_exact {op : Operator} (hop : op.IsLibrary) {ts : List Tensor} {t : Tensor}
    (he : op.eval ts = .ok t) {y out : TensorFact} {ins : List TensorFact}
    (h : op.refine (ts.map .ofTensor) y = .ok (ins, some out)) : out.Refines (.ofTensor t) := by
  have hts : List.Forall₂ TensorFact.Types (ts.map .ofTensor) ts :=
    List.forall₂_map_left_iff.2 (List.forall₂_same.2 fun u _ => TensorFact.types_ofTensor u)
  obtain ⟨hdtype, hshape⟩ := refine_types hop he hts h
  refine ⟨?_, ?_, ?_⟩
  · rw [hdtype]
    exact dtypeRefines_refl _
  · rw [hshape]
    exact .refl _
  · rcases refine_knownOutput hop h with ⟨hph, -⟩ | ⟨-, hout⟩
    · obtain ⟨fact, rfl⟩ := placeholder_of_isPlaceholder hph
      cases he
    · rw [← Except.ok.inj ((knownOutput_ofTensor he).symm.trans hout)]
      exact valueRefines_refl _

end Operator

namespace Analysis

/-! ### Edges that stay as they are -/

/-- Edges that are told by their ends and stay as they are stay the same edges. -/
theorem SameGraph.filter_eq {a b : Analysis} (h : SameGraph b a) (hl : Linked a) {p : Edge → Bool}
    (hp : ∀ e d : Edge, e.ends = d.ends → p e = p d)
    (hkept : ∀ e ∈ a.edges.filter p, b.edges[e.id]? = some e) : b.edges.filter p = a.edges.filter p := by
  have hids : (b.edges.filter p).map Edge.id = (a.edges.filter p).map Edge.id :=
    filter_map_of_ends hp (fun e d h => (Edge.ends_eq_iff.1 h).1) h.ends
  have hlen : (b.edges.filter p).length = (a.edges.filter p).length := by
    simpa using congrArg List.length hids
  refine List.ext_getElem hlen fun k hk hk' => ?_
  have hid : (b.edges.filter p)[k].id = (a.edges.filter p)[k].id := by
    have := congrArg (fun l => l[k]?) hids
    simpa [hk, hk'] using this
  have hb := (h.linked hl).getElem?_id (List.mem_filter.1 (List.getElem_mem hk)).1
  rw [hid, hkept _ (List.getElem_mem hk')] at hb
  exact (Option.some.inj hb).symm

theorem SameGraph.edgesFrom_eq {a b : Analysis} (h : SameGraph b a) (hl : Linked a) {i : Nat}
    (hkept : ∀ e ∈ a.edgesFrom i, b.edges[e.id]? = some e) : b.edgesFrom i = a.edgesFrom i :=
  h.filter_eq hl (fun e d h => by rw [(Edge.ends_eq_iff.1 h).2.1]) hkept

theorem SameGraph.edgesFrom_of_ne {a b : Analysis} (h : SameGraph b a) (hl : Linked a) {i k : Nat} (hki : k ≠ i)
    (hrest : ∀ e ∈ a.edges, e.source ≠ some i → b.edges[e.id]? = some e) : b.edgesFrom k = a.edgesFrom k :=
  h.edgesFrom_eq hl fun e he => by
    obtain ⟨hmem, hs⟩ := mem_edgesFrom.1 he
    exact hrest e hmem (by rw [hs]; simpa using hki)

theorem SameGraph.edgesInto_eq {a b : Analysis} (h : SameGraph b a) (hl : Linked a) {i : Nat}
    (hkept : ∀ e ∈ a.edgesInto i, b.edges[e.id]? = some e) : b.edgesInto i = a.edgesInto i :=
  h.filter_eq hl (fun e d h => by rw [(Edge.ends_eq_iff.1 h).2.2.2]) hkept

theorem SameGraph.exists_edgeFrom {a b : Analysis} (h : SameGraph b a) (hl : Linked a) {i : Nat} {d : Edge}
    (hd : d ∈ b.edgesFrom i) : ∃ e ∈ a.edgesFrom i, b.edges[e.id]? = some d := by
  obtain ⟨hd, hs⟩ := mem_edgesFrom.1 hd
  obtain ⟨j, hj⟩ := List.mem_iff_getElem?.1 hd
  obtain ⟨e, he, hends⟩ := h.exists_edge hj
  refine ⟨e, mem_edgesFrom.2 ⟨List.mem_of_getElem? he, ?_⟩, ?_⟩
  · rw [← (Edge.ends_eq_iff.1 hends).2.1, hs]
  · rw [hl.edgeIds j e he, hj]

theorem edgesFrom_of_unplanned {a a' : Analysis} (hw : WellFormed a) {i k : Nat} (hi : i ∈ a.plan)
    (hk : k ∉ a.plan) {changed : Bool} (hv : a.visit i = .ok (changed, a')) : a'.edgesFrom k = a.edgesFrom k := by
  refine (visit_refines hv).toSameGraph.edgesFrom_eq hw.toLinked fun e hmem => ?_
  obtain ⟨he, hs⟩ := mem_edgesFrom.1 hmem
  obtain ⟨n, ins, out, -, -, -, hrest⟩ := visit_edges hw hi hv
  refine hrest e he (fun ht => hk ?_) fun hsi => hk ?_
  · exact (hw.ordered.idxOf_lt hi (hw.source_mem_producersAt he ht hs)).1
  · cases hs.symm.trans hsi
    exact hi

/-! ### Values that only flow forwards -/

/-- Whether all is known on every edge around a node, and its operator computes
the tensor that flows out of it. -/
structure Valued (a : Analysis) (i : Nat) (v : Tensor) : Prop where
  after : ∀ e ∈ a.edgesFrom i, e.fact = .ofTensor v
  before : ∃ n us, a.nodes[i]? = some n ∧ (a.edgesInto i).map Edge.fact = us.map .ofTensor ∧
    n.op.eval us = .ok v

/-- Whether values have only flowed forwards; and about the output of a node that
is not planned, one thing is known on all edges. -/
structure Forward (a : Analysis) : Prop where
  library : OfLibrary a
  planned : ∀ i ∈ a.plan, (∀ e ∈ a.edgesFrom i, e.fact.value = none) ∨ ∃ v, a.Valued i v
  unplanned : ∀ i, i ∉ a.plan → ∃ g : TensorFact, g.value = none ∧ ∀ e ∈ a.edgesFrom i, e.fact = g

/-- Whether no value is known at all. -/
structure Unvalued (a : Analysis) : Prop where
  library : OfLibrary a
  values : ∀ e ∈ a.edges, e.fact.value = none
  unplanned : ∀ i, i ∉ a.plan → ∃ g : TensorFact, g.value = none ∧ ∀ e ∈ a.edgesFrom i, e.fact = g

theorem Valued.exact_into {a : Analysis} {i : Nat} {v : Tensor} (h : a.Valued i v) :
    ∀ e ∈ a.edgesInto i, ∃ u, e.fact = .ofTensor u := by
  intro e he
  obtain ⟨n, us, -, hus, -⟩ := h.before
  obtain ⟨u, -, hu⟩ := List.mem_map.1 (hus ▸ List.mem_map_of_mem he)
  exact ⟨u, hu.symm⟩

theorem Unvalued.forward {a : Analysis} (h : Unvalued a) : Forward a :=
  ⟨h.library, fun _ _ => .inl fun e he => h.values e (mem_edgesFrom.1 he).1, h.unplanned⟩

section

variable {a a' : Analysis} {i : Nat} {changed : Bool} (hw : WellFormed a) (hi : i ∈ a.plan)
  (hv : a.visit i = .ok (changed, a'))
include hw hi hv

/-- A visit leaves edges into a node about all of which all is known. -/
theorem edgesInto_eq_of_exact {k : Nat} {us : List Tensor}
    (hus : (a.edgesInto k).map Edge.fact = us.map .ofTensor) : a'.edgesInto k = a.edgesInto k := by
  refine (visit_refines hv).toSameGraph.edgesInto_eq hw.toLinked fun e hmem => ?_
  obtain ⟨u, -, hu⟩ := List.mem_map.1 (hus ▸ List.mem_map_of_mem hmem)
  exact visit_exact hw hi hv (mem_edgesInto.1 hmem).1 hu.symm

theorem Valued.visit {k : Nat} {v : Tensor} (h : a.Valued k v) : a'.Valued k v := by
  have hsame := (visit_refines hv).toSameGraph
  obtain ⟨n, us, hn, hus, he⟩ := h.before
  have hinto := edgesInto_eq_of_exact hw hi hv hus
  have hfrom : a'.edgesFrom k = a.edgesFrom k := hsame.edgesFrom_eq hw.toLinked fun e hmem =>
    visit_exact hw hi hv (mem_edgesFrom.1 hmem).1 (h.after e hmem)
  exact ⟨hfrom ▸ h.after, n, us, hsame.nodes ▸ hn, hinto ▸ hus, he⟩

end

namespace Forward

variable {a : Analysis} (h : Forward a)
include h

theorem valued_of_value {i : Nat} (hi : i ∈ a.plan) {e : Edge} (he : e ∈ a.edgesFrom i) {v : Tensor}
    (hv : e.fact.value = some v) : a.Valued i v := by
  rcases h.planned i hi with hnone | ⟨w, hw⟩
  · cases hv.symm.trans (hnone e he)
  · rw [hw.after e he] at hv
    cases hv
    exact hw

theorem exact_of_value {e : Edge} (he : e ∈ a.edges) {i : Nat} (hs : e.source = some i) {v : Tensor}
    (hv : e.fact.value = some v) : e.fact = .ofTensor v := by
  have hmem : e ∈ a.edgesFrom i := mem_edgesFrom.2 ⟨he, hs⟩
  by_cases hi : i ∈ a.plan
  · exact (h.valued_of_value hi hmem hv).after e hmem
  · obtain ⟨g, hg, hall⟩ := h.unplanned i hi
    rw [hall e hmem, hg] at hv
    cases hv

variable {i : Nat} (hw : WellFormed a) (hi : i ∈ a.plan)
include hw hi

theorem known_exact {us : List Tensor}
    (hus : ((a.edgesInto i).map Edge.fact).mapM TensorFact.value = some us) :
    (a.edgesInto i).map Edge.fact = us.map .ofTensor := by
  obtain ⟨n, hn⟩ := hw.exists_node hi
  have hsource : ∀ e ∈ a.edgesInto i, ∃ k, e.source = some k := by
    intro e he
    obtain ⟨m, hm, rfl⟩ := List.mem_iff_getElem.1 he
    have horigin := hw.inputs_origin hn hi
    exact ⟨_, (horigin.get hm (horigin.length_eq ▸ hm)).2.1⟩
  have hall := mapM_eq_some_iff.1 hus
  rw [List.forall₂_map_left_iff] at hall
  have hexact : List.Forall₂ (fun e u => e.fact = TensorFact.ofTensor u) (a.edgesInto i) us :=
    (forall₂_congr_left fun e he u => by
      obtain ⟨k, hk⟩ := hsource e he
      refine ⟨fun hv => h.exact_of_value (mem_edgesInto.1 he).1 hk hv, fun hf => ?_⟩
      rw [hf]
      rfl).1 hall
  rw [← List.forall₂_eq_eq_eq, List.forall₂_map_left_iff, List.forall₂_map_right_iff]
  exact hexact

variable {a' : Analysis} {changed : Bool} (hv : a.visit i = .ok (changed, a'))
include hv

theorem visit_unvalued {e d : Edge} (he : e ∈ a.edges) (hs : e.source ≠ some i)
    (hnone : e.fact.value = none) (hd : a'.edges[e.id]? = some d) : d.fact.value = none := by
  obtain ⟨n, ins, out, hn, hinfers, hmet, hrest⟩ := visit_edges hw hi hv
  by_cases ht : e.target = some i
  · have hinto : e ∈ a.edgesInto i := mem_edgesInto.2 ⟨he, ht⟩
    have hmem : e ∈ a.edgesInto i ++ a.edgesFrom i := List.mem_append.2 (.inl hinto)
    rw [← hinfers.map_snd] at hmem
    obtain ⟨⟨f, e'⟩, hx, rfl⟩ := List.mem_map.1 hmem
    obtain ⟨y, hy, href⟩ := hinfers.refine_eq
    have hyv : y.value = none := by
      -- a value on an edge out of the node would have come from this edge
      by_contra hyv
      rcases TensorFact.value_of_meetAll hy (Option.ne_none_iff_isSome.1 hyv) with hu | ⟨g, hg, hgv⟩
      · cases hu
      obtain ⟨c, hc, rfl⟩ := List.mem_map.1 hg
      rcases h.planned i hi with hall | ⟨v, hvalued⟩
      · rw [hall c hc] at hgv
        cases hgv
      · obtain ⟨u, hu⟩ := hvalued.exact_into e' hinto
        rw [hu] at hnone
        cases hnone
    have hf : f.value = none := by
      rcases (mem_pairsFor hinfers.length_eq).1 hx with hzip | ⟨c, hc, heq⟩
      · exact Operator.refine_unvalued (h.library n (List.mem_of_getElem? hn)) href hyv f
          (List.of_mem_zip hzip).1
      · cases heq
        exact absurd (mem_edgesFrom.1 hc).2 hs
    obtain ⟨m, hm, hedge⟩ := hmet _ hx
    have hmv : m.value = none := (TensorFact.value_of_meet_left hm hf).trans hnone
    cases hd.symm.trans hedge
    split
    · exact hnone
    · exact hmv
  · cases hd.symm.trans (hrest e he ht hs)
    exact hnone

/-- A visit of a node without values on the edges out of it puts none there, or
finds all that flows into it known and puts there what its operator computes. -/
theorem visit_self (hnone : ∀ e ∈ a.edgesFrom i, e.fact.value = none) :
    (∀ d ∈ a'.edgesFrom i, d.fact.value = none) ∨ ∃ v, a'.Valued i v := by
  have hsame := (visit_refines hv).toSameGraph
  obtain ⟨n, ins, out, hn, hinfers, hmet, -⟩ := visit_edges hw hi hv
  obtain ⟨y, -, href⟩ := hinfers.refine_eq
  have hlib := h.library n (List.mem_of_getElem? hn)
  have hout {d : Edge} (hd : d ∈ a'.edgesFrom i) : ∃ e m, e.fact.value = none ∧ out.meet e.fact = .ok m ∧
      d = if m.same e.fact = true then e else { e with fact := m } := by
    obtain ⟨e, he, hde⟩ := hsame.exists_edgeFrom hw.toLinked hd
    obtain ⟨m, hm, hedge⟩ := hmet (out, e) ((mem_pairsFor hinfers.length_eq).2 (.inr ⟨e, he, rfl⟩))
    exact ⟨e, m, hnone e he, hm, Option.some.inj (hde.symm.trans hedge)⟩
  cases hov : out.value with
  | none =>
    left
    intro d hd
    obtain ⟨e, m, hev, hm, rfl⟩ := hout hd
    have hmv : m.value = none := (TensorFact.value_of_meet_left hm hov).trans hev
    split
    · exact hev
    · exact hmv
  | some v =>
    right
    obtain ⟨-, hknown⟩ := (Operator.refine_knownOutput hlib href).resolve_left fun ⟨_, hn⟩ => by
      cases hov.symm.trans hn
    obtain ⟨us, hus, heval⟩ := knownOutput_eq_some_iff.1 (hov ▸ hknown)
    have hexact := h.known_exact hw hi hus
    have hle : out.Refines (.ofTensor v) := Operator.refine_exact hlib heval (hexact ▸ href)
    have hinto := edgesInto_eq_of_exact hw hi hv hexact
    refine ⟨v, fun d hd => ?_, n, us, hsame.nodes ▸ hn, hinto ▸ hexact, heval⟩
    obtain ⟨e, m, hev, hm, rfl⟩ := hout hd
    have hmv : m.value = some v := (TensorFact.value_of_meet_right hm hev).trans hov
    have hmt : m = .ofTensor v := ((TensorFact.isMeet.lower hm).1.trans hle).eq_ofTensor hmv
    have hnew : m.same e.fact = false := by
      simp [TensorFact.same, hmv, hev, sameExact]
    rw [hnew]
    exact hmt

/-- **A visit keeps values flowing forwards.** -/
theorem visit : Forward a' := by
  have hsame := (visit_refines hv).toSameGraph
  refine ⟨?_, fun k hk => ?_, fun k hk => ?_⟩
  · rw [OfLibrary, hsame.nodes]
    exact h.library
  · rcases h.planned k (hsame.plan ▸ hk) with hnone | ⟨v, hvalued⟩
    · by_cases hki : k = i
      · subst hki
        exact h.visit_self hw hi hv hnone
      · left
        intro d hd
        obtain ⟨e, he, hde⟩ := hsame.exists_edgeFrom hw.toLinked hd
        obtain ⟨hmem, hs⟩ := mem_edgesFrom.1 he
        exact h.visit_unvalued hw hi hv hmem (by rw [hs]; simpa using hki) (hnone e he) hde
    · exact .inr ⟨v, hvalued.visit hw hi hv⟩
  · have hka : k ∉ a.plan := hsame.plan ▸ hk
    rw [edgesFrom_of_unplanned hw hi hka hv]
    exact h.unplanned k hka

end Forward

/-- **Runs keep values flowing forwards.** -/
theorem runInvariant_forward : RunInvariant Forward where
  movedTo _ _ _ h := ⟨h.library, fun i hi => (h.planned i hi).imp_right fun ⟨v, hv⟩ =>
    ⟨v, ⟨hv.after, hv.before⟩⟩, h.unplanned⟩
  visit hw h hi hv := h.visit hw hi hv

/-! ### Hints without values -/

/-- What a hint does to edges, those out of its node and the others. -/
theorem hint_edges {a b : Analysis} {node : Int} {f : TensorFact} (hl : Linked a)
    (h : a.hint node f = .ok b) : ∃ i : Nat, a.nodeIndex node = .ok i ∧ SameGraph b a ∧
      (∀ e ∈ a.edgesFrom i, ∃ m, f.meet e.fact = .ok m ∧
        b.edges[e.id]? = some (if m.same e.fact = true then e else { e with fact := m })) ∧
      ∀ e ∈ a.edges, e.source ≠ some i → b.edges[e.id]? = some e := by
  have hsame := (hint_sameGraph h).1
  obtain ⟨i, js, r, hi, hjs, hr, rfl⟩ := hint_eq_ok_iff.1 h
  cases hjs.symm.trans (hl.outgoing_getElem? (nodeIndex_eq_ok_iff.1 hi).2)
  have hfrom : ∀ e ∈ a.edgesFrom i, e ∈ a.edges := fun e he => (mem_edgesFrom.1 he).1
  rw [forall₂_combined_iff hl hfrom, List.map_map] at hr
  have hpairs : ((a.edgesFrom i).map ((fun _ => f) ∘ Edge.id)).zip (a.edgesFrom i) =
      (a.edgesFrom i).map fun e => (f, e) := zip_const f _
  rw [hpairs] at hr
  have hids : ((a.edgesFrom i).map fun e => (f, e)).map (fun x => x.2.id) = (a.edgesFrom i).map Edge.id := by
    rw [List.map_map]
    rfl
  obtain ⟨hmet, hrest⟩ := commit_met hl (by simpa using hfrom) (hids ▸ hl.nodup_edgesFrom i) hr
  refine ⟨i, hi, hsame, fun e he => hmet (f, e) (List.mem_map_of_mem he), fun e he hs => ?_⟩
  rw [hrest, hl.getElem?_id he]
  rw [hids, hl.id_mem_edgesFrom he]
  exact hs

/-- Where one thing is known on all edges out of a node, a hint leaves one thing there. -/
theorem hint_uniform {a b : Analysis} (hl : Linked a) {node : Int} {f : TensorFact} (h : a.hint node f = .ok b)
    {k : Nat} {g : TensorFact} (hg : ∀ e ∈ a.edgesFrom k, e.fact = g) :
    ∃ g', (g' = g ∨ f.meet g = .ok g') ∧ ∀ d ∈ b.edgesFrom k, d.fact = g' := by
  obtain ⟨i, -, hsame, hmet, hrest⟩ := hint_edges hl h
  by_cases hki : k = i
  · subst hki
    have hput {d : Edge} (hd : d ∈ b.edgesFrom k) :
        ∃ m, f.meet g = .ok m ∧ d.fact = if m.same g = true then g else m := by
      obtain ⟨e, he, hde⟩ := hsame.exists_edgeFrom hl hd
      obtain ⟨m, hm, hedge⟩ := hmet e he
      rw [hg e he] at hm hedge
      refine ⟨m, hm, ?_⟩
      cases hde.symm.trans hedge
      split
      · exact hg e he
      · rfl
    cases hm : f.meet g with
    | error e =>
      refine ⟨g, .inl rfl, fun d hd => ?_⟩
      obtain ⟨m, hm', -⟩ := hput hd
      cases hm.symm.trans hm'
    | ok m =>
      refine ⟨if m.same g = true then g else m, ?_, fun d hd => ?_⟩
      · split
        · exact .inl rfl
        · exact .inr rfl
      · obtain ⟨m', hm', hd⟩ := hput hd
        cases hm.symm.trans hm'
        exact hd
  · rw [hsame.edgesFrom_of_ne hl hki hrest]
    exact ⟨g, .inl rfl, hg⟩

theorem hintAll_cons {a b : Analysis} {name : String} {f : TensorFact} {hints : Hints} :
    a.hintAll ((name, f) :: hints) = .ok b ↔ ∃ c, a.hintByName name f = .ok c ∧ c.hintAll hints = .ok b := by
  rw [Analysis.hintAll, List.foldlM_cons, bind_eq_ok_iff]
  rfl

/-- **Hints one after the other** keep what each of them keeps. -/
theorem hintAll_induction {P : Analysis → Prop} (Told : TensorFact → Prop)
    (hint : ∀ {a b : Analysis} {node : Int} {f : TensorFact}, Linked a → P a → Told f → a.hint node f = .ok b → P b) :
    ∀ {hints : Hints} {a b : Analysis}, WellFormed a → P a → (∀ h ∈ hints, Told h.2) → a.hintAll hints = .ok b →
      WellFormed b ∧ P b ∧ SameGraph b a
  | [], a, b, hw, h, _, hb => by
    cases hb
    exact ⟨hw, h, .refl _⟩
  | (name, f) :: hints, a, c, hw, h, htold, hc => by
    obtain ⟨b, hb, hc⟩ := hintAll_cons.1 hc
    obtain ⟨n, -, hnode⟩ := hintByName_eq_ok_iff.1 hb
    have hPb : P b := hint hw.toLinked h (htold _ (.head _)) hnode
    obtain ⟨hwc, hPc, hsame⟩ : WellFormed c ∧ P c ∧ SameGraph c b :=
      hintAll_induction Told hint (hint_wellFormed hw hnode) hPb (fun x hx => htold x (.tail _ hx)) hc
    exact ⟨hwc, hPc, hsame.trans (hint_sameGraph hnode).1⟩

namespace Unvalued

theorem hint {a b : Analysis} (h : Unvalued a) (hl : Linked a) {node : Int} {f : TensorFact}
    (hf : f.value = none) (hb : a.hint node f = .ok b) : Unvalued b := by
  have hsame := (hint_sameGraph hb).1
  refine ⟨?_, TensorFact.meetClosed_unvalued.hint h.values hf hb, fun k hk => ?_⟩
  · rw [OfLibrary, hsame.nodes]
    exact h.library
  · obtain ⟨g, hg, hall⟩ := h.unplanned k (hsame.plan ▸ hk)
    obtain ⟨g', rfl | hm, hall'⟩ := hint_uniform hl hb hall
    · exact ⟨_, hg, hall'⟩
    · exact ⟨g', TensorFact.meetClosed_unvalued.meet hf hg hm, hall'⟩

theorem start {model : Model} {output : Int} {limit : Option Nat} {a : Analysis}
    (hlib : ∀ n ∈ model.nodes, n.op.IsLibrary) (h : Analysis.start model output limit = .ok a) : Unvalued a := by
  obtain ⟨-, -, hunknown, hnodes, -⟩ := start_spec h
  refine ⟨?_, fun e he => ?_, fun i _ => ⟨.unknown, rfl, fun e he => hunknown e (mem_edgesFrom.1 he).1⟩⟩
  · rw [OfLibrary, hnodes]
    exact hlib
  · rw [hunknown e he]
    rfl

/-- **Hints without values, one after the other, bring none in.** -/
theorem hintAll {hints : Hints} {a b : Analysis} (hw : WellFormed a) (h : Unvalued a)
    (hnone : ∀ h ∈ hints, h.2.value = none) (hb : a.hintAll hints = .ok b) :
    WellFormed b ∧ Unvalued b ∧ SameGraph b a :=
  hintAll_induction (fun f => f.value = none) (fun hl hu hf hc => hu.hint hl hf hc) hw h hnone hb

end Unvalued

end Analysis

end EdgeFacts
