/-
# What is known of streamed tensors

An analysis can be run chunk by chunk if one of the inputs of its model is
streamed, no node has two streamed inputs, and of all other inputs the shapes are
known (`Analysis.Streamable`). Where no node has anything to add, what is known on
the edges of the plan then are the shapes of the tensors that evaluation gives
there, but for the extents along streamed axes (`Analysis.Streamable.tells`). So
each streamed node but the input keeps pace with a streamed producer.

Key definitions: `Evaluated`, `Analysis.outputAxis`, `Analysis.Streamable`,
`Analysis.SumsUniformly`, `Analysis.fed`.
Key theorems: `Analysis.Streamable.tells`, `Analysis.Streamable.exists_pace`,
`Analysis.Streamable.source_of_streamed`.
-/
import EdgeFacts.Proofs.Evaluate
import EdgeFacts.Proofs.Pace
import EdgeFacts.Proofs.Settled

namespace EdgeFacts

open ShapeFact (along)

/-! ### Values at planned nodes -/

/-- Whether tensors are what the nodes of a plan are evaluated to. -/
def Evaluated (nodes : List Node) (feed : Nat → Except Failure Tensor) (plan : List Nat)
    (value : Nat → Tensor) : Prop :=
  ∀ i ∈ plan, ∀ n, nodes[i]? = some n →
    if n.op.isPlaceholder then feed i = .ok (value i)
    else n.op.eval (n.producers.map value) = .ok (value i)

theorem mapM_producers_eq_ok {f : Nat → Except Failure Tensor} {value : Nat → Tensor} {ps : List Nat}
    (h : ∀ p ∈ ps, f p = .ok (value p)) : ps.mapM f = .ok (ps.map value) := by
  rw [mapM_eq_ok_iff, List.forall₂_map_right_iff, List.forall₂_same]
  exact h

theorem exists_evaluated {nodes : List Node} {feed : Nat → Except Failure Tensor} {plan : List Nat}
    (ho : Plan.Ordered (Plan.producersAt nodes) [] plan)
    (h : ∀ i ∈ plan, ∃ t, evaluateAll nodes feed plan noResults i = .ok t) :
    ∃ value, Evaluated nodes feed plan value := by
  have : Nonempty Tensor := ⟨.ofFn (.int .w64) [] fun _ => default⟩
  choose! value hvalue using h
  refine ⟨value, fun i hi n hn => ?_⟩
  have heq := hvalue i hi
  rw [evaluateAll_eq ho hi, evaluateNode_eq hn] at heq
  split at heq
  · rename_i hp
    rw [if_pos hp]
    exact heq
  · rename_i hp
    have hproducers : n.producers.mapM (evaluateAll nodes feed plan noResults) = .ok (n.producers.map value) :=
      mapM_producers_eq_ok fun p hpn => hvalue p (ho.idxOf_lt hi (Plan.mem_producersAt_of_node hn hpn)).1
    rw [hproducers] at heq
    rw [if_neg hp]
    exact heq

/-! ### Streamed axes -/

/-- The axis along which the tensors on an edge are streamed, if they are. -/
def Edge.axis (e : Edge) : Option Nat := e.fact.shape.streamedAxis?

theorem ShapeFact.streamedAxis?_eq {extents : List Nat} {axis : Option Nat}
    (haxis : ∀ k, axis = some k → k < extents.length) : (along extents axis).streamedAxis? = axis := by
  cases axis with
  | none => exact streamedAxis?_ofExtents
  | some k => exact streamedAxis?_along (haxis k rfl)

theorem Port.Known.axis_eq {p : Port} {e : Edge} (h : p.Known e.fact) : e.axis = p.axis := by
  rw [Edge.axis, h.shape]
  exact ShapeFact.streamedAxis?_eq h.axis_lt

/-- A fact that says more has a streamed axis where there is one. -/
theorem ShapeFact.Refines.streamedAxis?_eq_none {s t : ShapeFact} (h : s.Refines t)
    (hs : s.streamedAxis? = none) : t.streamedAxis? = none := by
  rw [streamedAxis?, List.findIdx?_eq_none_iff] at hs ⊢
  intro d hd
  obtain ⟨k, hk⟩ := List.mem_iff_getElem?.1 hd
  have hle := h.dims.getD k
  rw [List.getD_eq_getElem?_getD, List.getD_eq_getElem?_getD, hk, Option.getD_some] at hle
  by_contra hstreamed
  have hd : d = .streamed := by simpa using hstreamed
  subst hd
  have hsk := hle.eq_of_ne_any (by decide)
  cases hget : s.dims[k]? with
  | none =>
    rw [hget] at hsk
    cases hsk
  | some d =>
    rw [hget] at hsk
    exact absurd (hs d (List.mem_of_getElem? hget)) (by simpa using hsk)

namespace Analysis

/-- The axis along which the output of a node is streamed, if it is. -/
def outputAxis (a : Analysis) (i : Nat) : Option Nat :=
  match a.outputFact i with
  | .ok f => f.shape.streamedAxis?
  | .error _ => none

/-- What flows out of a node. -/
def port (a : Analysis) (value : Nat → Tensor) (i : Nat) : Port := ⟨value i, a.outputAxis i⟩

/-- Whether an analysis can be run chunk by chunk, an input of the model streamed
and the others given. -/
structure Streamable (a : Analysis) (inputs : Table Tensor) (x : Node) (fact : TensorFact) : Prop where
  /-- The input that is streamed, with its declared fact, is the node of its name. -/
  named : a.nodes.find? (·.name = x.name) = some x
  declared : x.op = .placeholder fact
  /-- Of the inputs of a planned node one at most is streamed. -/
  single : ∀ i ∈ a.plan, ((a.edgesInto i).filter fun e => e.axis.isSome).length ≤ 1
  /-- Of the others the shapes are known. -/
  whole : ∀ i ∈ a.plan, ∀ e ∈ a.edgesInto i, e.axis = none → ∃ extents, e.fact.shape = .ofExtents extents
  /-- Other inputs of the model are not streamed and have values of their shapes. -/
  given : ∀ i ∈ a.plan, ∀ n, a.nodes[i]? = some n → n.op.isPlaceholder = true → n.id ≠ x.id →
    ∃ f v, a.outputFact i = .ok f ∧ f.shape.streamedAxis? = none ∧ inputs.find? n.name = some v ∧
      f.shape.Admits v.shape
  /-- Convolutions get their filters whole, with an extent of 1 at least along the
  axis of their data that is streamed. -/
  filters : ∀ i ∈ a.plan, ∀ n sums strideH strideW data filter, a.nodes[i]? = some n →
    n.op = .convolution sums strideH strideW → a.edgesInto i = [data, filter] →
      filter.axis = none ∧ ∀ k, data.axis = some (k + 1) → filter.fact.shape.dims[k]? ≠ some (.known 0)

/-- Whether libraries sum uniformly what the convolutions of a plan get in chunks. -/
def SumsUniformly (a : Analysis) (value : Nat → Tensor) : Prop :=
  ∀ i ∈ a.plan, ∀ n, a.nodes[i]? = some n → n.op.SumsUniformly (n.producers.map (a.port value))

/-- What inputs of the model are fed: one of them a tensor, and the others their values. -/
def fed (a : Analysis) (inputs : Table Tensor) (x : Node) (t : Tensor) (i : Nat) : Except Failure Tensor := do
  let n ← itemAt a.nodes i
  if n.id = x.id then return t
  else orFail (.because (.missingValue n.name)) (inputs.find? n.name)

theorem fed_source {a : Analysis} {inputs : Table Tensor} {x : Node} {t : Tensor} {i : Nat}
    (hx : a.nodes[i]? = some x) : a.fed inputs x t i = .ok t := by
  rw [fed, itemAt_eq_ok_iff.2 hx]
  exact if_pos rfl

theorem fed_given {a : Analysis} {inputs : Table Tensor} {x n : Node} {t v : Tensor} {i : Nat}
    (hn : a.nodes[i]? = some n) (hid : n.id ≠ x.id) (hv : inputs.find? n.name = some v) :
    a.fed inputs x t i = .ok v := by
  rw [fed, itemAt_eq_ok_iff.2 hn]
  refine (if_neg hid).trans ?_
  rw [hv]
  rfl

theorem port_slice_of_whole {a : Analysis} {value : Nat → Tensor} {i : Nat} (h : a.outputAxis i = none)
    (m : Nat) : (a.port value i).slice 0 m = value i := Port.slice_of_whole h 0 m

/-! ### What is known along a plan -/

/-- Where a node has nothing to add, what it infers of its output is known on the
edges out of it. -/
theorem StableAt.inferred {a : Analysis} (hl : Linked a) {i : Nat} (h : a.StableAt i) :
    ∃ n ins y out, a.nodes[i]? = some n ∧ a.outputFact i = .ok y ∧
      n.op.refine ((a.edgesInto i).map Edge.fact) y = .ok (ins, some out) ∧
      ∀ e ∈ a.edgesFrom i, e.fact.shape.Refines out.shape ∧ y.shape.Refines e.fact.shape := by
  obtain ⟨n, hn, ins, out, hinfers, hcontent⟩ := (stableAt_iff hl).1 h
  obtain ⟨y, hy, href⟩ := hinfers.refine_eq
  have hlt := (List.getElem?_eq_some_iff.1 hn).1
  refine ⟨n, ins, y, out, hn, by rw [outputFact_eq hl hlt, hy], href, fun e he => ⟨?_, ?_⟩⟩
  · obtain ⟨m, hm, hsame⟩ := hcontent (out, e) ((mem_pairsFor hinfers.length_eq).2 (.inr ⟨e, he, rfl⟩))
    exact (TensorFact.same_iff_refines.1 hsame).2.shape.trans (TensorFact.isMeet.lower hm).1.shape
  · exact ((TensorFact.meetAll_lower hy).2 _ (List.mem_map_of_mem he)).shape

/-- Whether the edges from a node to planned ones tell the shape of what flows out of it. -/
def Tells (a : Analysis) (value : Nat → Tensor) (i : Nat) : Prop :=
  ∀ e ∈ a.edgesFrom i, ∀ j ∈ a.plan, e.target = some j → (a.port value i).Known e.fact

theorem known_inputs {a : Analysis} {value : Nat → Tensor} {i : Nat} {n : Node} (hw : WellFormed a)
    (hn : a.nodes[i]? = some n) (hi : i ∈ a.plan) (h : ∀ p ∈ n.producers, a.Tells value p) :
    List.Forall₂ (fun p e => Port.Known p e.fact) (n.producers.map (a.port value)) (a.edgesInto i) := by
  rw [Node.producers, List.map_map, List.forall₂_map_left_iff]
  have horigin := hw.inputs_origin hn hi
  refine (List.forall₂_iff_get.2 ⟨horigin.length_eq.symm, fun k hk hk' => ?_⟩)
  obtain ⟨he, hs, -⟩ := horigin.get hk' hk
  obtain ⟨hmem, ht⟩ := mem_edgesInto.1 he
  exact h _ (List.mem_map_of_mem (List.get_mem _ ⟨k, hk⟩)) _ (mem_edgesFrom.2 ⟨hmem, hs⟩) i hi ht

theorem axes_eq {a : Analysis} {value : Nat → Tensor} {i : Nat} {n : Node} (hw : WellFormed a)
    (hn : a.nodes[i]? = some n) (hi : i ∈ a.plan) (h : ∀ p ∈ n.producers, a.Tells value p) :
    n.producers.map a.outputAxis = (a.edgesInto i).map Edge.axis := by
  have hknown := known_inputs hw hn hi h
  rw [List.forall₂_map_left_iff] at hknown
  rw [← List.forall₂_eq_eq_eq, List.forall₂_map_left_iff, List.forall₂_map_right_iff]
  exact hknown.imp fun p e hp => hp.axis_eq.symm

/-- The edges out of a node tell what it infers, and so does its output, if there is one. -/
theorem outputAxis_cases {a : Analysis} {i : Nat} {y out : TensorFact} (hy : a.outputFact i = .ok y)
    (hl : Linked a) (hi : i < a.nodes.length)
    (hedges : ∀ e ∈ a.edgesFrom i, e.fact.shape.Refines out.shape ∧ y.shape.Refines e.fact.shape)
    {extents : List Nat} {axis : Option Nat} (hout : out.shape = along extents axis)
    (haxis : ∀ k, axis = some k → k < extents.length) :
    (∀ e ∈ a.edgesFrom i, e.fact.shape = along extents axis) ∧
      (a.edgesFrom i = [] ∧ a.outputAxis i = none ∨ a.edgesFrom i ≠ [] ∧ a.outputAxis i = axis) := by
  have hall : ∀ e ∈ a.edgesFrom i, e.fact.shape = along extents axis := fun e he =>
    (hout ▸ (hedges e he).1).eq_along
  refine ⟨hall, ?_⟩
  have houtput : a.outputAxis i = y.shape.streamedAxis? := by rw [outputAxis, hy]
  cases hcase : a.edgesFrom i with
  | nil =>
    rw [outputFact_eq hl hi, hcase] at hy
    cases hy
    exact .inl ⟨rfl, houtput⟩
  | cons e es =>
    have he : e ∈ a.edgesFrom i := hcase ▸ .head _
    have hle := (hedges e he).2
    rw [hall e he] at hle
    refine .inr ⟨List.cons_ne_nil _ _, ?_⟩
    rw [houtput, hle.eq_along, ShapeFact.streamedAxis?_eq haxis]

theorem tells_of_axis {a : Analysis} {value : Nat → Tensor} {i : Nat} {axis : Option Nat}
    (hall : ∀ e ∈ a.edgesFrom i, e.fact.shape = along (value i).shape axis)
    (hcase : a.edgesFrom i = [] ∧ a.outputAxis i = none ∨ a.edgesFrom i ≠ [] ∧ a.outputAxis i = axis)
    (haxis : ∀ k, axis = some k → k < (value i).rank) : a.Tells value i := by
  intro e he _ _ _
  have hout := (hcase.resolve_left fun hnil => List.ne_nil_of_mem he hnil.1).2
  refine ⟨?_, fun k hk => haxis k (hout.symm.trans hk)⟩
  rw [port, hout]
  exact hall e he

namespace Streamable

variable {a : Analysis} {inputs : Table Tensor} {x : Node} {fact : TensorFact}
  (h : a.Streamable inputs x fact) (hw : WellFormed a)
include h hw

theorem source : a.nodes[x.id.toNat]? = some x ∧ ∀ (i : Nat) n, a.nodes[i]? = some n → n.id = x.id →
    i = x.id.toNat ∧ n = x := by
  obtain ⟨k, hk⟩ := List.mem_iff_getElem?.1 (List.mem_of_find?_eq_some h.named)
  have hid := hw.ids k x hk
  have hx : a.nodes[x.id.toNat]? = some x := by
    rw [hid]
    exact hk
  refine ⟨hx, fun i n hn heq => ?_⟩
  have hi := hw.ids i n hn
  obtain rfl : i = x.id.toNat := by omega
  exact ⟨rfl, Option.some.inj (hn.symm.trans hx)⟩

variable (hlib : OfLibrary a) (hstable : a.Stable) {t : Tensor} {axis : Nat}
  (hfact : fact.shape = along t.shape (some axis)) (haxis : axis < t.rank)
  {value : Nat → Tensor} (hvalue : Evaluated a.nodes (a.fed inputs x t) a.plan value)
  (hsums : a.SumsUniformly value)

theorem length_streamed_le {i : Nat} {n : Node} (hi : i ∈ a.plan)
    (hn : a.nodes[i]? = some n) (hproducers : ∀ p ∈ n.producers, a.Tells value p) :
    (n.producers.filter fun p => (a.outputAxis p).isSome).length ≤ 1 := by
  have hcount {α : Type} (xs : List α) (f : α → Option Nat) :
      (xs.filter fun y => (f y).isSome).length = ((xs.map f).filter Option.isSome).length := by
    rw [List.filter_map, List.length_map]
    rfl
  rw [hcount, axes_eq hw hn hi hproducers, ← hcount]
  exact h.single i hi

section

include hlib hstable hvalue hsums

theorem delivers {i : Nat} {n : Node} (hi : i ∈ a.plan) (hn : a.nodes[i]? = some n)
    (hop : n.op.isPlaceholder = false) (hproducers : ∀ p ∈ n.producers, a.Tells value p) :
    ∃ y out, a.outputFact i = .ok y ∧ n.op.Delivers (n.producers.map (a.port value)) out (value i) ∧
      ∀ e ∈ a.edgesFrom i, e.fact.shape.Refines out.shape ∧ y.shape.Refines e.fact.shape := by
  obtain ⟨m, ins, y, out, hm, hy, href, hedges⟩ := (hstable i hi).inferred hw.toLinked
  cases hn.symm.trans hm
  have hknown := known_inputs hw hn hi hproducers
  refine ⟨y, out, hy, ?_, hedges⟩
  have heval : n.op.eval ((n.producers.map (a.port value)).map Port.tensor) = .ok (value i) := by
    have hat := hvalue i hi n hn
    rw [hop, if_neg Bool.false_ne_true] at hat
    rw [List.map_map]
    exact hat
  refine Operator.delivers (hlib n (List.mem_of_getElem? hn)) (List.forall₂_map_right_iff.2 hknown) href heval
    ?_ (fun sums strideH strideW data filter hconv hports => ?_) ?_
  · rw [List.filter_map, List.length_map]
    exact h.length_streamed_le hw hi hn hproducers
  · rw [hports] at hknown
    cases hcase : a.edgesInto i with
    | nil => rw [hcase] at hknown; cases hknown
    | cons d es =>
      rw [hcase] at hknown
      obtain ⟨hd, hrest⟩ := List.forall₂_cons.1 hknown
      obtain ⟨k, rfl⟩ : ∃ k, es = [k] := by
        rcases hrest with _ | ⟨_, _ | _⟩
        exact ⟨_, rfl⟩
      have hk := (List.forall₂_cons.1 hrest).1
      obtain ⟨hwhole, hwindow⟩ := h.filters i hi n sums strideH strideW d k hn hconv hcase
      have hnone := hk.axis_eq.symm.trans hwhole
      refine ⟨hnone, fun j hj hzero => hwindow j (hd.axis_eq.trans hj) ?_⟩
      rw [hk.shape, hnone]
      show (filter.tensor.shape.map DimFact.known)[j]? = _
      rw [List.getElem?_map, hzero]
      rfl
  · exact hsums i hi n hn

end

section

include hvalue

/-- The inputs of the model at planned nodes: the streamed one, and the given ones. -/
theorem placeholder_cases {i : Nat} {n : Node} (hi : i ∈ a.plan) (hn : a.nodes[i]? = some n)
    (hop : n.op.isPlaceholder = true) :
    (i = x.id.toNat ∧ n = x ∧ value i = t) ∨
      ∃ f, n.id ≠ x.id ∧ inputs.find? n.name = some (value i) ∧ a.outputFact i = .ok f ∧
        f.shape.streamedAxis? = none ∧ f.shape.Admits (value i).shape := by
  have hat := hvalue i hi n hn
  rw [if_pos hop] at hat
  by_cases hid : n.id = x.id
  · obtain ⟨rfl, rfl⟩ := (h.source hw).2 i n hn hid
    rw [fed_source hn] at hat
    exact .inl ⟨rfl, rfl, (Except.ok.inj hat).symm⟩
  · obtain ⟨f, v, hf, hstatic, hv, hadmits⟩ := h.given i hi n hn hop hid
    rw [fed_given hn hid hv] at hat
    cases hat
    exact .inr ⟨f, hid, hv, hf, hstatic, hadmits⟩

/-- Apart from the streamed input, a streamed node computes something. -/
theorem isPlaceholder_eq_false {i : Nat} {n : Node} (hi : i ∈ a.plan) (hix : i ≠ x.id.toNat)
    (hn : a.nodes[i]? = some n) {k : Nat} (hk : a.outputAxis i = some k) : n.op.isPlaceholder = false := by
  by_contra hop
  rcases h.placeholder_cases hw hvalue hi hn (by simpa using hop) with ⟨rfl, -, -⟩ | ⟨f, -, -, hf, hstatic, -⟩
  · exact hix rfl
  · rw [outputAxis, hf] at hk
    cases hstatic.symm.trans hk

end

section

include hstable

/-- The edges from an input of the model that is not streamed tell its shape. -/
theorem tells_given {i : Nat} {f : TensorFact} (hi : i ∈ a.plan) (hf : a.outputFact i = .ok f)
    (hstatic : f.shape.streamedAxis? = none) (hadmits : f.shape.Admits (value i).shape) : a.Tells value i := by
  intro e he j hj ht
  obtain ⟨n, ins, y, out, -, hy, -, hedges⟩ := (hstable i hi).inferred hw.toLinked
  cases hf.symm.trans hy
  have hle := (hedges e he).2
  obtain ⟨extents, hextents⟩ := h.whole j hj e (mem_edgesInto.2 ⟨(mem_edgesFrom.1 he).1, ht⟩)
    (hle.streamedAxis?_eq_none hstatic)
  rw [hextents] at hle
  have hshape : (value i).shape = extents := by
    have hadmits := ShapeFact.admits_iff_refines.1 hadmits
    rw [hle.eq_ofExtents] at hadmits
    have heq := congrArg ShapeFact.dims hadmits.eq_ofExtents
    exact List.map_injective_iff.2 (fun m n hmn => DimFact.known.inj hmn) heq
  have hnone : a.outputAxis i = none := by
    rw [outputAxis, hf]
    exact hstatic
  refine ⟨?_, fun k hk => ?_⟩
  · rw [port, hnone, hshape, hextents]
    rfl
  · cases hnone.symm.trans hk

include hfact haxis

/-- The edges out of the streamed input tell the shape of what is streamed. -/
theorem source_cases (hx : x.id.toNat ∈ a.plan) :
    (∀ e ∈ a.edgesFrom x.id.toNat, e.fact.shape = along t.shape (some axis)) ∧
      (a.edgesFrom x.id.toNat = [] ∧ a.outputAxis x.id.toNat = none ∨
        a.edgesFrom x.id.toNat ≠ [] ∧ a.outputAxis x.id.toNat = some axis) := by
  obtain ⟨n, ins, y, out, hn, hy, href, hedges⟩ := (hstable _ hx).inferred hw.toLinked
  cases (h.source hw).1.symm.trans hn
  rw [h.declared] at href
  obtain ⟨-, rfl⟩ := Operator.refine_placeholder href
  exact outputAxis_cases hy hw.toLinked (hw.lt _ hx) hedges hfact fun k hk => Option.some.inj hk ▸ haxis

end

section

include hlib hstable hfact haxis hvalue hsums hsums

/-- **The edges of the plan tell the shapes of what flows along them.** -/
theorem tells : ∀ i ∈ a.plan, a.Tells value i := by
  refine hw.ordered.induction (fun i hi => nomatch hi) fun i hi ih => ?_
  obtain ⟨n, hn⟩ := hw.exists_node hi
  have hproducers : ∀ p ∈ n.producers, a.Tells value p := fun p hp => ih p (Plan.mem_producersAt_of_node hn hp)
  cases hop : n.op.isPlaceholder with
  | false =>
    obtain ⟨y, out, hy, hdelivers, hedges⟩ := h.delivers hw hlib hstable hvalue hsums hi hn hop hproducers
    obtain ⟨axis', hout, hlt⟩ := hdelivers.shape_eq
    obtain ⟨hall, hcase⟩ := outputAxis_cases hy hw.toLinked (hw.lt i hi) hedges hout hlt
    exact tells_of_axis hall hcase hlt
  | true =>
    rcases h.placeholder_cases hw hvalue hi hn hop with ⟨rfl, rfl, ht⟩ | ⟨f, -, -, hf, hstatic, hadmits⟩
    · obtain ⟨hall, hcase⟩ := h.source_cases hw hstable hfact haxis hi
      rw [← ht] at hall haxis
      exact tells_of_axis hall hcase fun k hk => Option.some.inj hk ▸ haxis
    · exact h.tells_given hw hstable hi hf hstatic hadmits

/-- A streamed node that computes something keeps pace with a streamed producer. -/
theorem exists_pace {i : Nat} {n : Node} (hi : i ∈ a.plan) (hn : a.nodes[i]? = some n)
    (hop : n.op.isPlaceholder = false) {k : Nat} (hk : a.outputAxis i = some k) :
    k < (value i).rank ∧ ∃ p ∈ n.producers, ∃ l rate st, a.outputAxis p = some l ∧
      Pace n.op (n.producers.map (a.port value)) (value i) k ((value p).extent l) rate st := by
  have hproducers : ∀ p ∈ n.producers, a.Tells value p := fun p hp =>
    h.tells hw hlib hstable hfact haxis hvalue hsums p (hw.ordered.idxOf_lt hi (Plan.mem_producersAt_of_node hn hp)).1
  obtain ⟨y, out, hy, hdelivers, hedges⟩ := h.delivers hw hlib hstable hvalue hsums hi hn hop hproducers
  rcases hdelivers with ⟨-, hout⟩ | ⟨p, hp, l, k', hl, hk', hout, rate, st, hpace⟩
  · obtain ⟨-, ⟨-, hnone⟩ | ⟨-, hnone⟩⟩ :=
      outputAxis_cases hy hw.toLinked (hw.lt i hi) hedges hout fun k hk => absurd hk.symm (Option.some_ne_none k)
    · cases hnone.symm.trans hk
    · cases hnone.symm.trans hk
  · obtain ⟨-, ⟨-, hnone⟩ | ⟨-, hsome⟩⟩ :=
      outputAxis_cases hy hw.toLinked (hw.lt i hi) hedges hout fun k hk => Option.some.inj hk ▸ hk'
    · cases hnone.symm.trans hk
    · cases hsome.symm.trans hk
      obtain ⟨q, hq, rfl⟩ := List.mem_map.1 hp
      exact ⟨hk', q, hq, l, rate, st, hl, hpace⟩

/-- What is streamed comes from the streamed input. -/
theorem source_of_streamed : ∀ i ∈ a.plan, a.outputAxis i ≠ none →
    x.id.toNat ∈ a.plan ∧ a.outputAxis x.id.toNat = some axis := by
  refine hw.ordered.induction (fun i hi => nomatch hi) fun i hi ih hne => ?_
  obtain ⟨n, hn⟩ := hw.exists_node hi
  cases hop : n.op.isPlaceholder with
  | false =>
    obtain ⟨k, hk⟩ := Option.ne_none_iff_exists'.1 hne
    obtain ⟨-, p, hp, l, rate, st, hl, -⟩ := h.exists_pace hw hlib hstable hfact haxis hvalue hsums hi hn hop hk
    exact ih p (Plan.mem_producersAt_of_node hn hp) (by rw [hl]; exact Option.some_ne_none l)
  | true =>
    rcases h.placeholder_cases hw hvalue hi hn hop with ⟨rfl, rfl, -⟩ | ⟨f, -, -, hf, hstatic, -⟩
    · obtain ⟨-, hcase⟩ := h.source_cases hw hstable hfact haxis hi
      exact ⟨hi, (hcase.resolve_left fun hnil => hne hnil.2).2⟩
    · rw [outputAxis, hf] at hne
      exact absurd hstatic hne

end

end Streamable

end Analysis

end EdgeFacts
