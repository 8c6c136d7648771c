/-
# Soundness of the analysis

A concrete execution gives each node of a set a tensor: what its operator
computes from the tensors of its producers, or, for an input of the model, a
tensor that its declared fact admits (`Execution`). No inference excludes an
execution: from facts that admit it a visit infers facts that admit it, and no
visit of a node fails (`Analysis.exists_inferred`). So whatever hints that suit
the execution are given and however far the analysis runs, every fact admits it
(`Analysis.afterAll_sound`).

Key definitions: `Operator.Computes`, `Execution`, `Analysis.AdmitsOn`.
Key theorems: `Operator.refine_admits`, `Analysis.exists_inferred`,
`Analysis.afterAll_sound`.
-/
import EdgeFacts.Proofs.Action
import EdgeFacts.Proofs.Admits
import EdgeFacts.Proofs.Precision

namespace EdgeFacts

/-! ### Operators -/

namespace TensorFact

theorem meet_admits {f g : TensorFact} {t : Tensor} (hf : f.Admits t) (hg : g.Admits t) :
    ∃ h, f.meet g = .ok h ∧ h.Admits t := by
  obtain ⟨h, hm, ht⟩ := isMeet.greatest (admits_iff_refines.1 hf) (admits_iff_refines.1 hg)
  exact ⟨h, hm, admits_iff_refines.2 ht⟩

theorem meetAll_admits {fs : List TensorFact} {t : Tensor} (h : ∀ f ∈ fs, f.Admits t) :
    ∃ g, meetAll .unknown fs = .ok g ∧ g.Admits t := by
  obtain ⟨g, hg, ht⟩ := meetAll_greatest (refines_unknown (ofTensor t))
    fun f hf => admits_iff_refines.1 (h f hf)
  exact ⟨g, hg, admits_iff_refines.2 ht⟩

end TensorFact

namespace Operator

/-- Whether a tensor is what an operator computes from some inputs; an input of
the model may be any tensor that its declared fact admits. -/
def Computes (op : Operator) (inputs : List Tensor) (t : Tensor) : Prop :=
  match op with
  | placeholder fact => fact.Admits t
  | op => ∃ u, op.eval inputs = .ok u ∧ u.same t = true

theorem Computes.eval {op : Operator} {ts : List Tensor} {t : Tensor} (h : op.Computes ts t)
    (hop : op.isPlaceholder = false) : ∃ u, op.eval ts = .ok u ∧ u.same t = true := by
  cases op with
  | placeholder fact => cases hop
  | _ => exact h

theorem placeholder_of_isPlaceholder {op : Operator} (h : op.isPlaceholder = true) :
    ∃ fact, op = placeholder fact := by
  cases op with
  | placeholder fact => exact ⟨fact, rfl⟩
  | _ => cases h

theorem const_of_isConst {op : Operator} (h : op.isConst = true) : ∃ t, op = const t := by
  cases op with
  | const t => exact ⟨t, rfl⟩
  | _ => cases h

theorem isPlaceholder_of_isStateless {op : Operator} (h : op.isStateless = true) : op.isPlaceholder = false := by
  cases op with
  | placeholder fact => cases h
  | _ => rfl

/-- **Inference is sound.** From facts that admit its inputs and what it computes
from them, an operator of the library infers facts that admit them. -/
theorem refine_admits {op : Operator} (hop : op.IsLibrary) {fs : List TensorFact} {f : TensorFact}
    {ts : List Tensor} {t : Tensor} (hc : op.Computes ts t) (ht : op.HasOneType ts)
    (harity : op.isPlaceholder = true → ts = [])
    (hfs : List.Forall₂ TensorFact.Admits fs ts) (hf : f.Admits t) :
    ∃ ins out, op.refine fs f = .ok (ins, some out) ∧
      List.Forall₂ TensorFact.Admits ins ts ∧ out.Admits t := by
  by_cases hph : op.isPlaceholder = true
  · obtain ⟨fact, rfl⟩ := placeholder_of_isPlaceholder hph
    obtain rfl := harity hph
    cases hfs
    exact ⟨[], fact, rfl, .nil, hc⟩
  · obtain ⟨u, hu, hut⟩ := hc.eval (by simpa using hph)
    obtain ⟨r, hr, hrt⟩ := refine_ofTensor hop hu hut ht
    have hle : List.Forall₂ TensorFact.Refines (ts.map .ofTensor) fs := by
      rw [List.forall₂_map_left_iff]
      exact hfs.flip.imp fun _ _ h => TensorFact.admits_iff_refines.1 h
    obtain ⟨⟨ins, out⟩, hs, hins, g, out', hg, rfl, hout⟩ :=
      refine_mono hop hle (TensorFact.admits_iff_refines.1 hf) hr
    obtain ⟨hrins, g', h', hg', hh', hgh⟩ := hrt
    cases hg'
    cases hg.symm.trans hh'
    refine ⟨ins, out', hs, ?_, TensorFact.admits_iff_refines.2 (hgh.trans hout)⟩
    have hall : List.Forall₂ TensorFact.Refines (ts.map .ofTensor) ins :=
      (forall₂_comp hrins hins).imp fun _ _ ⟨_, h, k⟩ => h.trans k
    rw [List.forall₂_map_left_iff] at hall
    exact hall.flip.imp fun _ _ h => TensorFact.admits_iff_refines.2 h

end Operator

/-- A concrete execution of some nodes: each has a tensor, which its operator
computes from those of its producers; the operands of an addition and of a
convolution have one element type. -/
structure Execution (nodes : List Node) (ran : Nat → Prop) (value : Nat → Tensor) : Prop where
  computes : ∀ (i : Nat) (n : Node), nodes[i]? = some n → ran i →
    n.op.Computes (n.producers.map value) (value i)
  oneType : ∀ (i : Nat) (n : Node), nodes[i]? = some n → ran i →
    n.op.HasOneType (n.producers.map value)

namespace Analysis

/-! ### Visits -/

/-- Whether the facts on all edges out of some nodes admit the tensors of these nodes. -/
def AdmitsOn (a : Analysis) (ran : Nat → Prop) (value : Nat → Tensor) : Prop :=
  ∀ e ∈ a.edges, ∀ i, e.source = some i → ran i → e.fact.Admits (value i)

/-- Whether a fact for an edge admits the tensor of the node that the edge leaves. -/
def Suits (a : Analysis) (ran : Nat → Prop) (value : Nat → Tensor) (f : TensorFact) (j : Nat) : Prop :=
  ∃ e i, a.edges[j]? = some e ∧ e.source = some i ∧ ran i ∧ f.Admits (value i)

/-- An analysis of which an execution of the planned nodes is known, with facts
that admit it. -/
structure Sound (value : Nat → Tensor) (a : Analysis) : Prop where
  library : OfLibrary a
  execution : Execution a.nodes (· ∈ a.plan) value
  admits : a.AdmitsOn (· ∈ a.plan) value

theorem factsOf_edges {a : Analysis} (h : Linked a) {es : List Edge} (hes : ∀ e ∈ es, e ∈ a.edges) :
    a.factsOf (es.map Edge.id) = .ok (es.map Edge.fact) := by
  rw [factsOf_eq_ok_iff, List.forall₂_map_left_iff, List.forall₂_map_right_iff]
  exact List.forall₂_same.2 fun e he => factOf_of_getElem? (h.getElem?_id (hes e he))

section

variable {a : Analysis} {value : Nat → Tensor} {i : Nat} {n : Node} (hw : WellFormed a)
include hw

theorem WellFormed.inputs_origin (hn : a.nodes[i]? = some n) (hi : i ∈ a.plan) :
    List.Forall₂ (fun e x => e ∈ a.edgesInto i ∧ e.source = some x.producer.toNat ∧
      x.producer.toNat ∈ a.plan) (a.edgesInto i) n.inputs := by
  have horigin : (a.edgesInto i).map Edge.origin = n.inputs.map Input.origin := hw.inputs i n hn
  have hlen : (a.edgesInto i).length = n.inputs.length := by simpa using congrArg List.length horigin
  refine List.forall₂_iff_get.2 ⟨hlen, fun k hk hk' => ?_⟩
  have hk₁ := congrArg (fun l => l[k]?) horigin
  simp only [List.getElem?_map, List.getElem?_eq_getElem hk, List.getElem?_eq_getElem hk',
    Option.map_some, Option.some.injEq, Edge.origin, Input.origin, Prod.mk.injEq] at hk₁
  have hmem : n.inputs[k].producer.toNat ∈ Plan.producersAt a.nodes i :=
    Plan.mem_producersAt.2 ⟨n, hn, _, List.getElem_mem hk', rfl⟩
  exact ⟨List.getElem_mem hk, hk₁.1, (hw.ordered.idxOf_lt hi hmem).1⟩

/-- What admits the tensor of a node suits the edges out of it. -/
theorem WellFormed.outputs_suit (hi : i ∈ a.plan) {out : TensorFact} (hout : out.Admits (value i)) :
    ∀ x ∈ (((a.edgesFrom i).map Edge.id).map fun _ => out).zip ((a.edgesFrom i).map Edge.id),
      a.Suits (· ∈ a.plan) value x.1 x.2 := by
  intro x hx
  obtain ⟨hf, hj⟩ := List.of_mem_zip hx
  obtain ⟨_, -, hf⟩ := List.mem_map.1 hf
  obtain ⟨e, he, hj⟩ := List.mem_map.1 hj
  obtain ⟨he, hs⟩ := mem_edgesFrom.1 he
  exact ⟨e, i, hj ▸ hw.getElem?_id he, hs, hi, hf ▸ hout⟩

/-- What admits the tensors of a node and of its producers suits the edges around it. -/
theorem WellFormed.pairs_suit (hn : a.nodes[i]? = some n) (hi : i ∈ a.plan) {ins : List TensorFact}
    {out : TensorFact} (hins : List.Forall₂ TensorFact.Admits ins (n.producers.map value))
    (hout : out.Admits (value i)) :
    ∀ x ∈ (ins ++ ((a.edgesFrom i).map Edge.id).map fun _ => out).zip
        ((a.edgesInto i).map Edge.id ++ (a.edgesFrom i).map Edge.id),
      a.Suits (· ∈ a.plan) value x.1 x.2 := by
  have horigin := hw.inputs_origin hn hi
  have hlen : ins.length = ((a.edgesInto i).map Edge.id).length := by
    simpa [Node.producers] using hins.length_eq.trans (by simp [Node.producers, horigin.length_eq])
  intro x hx
  rw [List.zip_append hlen, List.mem_append] at hx
  rcases hx with hx | hx
  · rw [Node.producers, List.map_map, List.forall₂_map_right_iff] at hins
    have hboth : List.Forall₂ (fun f e => a.Suits (· ∈ a.plan) value f e.id) ins (a.edgesInto i) := by
      refine (forall₂_comp hins horigin.flip).imp fun f e h => ?_
      obtain ⟨x, hf, he, hs, hp⟩ := h
      exact ⟨e, _, hw.getElem?_id (mem_edgesInto.1 he).1, hs, hp, hf⟩
    rw [← List.forall₂_map_right_iff (f := Edge.id) (R := a.Suits (· ∈ a.plan) value)] at hboth
    exact (List.forall₂_iff_zip.1 hboth).2 hx
  · exact hw.outputs_suit hi hout x hx

end

namespace Sound

variable {a : Analysis} {value : Nat → Tensor} (h : Sound value a) {i : Nat} {n : Node}
include h

theorem inputs_admit (hw : WellFormed a) (hn : a.nodes[i]? = some n) (hi : i ∈ a.plan) :
    List.Forall₂ TensorFact.Admits ((a.edgesInto i).map Edge.fact) (n.producers.map value) := by
  rw [Node.producers, List.map_map, List.forall₂_map_left_iff, List.forall₂_map_right_iff]
  refine (hw.inputs_origin hn hi).imp fun e x horigin => ?_
  obtain ⟨he, hs, hp⟩ := horigin
  exact h.admits e (mem_edgesInto.1 he).1 _ hs hp

theorem outputs_admit (hi : i ∈ a.plan) :
    ∀ f ∈ (a.edgesFrom i).map Edge.fact, f.Admits (value i) := by
  intro f hf
  obtain ⟨e, he, rfl⟩ := List.mem_map.1 hf
  obtain ⟨he, hs⟩ := mem_edgesFrom.1 he
  exact h.admits e he i hs hi

theorem exists_combined : ∀ {xs : List (TensorFact × Nat)},
    (∀ x ∈ xs, a.Suits (· ∈ a.plan) value x.1 x.2) → ∃ r, List.Forall₂ (Combined a) xs r
  | [], _ => ⟨[], .nil⟩
  | x :: xs, hx => by
    obtain ⟨r, hr⟩ := exists_combined fun y hy => hx y (.tail _ hy)
    obtain ⟨e, s, he, hs, hp, hf⟩ := hx x (.head _)
    obtain ⟨g, hg, -⟩ := TensorFact.meet_admits hf (h.admits e (List.mem_of_getElem? he) s hs hp)
    exact ⟨(x.2, g) :: r, .cons ⟨rfl, e.fact, factOf_of_getElem? he, hg⟩ hr⟩

theorem combined_suit : ∀ {xs : List (TensorFact × Nat)} {r : List (Nat × TensorFact)},
    List.Forall₂ (Combined a) xs r → (∀ x ∈ xs, a.Suits (· ∈ a.plan) value x.1 x.2) →
    ∀ p ∈ r, a.Suits (· ∈ a.plan) value p.2 p.1
  | _, _, .nil, _, _, hp => by cases hp
  | x :: xs, p :: r, .cons hxp hr, hx, q, hq => by
    rcases List.mem_cons.1 hq with rfl | hq
    · obtain ⟨hkey, g, hg, hm⟩ := hxp
      obtain ⟨e, s, he, hs, hp, hf⟩ := hx x (.head _)
      obtain ⟨m, hm', ha⟩ := TensorFact.meet_admits hf (h.admits e (List.mem_of_getElem? he) s hs hp)
      rw [factOf_of_getElem? he] at hg
      cases hg
      cases hm.symm.trans hm'
      exact ⟨e, s, hkey ▸ he, hs, hp, ha⟩
    · exact combined_suit hr (fun y hy => hx y (.tail _ hy)) q hq

/-- What a node infers suits the edges that it is for. -/
theorem inferred_suit (hw : WellFormed a) (hn : a.nodes[i]? = some n) (hi : i ∈ a.plan) {r : List (Nat × TensorFact)}
    (hr : a.inferred n = .ok r) : ∀ p ∈ r, a.Suits (· ∈ a.plan) value p.2 p.1 := by
  obtain ⟨s⟩ := inferred_eq_ok_iff.1 hr
  have hid : n.id.toNat = i := by rw [hw.ids i n hn]; rfl
  have hlt := hw.lt i hi
  have hbefore : s.before = (a.edgesInto i).map Edge.id :=
    Option.some.inj ((hid ▸ s.incoming_eq).symm.trans (hw.incoming_getElem? hlt))
  have hafter : s.after = (a.edgesFrom i).map Edge.id :=
    Option.some.inj ((hid ▸ s.outgoing_eq).symm.trans (hw.outgoing_getElem? hlt))
  have hinputs : s.inputs = (a.edgesInto i).map Edge.fact := by
    have hi := s.inputs_eq
    rw [hbefore, factsOf_edges hw.toLinked fun e he => (mem_edgesInto.1 he).1] at hi
    exact (Except.ok.inj hi).symm
  have houtputs : s.outputs = (a.edgesFrom i).map Edge.fact := by
    have ho := s.outputs_eq
    rw [hafter, factsOf_edges hw.toLinked fun e he => (mem_edgesFrom.1 he).1] at ho
    exact (Except.ok.inj ho).symm
  have hadmit := hinputs ▸ h.inputs_admit hw hn hi
  obtain ⟨output, hmeet, hout⟩ := TensorFact.meetAll_admits (h.outputs_admit hi)
  have houtput : s.output = output := by
    have hm := s.output_eq
    rw [houtputs, hmeet] at hm
    exact (Except.ok.inj hm).symm
  have harity : n.op.isPlaceholder = true → n.producers.map value = [] := by
    intro hph
    obtain ⟨fact, hfact⟩ := Operator.placeholder_of_isPlaceholder hph
    have href := s.refine_eq
    rw [hfact] at href
    cases hs : s.inputs with
    | nil =>
      have hlen := hadmit.length_eq
      rw [hs] at hlen
      exact List.eq_nil_of_length_eq_zero hlen.symm
    | cons x xs =>
      rw [hs] at href
      cases href
  obtain ⟨ins, out, href, hins, hnew⟩ := Operator.refine_admits
    (h.library n (List.mem_of_getElem? hn)) (h.execution.computes i n hn hi)
    (h.execution.oneType i n hn hi) harity hadmit (houtput ▸ hout)
  have heq := s.refine_eq.symm.trans href
  simp only [Except.ok.injEq, Prod.mk.injEq, Option.some.injEq] at heq
  have hcombined := s.combined
  rw [heq.1, heq.2, hbefore, hafter] at hcombined
  exact h.combined_suit hcombined (hw.pairs_suit hn hi hins hnew)

theorem commit {r : List (Nat × TensorFact)}
    (hr : ∀ p ∈ r, ∀ e, a.edges[p.1]? = some e → ∀ i, e.source = some i → i ∈ a.plan →
      p.2.Admits (value i)) : Sound value (a.commit r).2 := by
  refine ⟨h.library, h.execution, fun e he i hs hi => ?_⟩
  obtain ⟨j, hj⟩ := List.mem_iff_getElem?.1 he
  have key : ∀ (j : Nat) (e : Edge), (commitEdges a.edges r).2[j]? = some e →
      (∃ d, a.edges[j]? = some d ∧ e.source = d.source) ∧
        ∀ i, e.source = some i → i ∈ a.plan → e.fact.Admits (value i) := by
    refine commitEdges_induction (fun j e he => ⟨⟨e, he, rfl⟩, ?_⟩) fun p hp e he => ⟨he.1, ?_⟩
    · exact fun i hs hi => h.admits e (List.mem_of_getElem? he) i hs hi
    · intro i hs hi
      obtain ⟨d, hd, hes⟩ := he.1
      exact hr p hp d hd i (hes ▸ hs) hi
  exact (key j e hj).2 i hs hi

omit h in
theorem admits_of_suits {r : List (Nat × TensorFact)}
    (hr : ∀ p ∈ r, a.Suits (· ∈ a.plan) value p.2 p.1) : ∀ p ∈ r, ∀ e, a.edges[p.1]? = some e →
      ∀ i, e.source = some i → i ∈ a.plan → p.2.Admits (value i) := by
  intro p hp e he i hs _
  obtain ⟨d, k, hd, hk, -, hf⟩ := hr p hp
  cases he.symm.trans hd
  cases hs.symm.trans hk
  exact hf

theorem visit (hw : WellFormed a) {a' : Analysis} {changed : Bool} (hi : i ∈ a.plan)
    (hv : a.visit i = .ok (changed, a')) :
    Sound value a' := by
  obtain ⟨n, r, hn, hr, hc⟩ := visit_eq_ok_iff.1 hv
  have hsound := h.commit (admits_of_suits (h.inferred_suit hw hn hi hr))
  rwa [hc] at hsound

/-- **No inference fails** on facts that admit an execution, if the edges leave
their nodes at one port and inputs of the model have no inputs themselves. -/
theorem exists_inferred (hw : WellFormed a) (hports : ∀ e ∈ a.edges, e.port = 0) (hn : a.nodes[i]? = some n)
    (hi : i ∈ a.plan) (harity : n.op.isPlaceholder = true → n.inputs = []) :
    ∃ r, a.inferred n = .ok r := by
  have hid : n.id.toNat = i := by rw [hw.ids i n hn]; rfl
  have hlt := hw.lt i hi
  have honePort : a.haveOnePort ((a.edgesFrom i).map Edge.id) = .ok true := by
    refine haveOnePort_eq_ok_iff.2 ⟨a.edgesFrom i, ?_, ?_⟩
    · rw [List.forall₂_map_left_iff]
      exact List.forall₂_same.2 fun e he => hw.getElem?_id (mem_edgesFrom.1 he).1
    · have hzero : ∀ p ∈ (a.edgesFrom i).map Edge.port, p = 0 := by
        intro p hp
        obtain ⟨e, he, rfl⟩ := List.mem_map.1 hp
        exact hports e (mem_edgesFrom.1 he).1
      cases hp : (a.edgesFrom i).map Edge.port with
      | nil => rfl
      | cons p ps =>
        rw [hp] at hzero
        simp only [eq_comm (a := true), List.all_eq_true, decide_eq_true_eq]
        exact fun q hq => (hzero q (.tail _ hq)).trans (hzero p (.head _)).symm
  have hadmit := h.inputs_admit hw hn hi
  obtain ⟨output, hmeet, hout⟩ := TensorFact.meetAll_admits (h.outputs_admit hi)
  obtain ⟨ins, out, href, hins, hnew⟩ := Operator.refine_admits
    (h.library n (List.mem_of_getElem? hn)) (h.execution.computes i n hn hi)
    (h.execution.oneType i n hn hi)
    (fun hph => by rw [Node.producers, harity hph]; rfl) hadmit hout
  have hsuit := hw.pairs_suit hn hi hins hnew
  obtain ⟨r, hr⟩ := h.exists_combined hsuit
  have hlen : ins.length = ((a.edgesInto i).map Edge.id).length := by
    have := hins.length_eq.trans hadmit.length_eq.symm
    simpa using this
  exact ⟨r, inferred_eq_ok_iff.2 ⟨⟨_, _, _, _, output, ins, out,
    hid.symm ▸ hw.incoming_getElem? hlt, hid.symm ▸ hw.outgoing_getElem? hlt, honePort,
    factsOf_edges hw.toLinked fun e he => (mem_edgesInto.1 he).1,
    factsOf_edges hw.toLinked fun e he => (mem_edgesFrom.1 he).1, hmeet, href, hlen, hr⟩⟩⟩

end Sound

theorem runInvariant_sound (value : Nat → Tensor) : RunInvariant (Sound value) where
  movedTo _ _ _ h := ⟨h.library, h.execution, h.admits⟩
  visit hw h hi hv := h.visit hw hi hv

/-! ### Actions -/

/-- Whether nothing but facts can stop a visit: all edges leave their nodes at the
first port, and the inputs of the model among the planned nodes have no inputs. -/
structure Runnable (a : Analysis) : Prop where
  ports : ∀ e ∈ a.edges, e.port = 0
  arity : ∀ i ∈ a.plan, ∀ n, a.nodes[i]? = some n → n.op.isPlaceholder = true → n.inputs = []

theorem SameGraph.runnable {a b : Analysis} (h : SameGraph a b) (hb : Runnable b) : Runnable a where
  ports e he := by
    obtain ⟨j, hj⟩ := List.mem_iff_getElem?.1 he
    obtain ⟨d, hd, hed⟩ := h.exists_edge hj
    rw [(Edge.ends_eq_iff.1 hed).2.2.1]
    exact hb.ports d (List.mem_of_getElem? hd)
  arity i hi n hn := hb.arity i (h.plan ▸ hi) n (h.nodes ▸ hn)

theorem runInvariant_runnable : RunInvariant Runnable where
  movedTo p s f h := (movedTo_sameGraph _ p s f).runnable h
  visit _ h _ hv := (visit_refines hv).toSameGraph.runnable h

theorem Sound.exists_visit {a : Analysis} {value : Nat → Tensor} {i : Nat} (hw : WellFormed a)
    (h : Sound value a ∧ Runnable a) (hi : i ∈ a.plan) :
    ∃ changed a', a.visit i = .ok (changed, a') := by
  have hn := List.getElem?_eq_getElem (hw.lt i hi)
  obtain ⟨r, hr⟩ := h.1.exists_inferred hw h.2.ports hn hi (h.2.arity i hi _ hn)
  exact ⟨_, _, visit_eq_ok_iff.2 ⟨_, r, hn, hr, rfl⟩⟩

theorem Sound.exists_hint {a : Analysis} {value : Nat → Tensor} {i : Nat} {f : TensorFact}
    (hw : WellFormed a) (h : Sound value a) (hi : i ∈ a.plan) (hf : f.Admits (value i)) :
    ∃ b, a.hint i f = .ok b ∧ Sound value b ∧ SameGraph b a ∧ b.stepIndex = a.stepIndex := by
  have hlt := hw.lt i hi
  have hindex : a.nodeIndex i = .ok i := by
    simp only [nodeIndex]
    rw [if_pos ⟨Int.natCast_nonneg i, by omega⟩]
    rfl
  have hsuit := hw.outputs_suit hi hf
  obtain ⟨r, hr⟩ := h.exists_combined hsuit
  exact ⟨_, hint_eq_ok_iff.2 ⟨i, _, r, hindex, hw.outgoing_getElem? hlt, hr, rfl⟩,
    h.commit (Sound.admits_of_suits (h.combined_suit hr hsuit)), commit_sameGraph a r, rfl⟩

end Analysis

/-- Whether an action only adds to what is known, and only what suits an execution. -/
def Action.Suits (nodes : List Node) (ran : Nat → Prop) (value : Nat → Tensor) : Action → Prop
  | hint node fact => ∃ i : Nat, node = i ∧ ran i ∧ fact.Admits (value i)
  | hintByName name fact =>
    ∃ n, nodes.find? (·.name = name) = some n ∧ ∃ i : Nat, n.id = i ∧ ran i ∧ fact.Admits (value i)
  | step | round | run => True
  | foldNode _ _ | foldConstants | resetPlan | prune => False

namespace Analysis

/-- What is known of an analysis of which an execution is known, while it runs. -/
structure Running (value : Nat → Tensor) (a : Analysis) : Prop extends WellFormed a, Sound value a,
  Runnable a

theorem Running.of_run {value : Nat → Tensor} {a : Analysis}
    (h : WellFormed a ∧ Sound value a ∧ Runnable a) : Running value a :=
  { h.1, h.2.1, h.2.2 with }

theorem Running.hint {value : Nat → Tensor} {a : Analysis} (h : Running value a) {i : Nat} {f : TensorFact}
    (hi : i ∈ a.plan) (hf : f.Admits (value i)) :
    ∃ b, a.hint i f = .ok b ∧ Running value b ∧ SameGraph b a := by
  obtain ⟨b, hb, hs, hsame, hstep⟩ := h.toSound.exists_hint h.toWellFormed hi hf
  have hw : WellFormed b := hsame.wellFormed h.toWellFormed (by rw [hstep, hsame.plan]; exact h.stepIndex_lt)
  exact ⟨b, hb, .of_run ⟨hw, hs, hsame.runnable h.toRunnable⟩, hsame⟩

/-- What holds of a running analysis and of all that comes of it by visits. -/
theorem runInvariant_running (value : Nat → Tensor) (a : Analysis) :
    RunInvariant fun b => (Sound value b ∧ Runnable b) ∧ Refines b a :=
  ((runInvariant_sound value).and runInvariant_runnable).and (runInvariant_refines a)

/-- An action that suits the execution succeeds, unless it is a run that comes to
its limit, and leaves the facts sound. -/
theorem Running.outcome {value : Nat → Tensor} {a : Analysis} (h : Running value a)
    (hlimit : a.roundLimit ≠ some 0) {x : Action} (hx : x.Suits a.nodes (· ∈ a.plan) value) :
    (Running value (a.after x) ∧ SameGraph (a.after x) a) ∧
      ((a.outcome x).1 = .ok () ∨ x = .run ∧ ∃ n, a.roundLimit = some n ∧
        (a.outcome x).1 = .error (.because (.notConverged n))) := by
  have hI := runInvariant_running value a
  have hw := h.toWellFormed
  have ha : (Sound value a ∧ Runnable a) ∧ Refines a a := ⟨⟨h.toSound, h.toRunnable⟩, .refl a⟩
  have hv : ∀ {b : Analysis} {i : Nat}, WellFormed b → (Sound value b ∧ Runnable b) ∧ Refines b a →
      i ∈ b.plan → ∃ changed b', b.visit i = .ok (changed, b') :=
    fun hwb hb hi => Sound.exists_visit hwb hb.1 hi
  have done {b : Analysis} (hb : WellFormed b ∧ (Sound value b ∧ Runnable b) ∧ Refines b a) :
      Running value b ∧ SameGraph b a :=
    ⟨.of_run ⟨hb.1, hb.2.1.1, hb.2.1.2⟩, hb.2.2.toSameGraph⟩
  cases x with
  | hint node f =>
    obtain ⟨i, rfl, hi, hf⟩ := hx
    obtain ⟨b, hb, hr, hsame⟩ := h.hint hi hf
    simp only [after, Analysis.outcome, hb, orStay]
    exact ⟨⟨hr, hsame⟩, .inl trivial⟩
  | hintByName name f =>
    obtain ⟨n, hn, i, hid, hi, hf⟩ := hx
    obtain ⟨b, hb, hr, hsame⟩ := h.hint hi hf
    simp only [after, Analysis.outcome, hintByName, hn, hid, hb, orStay]
    exact ⟨⟨hr, hsame⟩, .inl trivial⟩
  | step =>
    obtain ⟨changed, b, hb⟩ := exists_step hv hw ha
    simp only [after, Analysis.outcome, hb, orStay, Except.map]
    exact ⟨done (hI.step hw ha hb), .inl trivial⟩
  | round =>
    obtain ⟨changed, b, hb⟩ := exists_round hv hI hw ha
    have hafter := hI.round hw ha
    simp only [after, Analysis.outcome, withoutResult]
    refine ⟨done hafter, .inl ?_⟩
    rw [hb]
    rfl
  | run =>
    refine ⟨done (hI.run hw ha), ?_⟩
    simp only [Analysis.outcome]
    cases hl : a.roundLimit with
    | none =>
      obtain ⟨b, hb⟩ := exists_run hv hI hw ha h.library hl
      exact .inl (by rw [hb])
    | some n =>
      have hpos : 0 < n := Nat.pos_of_ne_zero fun h0 => hlimit (by rw [hl, h0])
      obtain ⟨b, hb | hb⟩ := run_limited hv hI hw ha hl hpos
      · exact .inl (by rw [hb])
      · exact .inr ⟨trivial, n, rfl, by rw [hb]⟩
  | foldNode node v => exact hx.elim
  | foldConstants => exact hx.elim
  | resetPlan => exact hx.elim
  | prune => exact hx.elim

theorem start_sound {model : Model} {output : Int} {limit : Option Nat} {a : Analysis}
    {value : Nat → Tensor} (hlib : ∀ n ∈ model.nodes, n.op.IsLibrary)
    (hstart : start model output limit = .ok a)
    (hex : Execution model.nodes (Plan.Required model.nodes output.toNat) value) :
    Sound value a ∧ (fun i => i ∈ a.plan) = Plan.Required model.nodes output.toNat := by
  obtain ⟨-, hplan, hfacts, hnodes, houtput, -⟩ := start_spec hstart
  have hmem : (fun i => i ∈ a.plan) = Plan.Required model.nodes output.toNat := by
    rw [← hnodes, ← houtput]
    exact funext fun i => propext (hplan.mem_iff i)
  refine ⟨⟨?_, ?_, fun e he i _ _ => ?_⟩, hmem⟩
  · rw [OfLibrary, hnodes]
    exact hlib
  · rw [hnodes, hmem]
    exact hex
  · rw [hfacts e he]
    exact TensorFact.admits_iff_refines.2 (TensorFact.refines_unknown _)

theorem start_running {model : Model} {output : Int} {limit : Option Nat} {a : Analysis}
    {value : Nat → Tensor} (hlib : ∀ n ∈ model.nodes, n.op.IsLibrary)
    (hslots : ∀ n ∈ model.nodes, ∀ x ∈ n.inputs, x.slot.getD 0 = 0)
    (hstart : start model output limit = .ok a)
    (hex : Execution model.nodes (Plan.Required model.nodes output.toNat) value)
    (harity : ∀ i n, Plan.Required model.nodes output.toNat i → model.nodes[i]? = some n →
      n.op.isPlaceholder = true → n.inputs = []) : Running value a := by
  obtain ⟨hw, -, -, hnodes, -⟩ := start_spec hstart
  obtain ⟨hsound, hmem⟩ := start_sound hlib hstart hex
  have hports : ∀ e ∈ a.edges, e.port = 0 := by
    intro e he
    rcases start_port hstart he with h0 | ⟨n, hn, x, hx, hp⟩
    · exact h0
    · exact hp.trans (hslots n hn x hx)
  refine { hw, hsound with ports := hports, arity := fun i hi n hn => ?_ }
  have hneeds : Plan.Required model.nodes output.toNat i := hmem ▸ hi
  exact harity i n hneeds (hnodes ▸ hn)

/-- **The analysis is sound.** Take a model of operators of the library, with all
inputs at the first port and none of inputs of the model, and an execution of
what its output needs. After any hints that suit the execution and any steps,
rounds and runs, all facts on edges out of needed nodes admit the execution, and
no such action fails, unless a run comes to its limit. -/
theorem afterAll_sound {model : Model} {output : Int} {limit : Option Nat} {a : Analysis}
    {value : Nat → Tensor} (hlib : ∀ n ∈ model.nodes, n.op.IsLibrary)
    (hslots : ∀ n ∈ model.nodes, ∀ x ∈ n.inputs, x.slot.getD 0 = 0)
    (hlimit : limit ≠ some 0) (hstart : start model output limit = .ok a)
    (hex : Execution model.nodes (Plan.Required model.nodes output.toNat) value)
    (harity : ∀ i n, Plan.Required model.nodes output.toNat i → model.nodes[i]? = some n →
      n.op.isPlaceholder = true → n.inputs = [])
    {xs : List Action}
    (hxs : ∀ x ∈ xs, x.Suits model.nodes (Plan.Required model.nodes output.toNat) value) :
    (a.afterAll xs).AdmitsOn (Plan.Required model.nodes output.toNat) value ∧
      ∀ x : Action, x.Suits model.nodes (Plan.Required model.nodes output.toNat) value →
        ((a.afterAll xs).outcome x).1 = .ok () ∨ x = .run ∧ ∃ n, limit = some n ∧
          ((a.afterAll xs).outcome x).1 = .error (.because (.notConverged n)) := by
  obtain ⟨-, -, -, hnodes, -, hl⟩ := start_spec hstart
  obtain ⟨-, hmem⟩ := start_sound hlib hstart hex
  have hstep : ∀ (b : Analysis) (x : Action), Running value b ∧ SameGraph b a →
      x.Suits model.nodes (Plan.Required model.nodes output.toNat) value →
      (Running value (b.after x) ∧ SameGraph (b.after x) a) ∧ ((b.outcome x).1 = .ok () ∨ x = .run ∧
        ∃ n, limit = some n ∧ (b.outcome x).1 = .error (.because (.notConverged n))) := by
    intro b x ⟨hb, hsame⟩ hx
    rw [← hmem, ← hnodes, ← hsame.plan, ← hsame.nodes] at hx
    have hbl : b.roundLimit = limit := hsame.roundLimit.trans hl
    obtain ⟨⟨hr, hrs⟩, hout⟩ := hb.outcome (hbl ▸ hlimit) hx
    exact ⟨⟨hr, hrs.trans hsame⟩, hbl ▸ hout⟩
  obtain ⟨hb, hsame⟩ : Running value (a.afterAll xs) ∧ SameGraph (a.afterAll xs) a :=
    afterAll_induction (fun b x hb hx => (hstep b x hb hx).1)
      ⟨start_running hlib hslots hstart hex harity, .refl a⟩ hxs
  refine ⟨?_, fun x hx => (hstep _ x ⟨hb, hsame⟩ hx).2⟩
  rw [← hmem, ← hsame.plan]
  exact hb.admits

/-- Two integers. -/
def integerPair (m n : Int) : Tensor := ⟨.int .w64, [2], #[.int m, .int n], rfl⟩

/-- The fact of all pairs of integers. -/
def integerPairs : TensorFact := ⟨some (.elem (.int .w64)), .closed [.known 2], none⟩

theorem integerPairs_admits (m n : Int) : integerPairs.Admits (integerPair m n) :=
  ⟨fun d hd => by cases hd; rfl, ⟨.cons rfl .nil, fun _ => rfl⟩, fun v hv => nomatch hv⟩

/-- The positive part of two integers. -/
def positivePart : Model := ⟨[
  ⟨0, "x", "Placeholder", .placeholder integerPairs, []⟩,
  ⟨1, "y", "Relu", .relu, [⟨0, none⟩]⟩]⟩

/-- The positive part of 3 and -1. -/
def positivePartValue : Nat → Tensor
  | 0 => integerPair 3 (-1)
  | _ => integerPair 3 0

theorem positivePart_library : ∀ n ∈ positivePart.nodes, n.op.IsLibrary := by
  intro n hn
  simp only [positivePart, List.mem_cons, List.not_mem_nil, or_false] at hn
  rcases hn with rfl | rfl
  · rfl
  · trivial

theorem positivePart_slots : ∀ n ∈ positivePart.nodes, ∀ x ∈ n.inputs, x.slot.getD 0 = 0 := by decide

theorem positivePart_execution (ran : Nat → Prop) :
    Execution positivePart.nodes ran positivePartValue where
  computes
    | 0, n, hn, _ => by
      cases hn
      exact integerPairs_admits 3 (-1)
    | 1, n, hn, _ => by
      cases hn
      exact ⟨(integerPair 3 (-1)).clamp, rfl, by decide +kernel⟩
    | i + 2, n, hn, _ => by simp [positivePart] at hn
  oneType
    | 0, n, hn, _ => by
      cases hn
      trivial
    | 1, n, hn, _ => by
      cases hn
      trivial
    | i + 2, n, hn, _ => by simp [positivePart] at hn

/-- After a hint and a step towards the positive part of 3 and -1 a run settles,
and the facts admit both pairs. -/
theorem positivePart_sound : ∃ a, start positivePart 1 none = .ok a ∧
    (a.afterAll [.hint 0 (.ofTensor (integerPair 3 (-1))), .step]).AdmitsOn
      (Plan.Required positivePart.nodes 1) positivePartValue ∧
    ((a.afterAll [.hint 0 (.ofTensor (integerPair 3 (-1))), .step]).outcome .run).1 = .ok () := by
  have harity : ∀ i n, Plan.Required positivePart.nodes (1 : Int).toNat i →
      positivePart.nodes[i]? = some n → n.op.isPlaceholder = true → n.inputs = [] := by
    intro i n _ hn hp
    rcases i with _ | _ | i
    · cases hn
      rfl
    · cases hn
      cases hp
    · simp [positivePart] at hn
  have hneeds : Plan.Required positivePart.nodes (1 : Int).toNat 0 := .producer .output (by decide)
  have hhint : (Action.hint 0 (.ofTensor (integerPair 3 (-1)))).Suits positivePart.nodes
      (Plan.Required positivePart.nodes (1 : Int).toNat) positivePartValue :=
    ⟨0, rfl, hneeds, TensorFact.admits_iff_refines.2 (.refl _)⟩
  have hactions : ∀ x ∈ [Action.hint 0 (.ofTensor (integerPair 3 (-1))), Action.step],
      x.Suits positivePart.nodes (Plan.Required positivePart.nodes (1 : Int).toNat) positivePartValue := by
    intro x hx
    simp only [List.mem_cons, List.not_mem_nil, or_false] at hx
    rcases hx with rfl | rfl
    · exact hhint
    · trivial
  have hstart : start positivePart 1 none = .ok _ := rfl
  obtain ⟨hadmits, hrun⟩ := afterAll_sound positivePart_library positivePart_slots (by decide) hstart
    (positivePart_execution _) harity hactions
  refine ⟨_, rfl, hadmits, ?_⟩
  rcases hrun .run trivial with h | ⟨-, n, hn, -⟩
  · exact h
  · cases hn

/-- An input of the model that has an input itself. -/
def fedInput : Model := ⟨[
  ⟨0, "x", "Placeholder", .placeholder integerPairs, []⟩,
  ⟨1, "y", "Placeholder", .placeholder integerPairs, [⟨0, none⟩]⟩]⟩

/-- With an execution at hand a run still fails on an input of the model that has
an input itself, and at a limit of one round. -/
theorem run_fails_despite_execution :
    (∃ a, start fedInput 1 none = .ok a ∧
      Execution fedInput.nodes (Plan.Required fedInput.nodes 1) (fun _ => integerPair 3 (-1)) ∧
      ∃ e, (a.outcome .run).1 = .error e) ∧
    ∃ a, start positivePart 1 (some 1) = .ok a ∧
      Execution positivePart.nodes (Plan.Required positivePart.nodes 1) positivePartValue ∧
      (a.outcome .run).1 = .error (.because (.notConverged 1)) := by
  have hex : Execution fedInput.nodes (Plan.Required fedInput.nodes 1) fun _ => integerPair 3 (-1) := by
    refine ⟨fun i n hn _ => ?_, fun i n hn _ => ?_⟩
    · rcases i with _ | _ | i
      · cases hn
        exact integerPairs_admits 3 (-1)
      · cases hn
        exact integerPairs_admits 3 (-1)
      · simp [fedInput] at hn
    · rcases i with _ | _ | i
      · cases hn
        trivial
      · cases hn
        trivial
      · simp [fedInput] at hn
  exact ⟨⟨_, rfl, hex, _, rfl⟩, _, rfl, positivePart_execution _, rfl⟩

end Analysis

end EdgeFacts
