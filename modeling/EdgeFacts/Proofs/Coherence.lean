/-
# Known values have the types and shapes that are known with them

Datatype, shape and value of a fact are met apart from each other, and nothing
checks a value against the other two. But a fact tells all about its value
(`TensorFact.Coherent`) wherever the value comes from: constants and folds bring
whole tensors in; operators compute values of known inputs, and then infer the
type and the shape of exactly what they compute (`Operator.refine_exact`); and an
identity hands its output back with all that is known of it. A meet takes its
value from one side and refines it. So whatever is called, facts stay coherent,
as long as hints are.

Key theorems: `TensorFact.Coherent.eq_ofTensor`, `Operator.refine_coherent`,
`Analysis.actionInvariant_coherent`, `Analysis.facts_coherent`.
-/
import EdgeFacts.Proofs.Consistent
import EdgeFacts.Proofs.Forward
import EdgeFacts.Proofs.Intersection

namespace EdgeFacts

namespace TensorFact

theorem Coherent.eq_ofTensor {f : TensorFact} (h : f.Coherent) {t : Tensor} (hv : f.value = some t) :
    f = .ofTensor t := by
  obtain ⟨hdtype, hshape⟩ := h t hv
  rcases f with ⟨d, s, v⟩
  cases hdtype
  cases hshape
  cases hv
  rfl

theorem eq_map_ofTensor {fs : List TensorFact} {us : List Tensor} (h : ∀ f ∈ fs, f.Coherent)
    (hus : fs.mapM TensorFact.value = some us) : fs = us.map .ofTensor := by
  rw [← List.forall₂_eq_eq_eq, List.forall₂_map_right_iff]
  refine (forall₂_congr_left fun f hf u => ⟨(h f hf).eq_ofTensor, fun hfu => ?_⟩).1 (mapM_eq_some_iff.1 hus)
  rw [hfu]
  rfl

theorem meetClosed_coherent : MeetClosed Coherent where
  unknown := coherent_ofShape none .unknown
  meet hf hg hm := hf.meet hg hm

end TensorFact

/-- What an elementwise operator hands back is the value of the output, with at
least the type and the shape that are known of the output. -/
theorem refineElementwise_coherent {op : Operator} {invertible : Bool} {x y out : TensorFact}
    {ins : List TensorFact} (hy : y.Coherent) (h : refineElementwise op invertible x y = .ok (ins, some out)) :
    ∀ f ∈ ins, f.Coherent := by
  obtain ⟨m, hm, -, -, rfl⟩ := refineElementwise_eq_ok h
  have hle : m.Refines y.withoutValue := (TensorFact.isMeet.lower hm).2
  rw [List.forall_mem_singleton]
  cases invertible with
  | false => exact TensorFact.coherent_ofShape m.dtype m.shape
  | true => exact hy.of_refines ⟨hle.dtype, hle.shape, valueRefines_refl _⟩ rfl

namespace Operator

/-- **From coherent facts an operator of the library infers coherent facts.** -/
theorem refine_coherent {op : Operator} (hop : op.IsLibrary) {fs ins : List TensorFact} {y out : TensorFact}
    (hfs : ∀ f ∈ fs, f.Coherent) (hy : y.Coherent) (h : op.refine fs y = .ok (ins, some out)) :
    (∀ f ∈ ins, f.Coherent) ∧ out.Coherent := by
  constructor
  · rcases refine_cases hop h with ⟨t, -, -, rfl, -⟩ | ⟨fact, -, -, rfl, -⟩ | ⟨x, invertible, -, -, hr⟩ |
      ⟨perm, x, -, -, hr⟩ | ⟨a, b, -, -, hr⟩ | ⟨sums, strideH, strideW, x, k, -, -, hr⟩
    · exact List.forall_mem_nil _
    · exact List.forall_mem_nil _
    · exact refineElementwise_coherent hy hr
    · obtain ⟨before, -, -, -, rfl⟩ := refineTranspose_eq_ok hr
      exact List.forall_mem_singleton.2 (TensorFact.coherent_ofShape _ _)
    · obtain ⟨d, s, -, -, -, -, -, rfl⟩ := refineAdd_eq_ok hr
      exact List.forall_mem_cons.2 ⟨TensorFact.coherent_ofShape _ _,
        List.forall_mem_singleton.2 (TensorFact.coherent_ofShape _ _)⟩
    · obtain ⟨d, sx, sk, -, -, -, -, rfl⟩ := refineConvolution_eq_ok hr
      exact List.forall_mem_cons.2 ⟨TensorFact.coherent_ofShape _ _,
        List.forall_mem_singleton.2 (TensorFact.coherent_ofShape _ _)⟩
  · intro v hv
    rcases refine_knownOutput hop h with ⟨-, hnone⟩ | ⟨-, hknown⟩
    · cases hv.symm.trans hnone
    · obtain ⟨us, hus, heval⟩ := knownOutput_eq_some_iff.1 (hv ▸ hknown)
      have hexact : fs = us.map .ofTensor := TensorFact.eq_map_ofTensor hfs hus
      have hle : out.Refines (.ofTensor v) := refine_exact hop heval (hexact ▸ h)
      rw [hle.eq_ofTensor hv]
      exact TensorFact.coherent_ofTensor v v rfl

end Operator

namespace Analysis

/-! ### Calls -/

/-- **Visits, coherent hints, folds and new plans keep all facts coherent.** -/
theorem actionInvariant_coherent :
    ActionInvariant TensorFact.Coherent fun a => OfLibrary a ∧ AllFacts TensorFact.Coherent a where
  movedTo _ _ _ h := h
  visit {a _ _ _} hw h hi hv :=
    ⟨((graphInvariant_library a.roundLimit).runInvariant.visit hw ⟨h.1, rfl⟩ hi hv).1,
      TensorFact.meetClosed_coherent.visit h.2
        (fun n hn _ _ _ _ hfs hy hr => Operator.refine_coherent (h.1 n hn) hfs hy hr) hv⟩
  hint _ h hfact hb := by
    refine ⟨?_, TensorFact.meetClosed_coherent.hint h.2 hfact hb⟩
    rw [OfLibrary, (hint_sameGraph hb).1.nodes]
    exact h.1
  foldNode {a b node value} hw h hb := by
    have hlib := ((graphInvariant_library a.roundLimit).actionInvariant.foldNode hw ⟨h.1, rfl⟩ hb).1
    obtain ⟨i, r, -, hr, rfl⟩ := (foldNode_eq_ok_iff hw.toLinked).1 hb
    refine ⟨hlib, fun e he => ?_⟩
    have hcommit := h.2.commit (TensorFact.meetClosed_coherent.combined h.2 (fun x hx => ?_) hr)
    · obtain ⟨d, hd, rfl⟩ := List.mem_map.1 he
      rw [Edge.cut_fact]
      exact hcommit d hd
    · obtain ⟨-, -, heq⟩ := List.mem_map.1 (List.of_mem_zip hx).1
      exact heq ▸ TensorFact.coherent_ofTensor value
  replan h _ := h

theorem pruned_coherent {a : Analysis} (h : AllFacts TensorFact.Coherent a) :
    AllFacts TensorFact.Coherent a.pruned := by
  intro d hd
  obtain ⟨e, he, rfl⟩ := mem_pruned_edges hd
  exact h e he

theorem AllFacts.outputFact_coherent {a : Analysis} (h : AllFacts TensorFact.Coherent a) {node : Int}
    {f : TensorFact} (hf : a.outputFact node = .ok f) : f.Coherent := by
  simp only [outputFact, bind_eq_ok_iff] at hf
  obtain ⟨i, -, js, -, fs, hfs, hmeet⟩ := hf
  exact TensorFact.meetClosed_coherent.meetAll TensorFact.meetClosed_coherent.unknown (h.of_factsOf hfs) hmeet

/-- **Facts stay coherent.** Take an analysis of a model of operators of the
library and any calls that tell coherent facts only, whether they succeed or fail.
Then each fact on an edge that knows a value knows the type and the shape of that
value, so what is known of the output of a node, if it has a value, is all there
is to know about that value. -/
theorem facts_coherent {model : Model} {output : Int} {limit : Option Nat} {start : Analysis}
    (hlib : ∀ n ∈ model.nodes, n.op.IsLibrary) (hstart : Analysis.start model output limit = .ok start)
    {xs : List Call} (hxs : ∀ x ∈ xs, x.Tells TensorFact.Coherent) :
    (∀ e ∈ (start.afterCalls xs).edges, ∀ v, e.fact.value = some v →
      e.fact.dtype = some (.elem v.elem) ∧ e.fact.shape = .ofExtents v.shape) ∧
    ∀ (node : Int) (f : TensorFact) (v : Tensor), (start.afterCalls xs).outputFact node = .ok f →
      f.value = some v → f = .ofTensor v := by
  obtain ⟨hw, -, hunknown, hnodes, -⟩ := start_spec hstart
  have hbefore : OfLibrary start ∧ AllFacts TensorFact.Coherent start := by
    refine ⟨?_, fun e he => ?_⟩
    · rw [OfLibrary, hnodes]
      exact hlib
    · rw [hunknown e he]
      exact TensorFact.meetClosed_coherent.unknown
  obtain ⟨-, -, hafter⟩ := actionInvariant_coherent.afterCalls (fun {a} hw h =>
    ⟨((graphInvariant_library a.roundLimit).pruned hw ⟨h.1, rfl⟩).1, pruned_coherent h.2⟩) hw hbefore hxs
  exact ⟨fun e he => hafter e he, fun node f v hf hv => (hafter.outputFact_coherent hf).eq_ofTensor hv⟩

/-- A hint with a value, a run, folding and pruning. -/
def foldedPair : List Call :=
  [.act (.hint 0 (.ofTensor (integerPair 3 (-1)))), .act .run, .act .foldConstants, .act .prune]

theorem foldedPair_tells : ∀ x ∈ foldedPair, x.Tells TensorFact.Coherent := by
  simp [foldedPair, Call.Tells, Action.Tells, TensorFact.coherent_ofTensor]

/-- After these calls the value that is known of the positive part of a pair is
all that is known of it. -/
theorem positivePart_coherent : ∃ a f, start positivePart 1 none = .ok a ∧
    (a.afterCalls foldedPair).outputFact 0 = .ok f ∧ f.value = some (integerPair 3 0) ∧
    f = .ofTensor (integerPair 3 0) := by
  have hvalue : (((start positivePart 1 none).toOption.bind fun a =>
      ((a.afterCalls foldedPair).outputFact 0).toOption).bind TensorFact.value) = some (integerPair 3 0) := by
    decide +kernel
  obtain ⟨a, hstart⟩ : ∃ a, start positivePart 1 none = .ok a := ⟨_, rfl⟩
  obtain ⟨-, hcoherent⟩ := facts_coherent positivePart_library hstart foldedPair_tells
  rw [hstart] at hvalue
  cases hf : (a.afterCalls foldedPair).outputFact 0 with
  | error e =>
    simp [Except.toOption, hf] at hvalue
  | ok f =>
    have hfold : f.value = some (integerPair 3 0) := by simpa [Except.toOption, hf] using hvalue
    exact ⟨a, f, hstart, hf, hfold, hcoherent 0 f _ hf hfold⟩

end Analysis

end EdgeFacts
