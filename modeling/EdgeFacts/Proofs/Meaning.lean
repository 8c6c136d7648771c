/-
# Folding and pruning keep the meaning

Whatever hints an execution satisfies and however far the analysis ran, its
facts admit the execution. Folding keeps it, pruning renames what is left of it
(`Analysis.Sound.pruned`), and an execution is what evaluation gives
(`Analysis.Sound.evaluate`). So folding and pruning never fail where there is an
execution, and what they leave computes the same output from the same inputs
(`Analysis.fold_prune_evaluate`).

Key definitions: `Action.Fits`, `Analysis.prunedValue`.
Key theorems: `Analysis.Sound.after`, `Analysis.Sound.pruned`,
`Analysis.fold_prune_evaluate`.
-/
import EdgeFacts.Proofs.Evaluate
import EdgeFacts.Proofs.Foldable

namespace EdgeFacts

/-- Whether an action only adds to what is known, and nothing about the nodes of
an execution that it does not satisfy. -/
def Action.Fits (nodes : List Node) (ran : Nat → Prop) (value : Nat → Tensor) : Action → Prop
  | hint node fact => ∀ i : Nat, node = i → ran i → fact.Admits (value i)
  | hintByName name fact =>
    ∀ n, nodes.find? (·.name = name) = some n → ∀ i : Nat, n.id = i → ran i → fact.Admits (value i)
  | step | round | run => True
  | foldNode _ _ | foldConstants | resetPlan | prune => False

namespace Analysis

/-- The tensors of an execution, at the new numbers of the nodes. -/
def prunedValue (a : Analysis) (value : Nat → Tensor) (k : Nat) : Tensor :=
  value ((kept a.usedNodes (List.range a.nodes.length)).getD k 0)

theorem prunedValue_newIndex {a : Analysis} (hp : Planned a) (value : Nat → Tensor) {i : Nat}
    (hi : i ∈ a.plan) : a.prunedValue value (newIndex a.usedNodes i) = value i := by
  have hlen : a.usedNodes.length = (List.range a.nodes.length).length := by
    rw [length_usedNodes, List.length_range]
  have hk := kept_getElem? hlen ((usedNodes_getElem? hp).2 hi)
  rw [List.getElem?_range (hp.lt i hi)] at hk
  rw [prunedValue, List.getD_eq_getElem?_getD, hk]
  rfl

namespace Sound

variable {a : Analysis} {value : Nat → Tensor} (h : Sound value a) (hw : WellFormed a)
include h hw

/-- A hint that says nothing wrong about an execution keeps the facts sound,
also about a node that was not executed. -/
theorem hint {b : Analysis} {node : Int} {f : TensorFact}
    (hf : ∀ i : Nat, node = i → i ∈ a.plan → f.Admits (value i)) (hb : a.hint node f = .ok b) :
    Sound value b := by
  obtain ⟨i, js, r, hi, hjs, hr, rfl⟩ := hint_eq_ok_iff.1 hb
  obtain ⟨rfl, hlt⟩ := nodeIndex_eq_ok_iff.1 hi
  cases hjs.symm.trans (hw.outgoing_getElem? hlt)
  refine h.commit fun p hp e he s hs hplan => ?_
  obtain ⟨k, hk, rfl⟩ := List.mem_iff_getElem.1 hp
  have hk' := hr.length_eq ▸ hk
  obtain ⟨hkey, g, hg, hm⟩ := hr.get hk' hk
  simp only [List.get_eq_getElem] at hkey hg hm
  obtain ⟨hfx, hj⟩ := List.of_mem_zip (List.getElem_mem hk')
  obtain ⟨_, -, hfx⟩ := List.mem_map.1 hfx
  rw [hkey] at he
  rw [factOf_of_getElem? he] at hg
  cases hg
  have hid : e.id ∈ (a.edgesFrom i).map Edge.id := (hw.edgeIds _ e he).symm ▸ hj
  have hsi : e.source = some i := (hw.id_mem_edgesFrom (List.mem_of_getElem? he)).1 hid
  cases hs.symm.trans hsi
  obtain ⟨m, hm', hadmits⟩ := TensorFact.meet_admits (hfx ▸ hf i rfl hplan)
    (h.admits e (List.mem_of_getElem? he) i hsi hplan)
  cases hm.symm.trans hm'
  exact hadmits

/-- **Adding to what is known keeps the facts sound**, also where it fails. -/
theorem after {x : Action} (hx : x.Fits a.nodes (· ∈ a.plan) value) :
    Sound value (a.after x) ∧ SameGraph (a.after x) a := by
  have hrun := (runInvariant_sound value).and (runInvariant_refines a)
  have ha : Sound value a ∧ Refines a a := ⟨h, .refl a⟩
  have hstay : ∀ {r : Except Failure Analysis}, (∀ b, r = .ok b → Sound value b ∧ SameGraph b a) →
      Sound value (a.orStay r).2 ∧ SameGraph (a.orStay r).2 a := orStay_induction ⟨h, .refl a⟩
  cases x with
  | hint node f => exact hstay fun b hb => ⟨h.hint hw hx hb, (hint_sameGraph hb).1⟩
  | hintByName name f =>
    refine hstay fun b hb => ?_
    obtain ⟨n, hn, hb⟩ := hintByName_eq_ok_iff.1 hb
    exact ⟨h.hint hw (hx n hn) hb, (hint_sameGraph hb).1⟩
  | step =>
    refine hstay fun b hb => ?_
    cases hs : a.step with
    | error e =>
      rw [hs] at hb
      cases hb
    | ok r =>
      rw [hs] at hb
      cases hb
      have hstep := (hrun.step hw ha hs).2
      exact ⟨hstep.1, hstep.2.toSameGraph⟩
  | round => exact (hrun.round hw ha).2.imp_right Refines.toSameGraph
  | run => exact (hrun.run hw ha).2.imp_right Refines.toSameGraph
  | foldNode node v => exact hx.elim
  | foldConstants => exact hx.elim
  | resetPlan => exact hx.elim
  | prune => exact hx.elim

/-- **Pruning renames an execution.** -/
theorem pruned : Sound (a.prunedValue value) a.pruned := by
  have hp := hw.toPlanned
  have hproducers {i : Nat} {m : Node} (hi : i ∈ a.plan) (hm : a.nodes[i]? = some m) :
      (renumberNode a.usedNodes m).producers.map (a.prunedValue value) = m.producers.map value := by
    simp only [renumberNode, Node.producers, List.map_map]
    refine List.map_congr_left fun x hx => ?_
    have hmem : x.producer.toNat ∈ Plan.producersAt a.nodes i := Plan.mem_producersAt.2 ⟨m, hm, x, hx, rfl⟩
    exact prunedValue_newIndex hp value (hp.ordered.idxOf_lt hi hmem).1
  refine ⟨((graphInvariant_library a.roundLimit).pruned hw ⟨h.library, rfl⟩).1,
    ⟨fun k n hn _ => ?_, fun k n hn _ => ?_⟩, fun d hd k hs _ => ?_⟩
  · obtain ⟨i, m, hi, hm, rfl, rfl⟩ := pruned_node hp hn
    rw [hproducers hi hm, prunedValue_newIndex hp value hi]
    exact h.execution.computes i m hm hi
  · obtain ⟨i, m, hi, hm, rfl, rfl⟩ := pruned_node hp hn
    rw [hproducers hi hm]
    exact h.execution.oneType i m hm hi
  · obtain ⟨e, he, rfl⟩ := mem_pruned_edges hd
    obtain ⟨i, hi, hkept⟩ := Option.bind_eq_some_iff.1 hs
    obtain ⟨hu, rfl⟩ := keptIndex?_eq_some_iff.1 hkept
    have hplan := (usedNodes_getElem? hp).1 hu
    rw [prunedValue_newIndex hp value hplan]
    exact h.admits e he i hi hplan

/-- **An execution is what evaluation gives**, if the inputs of the model are fed
with its tensors. -/
theorem evaluate {feed : Nat → Except Failure Tensor}
    (hfeed : ∀ i ∈ a.plan, ∀ n, a.nodes[i]? = some n → n.op.isPlaceholder = true →
      feed i = .ok (value i)) :
    ∃ t, a.toModel.evaluate a.output feed = .ok t ∧ t.same (value a.output.toNat) = true := by
  obtain ⟨plan, hplan, hvalid, -, hsub⟩ := resetPlan_spec hw
  have hofNodes : Plan.ofNodes a.nodes [a.output] = .ok plan := by
    simp only [resetPlan, bind_eq_ok_iff, pure_eq_ok, Except.ok.injEq] at hplan
    obtain ⟨plan', hplan', heq⟩ := hplan
    have hplans : plan' = plan := congrArg Analysis.plan heq
    rw [hplan', hplans]
  obtain ⟨t, ht, hsame⟩ := evaluateAll_of_execution hvalid.ordered hvalid.lt h.library
    (h.replan hsub).execution (fun i hi => hfeed i (hsub hi)) a.output.toNat
    ((hvalid.mem_iff _).2 .output)
  refine ⟨t, ?_, hsame⟩
  simp only [Model.evaluate, toModel, hofNodes, bind, Except.bind]
  exact ht

end Sound

/-- **Folding and pruning keep the meaning.** Take a model of operators of the
library and an execution of what its output needs. After any hints that the
execution satisfies and any steps, rounds and runs, folding and then pruning
succeed. The model computes some output from the inputs of the execution, and
what is left of it computes the same output, up to the values of elements, from
those of these inputs that it still has. -/
theorem fold_prune_evaluate {model : Model} {output : Int} {limit : Option Nat} {a : Analysis}
    {value : Nat → Tensor} (hlib : ∀ n ∈ model.nodes, n.op.IsLibrary)
    (hstart : start model output limit = .ok a)
    (hex : Execution model.nodes (Plan.Required model.nodes output.toNat) value) {xs : List Action}
    (hxs : ∀ x ∈ xs, x.Fits model.nodes (Plan.Required model.nodes output.toNat) value) :
    ∃ folded b mapping c, (a.afterAll xs).foldConstants = (.ok folded, b) ∧
      b.prune = (.ok mapping, c) ∧
      ∃ t, model.evaluate output (fun i => .ok (value i)) = .ok t ∧ t.same (value output.toNat) = true ∧
        ∀ feed, (∀ i k n, mapping[i]? = some (some k) → c.nodes[k]? = some n →
          n.op.isPlaceholder = true → feed k = .ok (value i)) →
          ∃ u, c.toModel.evaluate c.output feed = .ok u ∧ u.same t = true := by
  obtain ⟨hw, -, -, hnodes, houtput, -⟩ := start_spec hstart
  obtain ⟨hsound, hmem⟩ := start_sound hlib hstart hex
  have hfed : ∀ i ∈ a.plan, ∀ n, a.nodes[i]? = some n → n.op.isPlaceholder = true →
      (Except.ok (value i) : Except Failure Tensor) = .ok (value i) := fun _ _ _ _ _ => rfl
  obtain ⟨t, ht, htv⟩ := hsound.evaluate hw hfed
  have hstep : ∀ (b : Analysis) (x : Action), WellFormed b ∧ Sound value b ∧ SameGraph b a →
      x.Fits model.nodes (Plan.Required model.nodes output.toNat) value →
      WellFormed (b.after x) ∧ Sound value (b.after x) ∧ SameGraph (b.after x) a := by
    intro b x ⟨hwb, hsb, hsame⟩ hx
    rw [← hmem, ← hnodes, ← hsame.plan, ← hsame.nodes] at hx
    obtain ⟨hs, hsb'⟩ := hsb.after hwb hx
    exact ⟨((graphInvariant_library b.roundLimit).after hwb ⟨hsb.library, rfl⟩ x).1, hs,
      hsb'.trans hsame⟩
  have hall : WellFormed (a.afterAll xs) ∧ Sound value (a.afterAll xs) ∧ SameGraph (a.afterAll xs) a :=
    afterAll_induction hstep ⟨hw, hsound, .refl a⟩ hxs
  obtain ⟨hwx, hsx, hsame⟩ := hall
  obtain ⟨folded, b, hfold, ⟨hsb, hwb⟩, hout⟩ := hsx.exists_foldConstants hwx
  have hb : b.output = output := hout.trans (hsame.output.trans houtput)
  have hp := hwb.toPlanned
  have hmodel : a.toModel = model := by
    rw [toModel, hnodes]
  rw [hmodel, houtput] at ht
  rw [houtput] at htv
  refine ⟨folded, b, _, b.pruned, hfold, prune_eq hwb.toLinked hp, t, ht, htv, fun feed hfeed => ?_⟩
  have hfedp : ∀ k ∈ b.pruned.plan, ∀ n, b.pruned.nodes[k]? = some n → n.op.isPlaceholder = true →
      feed k = .ok (b.prunedValue value k) := by
    intro k hk n hn hph
    obtain ⟨i, hi, rfl⟩ := List.mem_map.1 hk
    rw [prunedValue_newIndex hp value hi]
    refine hfeed i _ n ?_ hn hph
    rw [denseMapping_getElem?, (usedNodes_getElem? hp).2 hi, Nat.zero_add]
    rfl
  obtain ⟨u, hu, huv⟩ := (hsb.pruned hwb).evaluate (pruned_wellFormed hwb) hfedp
  refine ⟨u, hu, Tensor.same_trans huv ?_⟩
  have houtv : b.prunedValue value b.pruned.output.toNat = value output.toNat := by
    rw [← hb]
    exact prunedValue_newIndex hp value hp.output_mem
  rw [houtv]
  exact Tensor.same_symm htv

/-- Once the positive part of two integers is known to be 3 and 0, folding and
pruning leave a model that computes these. -/
theorem positivePart_folded : ∃ a, start positivePart 1 none = .ok a ∧ ∃ folded b mapping c,
    (a.afterAll [.hint 1 (.ofTensor (integerPair 3 0)), .step]).foldConstants = (.ok folded, b) ∧
    b.prune = (.ok mapping, c) ∧
    ∃ u, c.toModel.evaluate c.output (fun _ => .ok (integerPair 3 0)) = .ok u ∧
      u.same (integerPair 3 0) = true := by
  have hex : Execution positivePart.nodes (Plan.Required positivePart.nodes (1 : Int).toNat)
      fun _ => integerPair 3 0 := by
    refine ⟨fun i n hn _ => ?_, fun i n hn _ => ?_⟩
    · rcases i with _ | _ | i
      · cases hn
        exact integerPairs_admits 3 0
      · cases hn
        exact ⟨(integerPair 3 0).clamp, rfl, by decide +kernel⟩
      · simp [positivePart] at hn
    · rcases i with _ | _ | i
      · cases hn
        trivial
      · cases hn
        trivial
      · simp [positivePart] at hn
  have hactions : ∀ x ∈ [Action.hint 1 (.ofTensor (integerPair 3 0)), Action.step],
      x.Fits positivePart.nodes (Plan.Required positivePart.nodes (1 : Int).toNat)
        fun _ => integerPair 3 0 := by
    intro x hx
    simp only [List.mem_cons, List.not_mem_nil, or_false] at hx
    rcases hx with rfl | rfl
    · exact fun _ _ _ => TensorFact.admits_iff_refines.2 (.refl _)
    · trivial
  have hstart : start positivePart 1 none = .ok _ := rfl
  obtain ⟨folded, b, mapping, c, hb, hc, t, -, ht, heval⟩ :=
    fold_prune_evaluate positivePart_library hstart hex hactions
  obtain ⟨u, hu, hut⟩ := heval (fun _ => .ok (integerPair 3 0)) fun _ _ _ _ _ _ => rfl
  exact ⟨_, hstart, folded, b, mapping, c, hb, hc, u, hu, Tensor.same_trans hut ht⟩

end Analysis

end EdgeFacts
