/-
# What is known of an output is free of contradiction

The edges out of a node can carry different facts, and a report combines them
without anyone to catch a clash. It does not come to one after an analysis that
succeeded. A hint puts one fact on all edges out of its node; visits touch no edge
out of a node that is not planned; and of a planned node a run that settles has
combined the facts. So after a run something says all that is known on the edges
out of each node (`Analysis.SettlesAt.reportable`). Folding puts the value of a
node on the edges out of it and takes edges from others, and pruning keeps the
edges out of what it keeps. Hence after every analysis that succeeds, folded or
not, pruned or not, each node that is left has an output fact, whether it is
planned or dead (`Analysis.report_total`).

Operators may be any at all: a run that settles has done so after some number of
rounds, however many (`Analysis.Analyses`).

Key definitions: `Analysis.Combinable`, `Analysis.Reportable`, `Analysis.SettlesAt`,
`Analysis.Analyses`.
Key theorems: `Analysis.runInvariant_compatible`, `Analysis.foldInvariant_combinable`,
`Analysis.SettlesAt.reportable`, `Analysis.report_total`.
-/
import EdgeFacts.Proofs.Report

namespace EdgeFacts

theorem TensorFact.eq_ofTensor_of_meet {v : Tensor} {f m : TensorFact} (h : (ofTensor v).meet f = .ok m) :
    m = ofTensor v := by
  refine (isMeet.lower h).1.eq_ofTensor ?_
  have hv := (meet_eq_ok h).2.2
  simp only [ofTensor] at hv
  cases hf : f.value with
  | none =>
    rw [hf] at hv
    exact (Except.ok.inj hv).symm
  | some u =>
    rw [hf] at hv
    simp only [meetValue] at hv
    split at hv
    · exact (Except.ok.inj hv).symm
    · cases hv

namespace Analysis

/-! ### What is known of outputs -/

/-- Whether one thing is known on all edges out of each node. -/
def Uniform (a : Analysis) : Prop := ∀ i, ∃ g, ∀ e ∈ a.edgesFrom i, e.fact = g

/-- Whether what is known on the edges out of each node can be combined. -/
def Combinable (a : Analysis) : Prop := ∀ i, Compatible (a.edgesFrom i)

theorem Uniform.combinable {a : Analysis} (h : Uniform a) : Combinable a := fun i => by
  obtain ⟨g, hg⟩ := h i
  exact compatible_of_forall_eq hg

/-- At first nothing is known, and a hint puts one fact on all edges out of its node. -/
theorem uniform_of_hintAll {model : Model} {output : Int} {limit : Option Nat} {a b : Analysis} {hints : Hints}
    (ha : start model output limit = .ok a) (hb : a.hintAll hints = .ok b) :
    WellFormed b ∧ Uniform b ∧ SameGraph b a := by
  obtain ⟨hw, -, hunknown, -⟩ := start_spec ha
  have hstart : Uniform a := fun i => ⟨.unknown, fun e he => hunknown e (mem_edgesFrom.1 he).1⟩
  refine hintAll_induction (fun _ => True) (fun hl h _ hd i => ?_) hw hstart (fun _ _ => trivial) hb
  obtain ⟨g, hg⟩ := h i
  obtain ⟨g', -, hg'⟩ := hint_uniform hl hd hg
  exact ⟨g', hg'⟩

/-- **Visits leave dead nodes alone.** -/
theorem runInvariant_compatible : RunInvariant fun a => ∀ i, i ∉ a.plan → Compatible (a.edgesFrom i) where
  movedTo _ _ _ h := h
  visit {a a' i changed} hw h hi hv k hk := by
    have hka : k ∉ a.plan := (visit_refines hv).plan ▸ hk
    rw [edgesFrom_of_unplanned hw hi hka hv]
    exact h k hka

/-- **To fold a node** is to put its value on the edges out of it, where it says all that is
known, and to make the node a constant; the edges out of other nodes are left as they are
until those into the node are taken away. -/
theorem foldNode_edges {a b : Analysis} (hl : Linked a) {i : Nat} {v : Tensor} (hb : a.foldNode i v = .ok b) :
    ∃ c, Refines c a ∧ c.asFolded i v = b ∧ (∀ e ∈ a.edgesFrom i, (TensorFact.ofTensor v).Refines e.fact) ∧
      (∀ d ∈ c.edgesFrom i, d.fact.same (.ofTensor v) = true) ∧ ∀ k, k ≠ i → c.edgesFrom k = a.edgesFrom k := by
  obtain ⟨j, r, ⟨hj, hi⟩, hr, rfl⟩ := (foldNode_eq_ok_iff hl).1 hb
  obtain rfl : i = j := Int.natCast_inj.1 hj
  have hdown : Refines (a.commit r).2 a := commit_refines (combined_refines_edge hr)
  have hsame := hdown.toSameGraph
  have hhint : a.hint i (.ofTensor v) = .ok (a.commit r).2 :=
    hint_eq_ok_iff.2 ⟨i, _, r, nodeIndex_eq_ok_iff.2 ⟨rfl, hi⟩, hl.outgoing_getElem? hi, hr, rfl⟩
  obtain ⟨j, hj, -, hmet, hrest⟩ := hint_edges hl hhint
  obtain rfl : i = j := Int.natCast_inj.1 (nodeIndex_eq_ok_iff.1 hj).1
  refine ⟨_, hdown, rfl, fun e he => ?_, fun d hd => ?_, fun k hk => hsame.edgesFrom_of_ne hl hk hrest⟩
  · obtain ⟨m, hm, -⟩ := hmet e he
    have hle : m.Refines e.fact := (TensorFact.isMeet.lower hm).2
    rwa [TensorFact.eq_ofTensor_of_meet hm] at hle
  · obtain ⟨e, he, hde⟩ := hsame.exists_edgeFrom hl hd
    obtain ⟨m, hm, hedge⟩ := hmet e he
    obtain rfl := TensorFact.eq_ofTensor_of_meet hm
    cases hde.symm.trans hedge
    split
    · rename_i hs
      exact TensorFact.same_iff_refines.2 (TensorFact.same_iff_refines.1 hs).symm
    · exact TensorFact.same_of_refines_ofTensor (.refl _)

/-- **Folding a node brings in no contradiction.** -/
theorem compatible_of_foldNode {a b : Analysis} (hl : Linked a) {i : Nat} {v : Tensor}
    (hb : a.foldNode i v = .ok b) {k : Nat} (h : Compatible (a.edgesFrom k)) : Compatible (b.edgesFrom k) := by
  obtain ⟨c, -, rfl, -, hself, hothers⟩ := foldNode_edges hl hb
  have hcompatible : Compatible (c.edgesFrom k) := by
    by_cases hki : k = i
    · subst hki
      exact ⟨.ofTensor v, fun d hd => (TensorFact.same_iff_refines.1 (hself d hd)).2⟩
    · rw [hothers k hki]
      exact h
  rw [asFolded_from]
  exact hcompatible.of_subset (List.filter_subset_self _)

theorem foldInvariant_compatible (k : Nat) : FoldInvariant fun a => Compatible (a.edgesFrom k) where
  fold hw h _ hb := by
    rcases applyFold_cases hb with rfl | ⟨v, hv⟩
    · exact h
    · exact compatible_of_foldNode hw.toLinked hv h
  replan _ h _ := h

theorem foldInvariant_combinable : FoldInvariant Combinable where
  fold hw h hi hb k := (foldInvariant_compatible k).fold hw (h k) hi hb
  replan _ h _ := h

theorem Combinable.pruned {a : Analysis} (h : Combinable a) (hw : WellFormed a) : Combinable a.pruned := by
  intro k
  by_cases hk : k < a.pruned.nodes.length
  · obtain ⟨i, m, hi, -, rfl, -⟩ := pruned_node hw.toPlanned (List.getElem?_eq_getElem hk)
    obtain ⟨d, hd⟩ := h i
    refine ⟨d, fun e he => ?_⟩
    rw [pruned_from hw.toLinked hw.toPlanned hi] at he
    obtain ⟨e', he', rfl⟩ := List.mem_map.1 he
    exact hd e' he'
  · refine ⟨.unknown, fun e he => absurd ?_ hk⟩
    obtain ⟨hmem, hs⟩ := mem_edgesFrom.1 he
    exact (pruned_linked hw.toLinked hw.toPlanned).source_lt e hmem k hs

/-! ### Analyses that can be reported -/

/-- Whether nodes can be told by their names, and what is known of the output of
each can be combined. -/
structure Reportable (a : Analysis) : Prop extends WellFormed a where
  names : (a.nodes.map Node.name).Nodup
  combinable : Combinable a

/-- Whether a run comes to rest at some analysis, after however many rounds. -/
def SettlesAt (a b : Analysis) : Prop :=
  ∃ count, rounds a.roundLimit count 0 { a with passIndex := 0 } = (.ok (), b)

theorem settlesAt_of_run {a b : Analysis} (h : a.run = (.ok (), b)) : a.SettlesAt b := ⟨_, h⟩

/-- **A run that settles can be reported** if what is known of dead nodes was free
of contradiction. -/
theorem SettlesAt.reportable {a b : Analysis} (h : a.SettlesAt b) (hw : WellFormed a)
    (hnames : (a.nodes.map Node.name).Nodup) (hdead : ∀ i, i ∉ a.plan → Compatible (a.edgesFrom i)) : Reportable b := by
  obtain ⟨count, hcount⟩ := h
  have hI := graphInvariant_names.runInvariant.and runInvariant_compatible
  have hstart : WellFormed (a.movedTo 0 a.stepIndex a.forward) := movedTo_wellFormed hw hw.stepIndex_lt
  have hafter : WellFormed (rounds a.roundLimit count 0 (a.movedTo 0 a.stepIndex a.forward)).2 ∧ _ :=
    hI.rounds hstart ⟨hnames, hdead⟩
  have hrounds : rounds a.roundLimit count 0 (a.movedTo 0 a.stepIndex a.forward) = (.ok (), b) := hcount
  rw [hrounds] at hafter
  obtain ⟨hwb, hnamesb, hdeadb⟩ := hafter
  refine { hwb with names := hnamesb, combinable := fun i => ?_ }
  by_cases hi : i ∈ b.plan
  · exact compatible_of_stableAt hwb.toLinked (rounds_stable hcount i hi)
  · exact hdeadb i hi

namespace Reportable

variable {a : Analysis} (h : Reportable a)
include h

theorem foldConstants {folded : List Nat} {b : Analysis} (hb : a.foldConstants = (.ok folded, b)) :
    Reportable b := by
  obtain ⟨hw, hcombinable⟩ := foldInvariant_combinable.foldConstants h.toWellFormed h.combinable
  obtain ⟨-, hnames⟩ := graphInvariant_names.foldInvariant.foldConstants h.toWellFormed h.names
  rw [hb] at hw hcombinable hnames
  exact { hw with names := hnames, combinable := hcombinable }

theorem prune {mapping : List (Option Nat)} {b : Analysis} (hb : a.prune = (.ok mapping, b)) : Reportable b := by
  cases (prune_eq h.toLinked h.toPlanned).symm.trans hb
  exact { pruned_wellFormed h.toWellFormed with
    names := graphInvariant_names.pruned h.toWellFormed h.names
    combinable := h.combinable.pruned h.toWellFormed }

theorem report : ∃ t, a.report = .ok t ∧
    ∀ n ∈ a.nodes, ∃ f, a.outputFact n.id = .ok f ∧ t.find? n.name = some f.text := by
  have hfacts : ∀ i < a.nodes.length, ∃ f, a.outputFact i = .ok f := fun i hi =>
    (exists_outputFact_iff h.toLinked hi).2 (h.combinable i)
  obtain ⟨t, ht, htext⟩ := report_spec h.toLinked h.names hfacts
  refine ⟨t, ht, fun n hn => ?_⟩
  obtain ⟨i, hi⟩ := List.mem_iff_getElem?.1 hn
  obtain ⟨f, hf⟩ := hfacts i (List.getElem?_eq_some_iff.1 hi).1
  rw [h.ids i n hi]
  exact ⟨f, hf, htext i n f hi hf⟩

end Reportable

/-! ### The whole analysis -/

/-- Whether an analysis of a model for an output succeeds and leaves some state:
the hints are added and a run settles; if asked for, constants are folded and
another run settles, and what the output does not need is removed. -/
def Analyses (model : Model) (output : String) (hints : Hints) (fold prune : Bool) (limit : Option Nat)
    (c : Analysis) : Prop :=
  ∃ id a b r d, model.index.find? output = some id ∧ start model id limit = .ok a ∧
    a.hintAll hints = .ok b ∧ b.SettlesAt r ∧
    (if fold then ∃ folded e, r.foldConstants = (.ok folded, e) ∧ e.SettlesAt d else d = r) ∧
    if prune then ∃ mapping, d.prune = (.ok mapping, c) else c = d

/-- What is computed within the bound on the number of rounds is such an analysis. -/
theorem analyses_of_ofModel {model : Model} {output : String} {hints : Hints} {fold prune : Bool}
    {limit : Option Nat} {c : Analysis} (h : ofModel model output hints fold prune limit = .ok c) :
    Analyses model output hints fold prune limit c := by
  rw [ofModel_stages] at h
  simp only [bind_eq_ok_iff] at h
  obtain ⟨r, hr, d, hd, hc⟩ := h
  obtain ⟨id, a, b, hid, ha, hb, hrun⟩ := ofModel_eq_ok_iff.1 hr
  refine ⟨id, a, b, r, d, hid, ha, hb, settlesAt_of_run hrun, ?_, ?_⟩
  · cases fold with
    | false => exact (Except.ok.inj hd).symm
    | true =>
      simp only [if_true, foldAndRun, bind_eq_ok_iff, completed_eq_ok_iff] at hd
      obtain ⟨e, ⟨folded, hfold⟩, _, hrun'⟩ := hd
      exact ⟨folded, e, hfold, settlesAt_of_run hrun'⟩
  · cases prune with
    | false => exact (Except.ok.inj hc).symm
    | true => exact completed_eq_ok_iff.1 hc

/-- **After an analysis that succeeds everything can be reported.** For every valid
model of any operators, every output, all hints and any limit, with and without
folding and pruning: whatever state an analysis leaves, each node that is left,
planned or dead, has an output fact there, and the report succeeds and tells it. -/
theorem report_total {model : Model} {output : String} {hints : Hints} {fold prune : Bool} {limit : Option Nat}
    {c : Analysis} (hvalid : model.validate = .ok ()) (h : Analyses model output hints fold prune limit c) :
    ∃ t, c.report = .ok t ∧ ∀ n ∈ c.nodes, ∃ f, c.outputFact n.id = .ok f ∧ t.find? n.name = some f.text := by
  obtain ⟨id, a, b, r, d, -, ha, hb, hr, hd, hc⟩ := h
  obtain ⟨hwb, huniform, hsame⟩ := uniform_of_hintAll ha hb
  have hnames : (b.nodes.map Node.name).Nodup := by
    rw [hsame.nodes, (start_spec ha).2.2.2.1]
    exact (Model.validate_eq_ok_iff.1 hvalid).2.1
  have hreportr : Reportable r := hr.reportable hwb hnames fun i _ => huniform.combinable i
  have hreportd : Reportable d := by
    cases fold with
    | false => exact hd ▸ hreportr
    | true =>
      obtain ⟨folded, e, hfold, hrun⟩ := hd
      have hreporte := hreportr.foldConstants hfold
      exact hrun.reportable hreporte.toWellFormed hreporte.names fun i _ => hreporte.combinable i
  have hreportc : Reportable c := by
    cases prune with
    | false => exact hc ▸ hreportd
    | true =>
      obtain ⟨mapping, hprune⟩ := hc
      exact hreportd.prune hprune
  exact hreportc.report

/-- The shifted pair, and beside it the double of an input that the output does not need. -/
def shiftedPairAndDouble : Model := ⟨shiftedPair.nodes ++ [
  ⟨4, "w", "Placeholder", .placeholder .unknown, []⟩,
  ⟨5, "z", "Add", .add, [⟨4, none⟩, ⟨4, none⟩]⟩]⟩

/-- With a value as a hint for the dead input, which has two edges out of it, and
with folding, which makes one more node dead, all six nodes are reported. -/
theorem shiftedPairAndDouble_reported : shiftedPairAndDouble.validate = .ok () ∧ ∃ c,
    Analyses shiftedPairAndDouble "y" [("x", integerPairs), ("w", .ofTensor (integerPair 3 (-1)))] true false none c ∧
      c.plan = [1, 2, 3] ∧ c.nodes.map Node.name = ["c", "shift", "x", "y", "w", "z"] ∧
      ∃ t, c.report = .ok t ∧
        ∀ n ∈ c.nodes, ∃ f, c.outputFact n.id = .ok f ∧ t.find? n.name = some f.text := by
  have hleft : (ofModel shiftedPairAndDouble "y"
      [("x", integerPairs), ("w", .ofTensor (integerPair 3 (-1)))] true false none).toOption.map
      (fun c => (c.plan, c.nodes.map Node.name)) = some ([1, 2, 3], ["c", "shift", "x", "y", "w", "z"]) := by
    decide +kernel
  refine ⟨rfl, ?_⟩
  cases hc : ofModel shiftedPairAndDouble "y"
      [("x", integerPairs), ("w", .ofTensor (integerPair 3 (-1)))] true false none with
  | error e =>
    rw [hc] at hleft
    cases hleft
  | ok c =>
    rw [hc] at hleft
    obtain ⟨hplan, hnames⟩ := Prod.mk.inj (Option.some.inj hleft)
    have hanalyses := analyses_of_ofModel hc
    exact ⟨c, hanalyses, hplan, hnames, report_total rfl hanalyses⟩

end Analysis

end EdgeFacts
