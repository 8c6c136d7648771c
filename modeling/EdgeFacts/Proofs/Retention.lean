/-
# What folding keeps of what is known

To fold a node takes the edges into it from the nodes before it, and what is known of
these nodes on such edges alone is lost. The edges that are left to a node that is not
folded keep their facts (`Analysis.FoldsIn.from_eq`). So nothing is lost where each edge
out of a node says all that is known of its output, and after a run it does for every
node but inputs of the model, as long as there is no value among what is known
(`Content.told`). A node whose value is known is folded in the first round, before any
node that uses it, and from then on each edge out of it says this value
(`Analysis.foldEach_known`). Of an input of the model that is left, what stays known is
exactly what the edges to nodes that are not folded say
(`Analysis.foldConstants_retains`): it can be less than before
(`Analysis.fork_forgets`).

Key definitions: `Analysis.edgesBeside`, `Analysis.ToldBeside`.
Key theorems: `Content.told`, `Analysis.foldEach_known`, `Analysis.FoldsIn.from_eq`,
`Analysis.foldConstants_retains`.
-/
import EdgeFacts.Proofs.Agreement
import EdgeFacts.Proofs.Classification
import EdgeFacts.Proofs.Compatible
import EdgeFacts.Proofs.Exhaustion
import EdgeFacts.Proofs.Hint
import EdgeFacts.Proofs.Intersection

namespace EdgeFacts

/-- **What each edge tells.** All that is known of the output of a node with nothing to add
is known on each edge out of it, if the node is a constant, or if it is no input of the
model and there is no value among what is known. -/
theorem Content.told {op : Operator} {before after : List Edge} (h : Content op before after)
    (hop : op.IsLibrary) (hinput : op.isPlaceholder = false) {y : TensorFact}
    (hy : TensorFact.meetAll .unknown (after.map Edge.fact) = .ok y)
    (hcase : op.isConst = true ∨ y.value = none) : ∀ e ∈ after, e.fact.Refines y := by
  intro e he
  obtain ⟨z, hz, hall⟩ := h.agree hop hinput
  cases hy.symm.trans hz
  obtain ⟨htype, hsame⟩ := hall e he
  rcases hcase with hconst | hnone
  · obtain ⟨t, rfl⟩ := Operator.const_of_isConst hconst
    obtain ⟨ins, out, hinfers, -⟩ := h
    obtain ⟨x, -, href⟩ := hinfers.refine_eq
    have hbefore : before = [] := by
      cases hfacts : before.map Edge.fact with
      | nil => exact List.map_eq_nil_iff.1 hfacts
      | cons f fs =>
        rw [hfacts] at href
        cases href
    have hknown : ∀ d ∈ before, d.fact.value ≠ none := by
      rw [hbefore]
      exact List.forall_mem_nil _
    exact (TensorFact.same_iff_refines.1 (hsame (.inr hknown))).1
  · have hy' : y.withoutValue = y := by
      rw [TensorFact.withoutValue, ← hnone]
    rw [← hy', ← htype]
    exact ⟨fun _ h => h, .refl _, valueRefines_none _⟩

namespace Analysis

/-! ### Edges out of a node -/

/-- To fold a node takes the edges into it from another node, and leaves the others as they are. -/
theorem foldNode_from {a b : Analysis} (hl : Linked a) {i k : Nat} {v : Tensor} (hb : a.foldNode i v = .ok b)
    (hki : k ≠ i) : b.edgesFrom k = (a.edgesFrom k).filter fun e => e.target ≠ some i := by
  obtain ⟨c, -, rfl, -, -, hothers⟩ := foldNode_edges hl hb
  rw [asFolded_from, hothers k hki]

theorem foldInvariant_told (k : Nat) (f : TensorFact) :
    FoldInvariant fun a => ∀ e ∈ a.edgesFrom k, e.fact.Refines f := (actionInvariant_told k f).foldInvariant

/-- The edges out of a node that do not lead to some others. -/
def edgesBeside (a : Analysis) (is : List Nat) (k : Nat) : List Edge :=
  (a.edgesFrom k).filter fun e => ∀ i ∈ is, e.target ≠ some i

/-- Whether the edges out of a node that do not lead to some others together say all
that a fact does. -/
def ToldBeside (a : Analysis) (is : List Nat) (k : Nat) (f : TensorFact) : Prop :=
  ∃ g, TensorFact.meetAll .unknown ((a.edgesBeside is k).map Edge.fact) = .ok g ∧ g.Refines f

/-- To fold a node does nothing to the edges out of another one that do not lead to it. -/
theorem applyFold_beside {a b : Analysis} (hl : Linked a) {i k : Nat} (hb : a.applyFold i = .ok b) (hki : k ≠ i)
    {is : List Nat} (hi : i ∈ is) : b.edgesBeside is k = a.edgesBeside is k := by
  rcases applyFold_cases hb with rfl | ⟨v, hv⟩
  · rfl
  · rw [edgesBeside, foldNode_from hl hv hki, List.filter_filter, edgesBeside]
    refine List.filter_congr fun e _ => ?_
    rw [← Bool.decide_and, decide_eq_decide]
    exact and_iff_left_of_imp fun h => h i hi

theorem foldEach_cons {i : Nat} {is : List Nat} {a b : Analysis} :
    foldEach (i :: is) a = (.ok (), b) ↔ ∃ c, a.applyFold i = .ok c ∧ foldEach is c = (.ok (), b) := by
  rw [foldEach]
  cases a.applyFold i with
  | error e => simp
  | ok c => simp

theorem foldEach_beside {is : List Nat} {k : Nat} : ∀ {js : List Nat} {a b : Analysis}, WellFormed a →
    foldEach js a = (.ok (), b) → js ⊆ is → k ∉ js → b.edgesBeside is k = a.edgesBeside is k
  | [], a, b, _, h, _, _ => by
    cases h
    rfl
  | j :: js, a, b, hw, h, hsub, hk => by
    obtain ⟨c, hc, hrest⟩ := foldEach_cons.1 h
    rw [List.mem_cons, not_or] at hk
    obtain ⟨hwc, -⟩ := applyFold_wellFormed hw hc
    calc b.edgesBeside is k
      _ = c.edgesBeside is k := foldEach_beside hwc hrest (fun i hi => hsub (.tail _ hi)) hk.2
      _ = a.edgesBeside is k := applyFold_beside hw.toLinked hc hk.1 (hsub (.head _))

theorem Turned.edgesBeside_eq {a b : Analysis} {is : List Nat} (h : Turned a is b) (k : Nat) :
    b.edgesBeside is k = b.edgesFrom k := by
  refine List.filter_eq_self.2 fun e he => ?_
  simp only [decide_eq_true_eq]
  intro i hi ht
  obtain ⟨-, -, -, -, -, hinto⟩ := h.const hi
  have hmem : e ∈ b.edgesInto i := mem_edgesInto.2 ⟨(mem_edgesFrom.1 he).1, ht⟩
  rw [hinto] at hmem
  cases hmem

namespace FoldsIn

variable {count : Nat} {a b : Analysis} {folded : List Nat} (h : FoldsIn count a folded b) (hw : WellFormed a)
include h hw

theorem keeps {P : Analysis → Prop} (hP : FoldInvariant P) (ha : P a) : P b := by
  induction h with
  | last _ => exact ha
  | round hcandidates _ heach _ ih =>
    have hafter := hP.foldEach hw ha (foldable_subset hcandidates)
    rw [heach] at hafter
    exact ih hafter.1 hafter.2

theorem beside {is : List Nat} {k : Nat} (hsub : folded ⊆ is) (hk : k ∉ folded) :
    b.edgesBeside is k = a.edgesBeside is k := by
  induction h with
  | last _ => rfl
  | @round a c b candidates later count hcandidates _ heach _ ih =>
    rw [List.mem_append, not_or] at hk
    obtain ⟨hfirst, hlater⟩ := List.append_subset.1 hsub
    obtain ⟨hturned, -, -⟩ := round_turned hw hcandidates heach
    calc b.edgesBeside is k
      _ = c.edgesBeside is k := ih hturned.toWellFormed hlater hk.2
      _ = a.edgesBeside is k := foldEach_beside hw heach hfirst hk.1

/-- **What is left to a node that is not folded**: the edges out of it that do not lead to
folded ones, as they were. -/
theorem from_eq {k : Nat} (hk : k ∉ folded) : b.edgesFrom k = a.edgesBeside folded k := by
  rw [← (h.turned hw).1.edgesBeside_eq k]
  exact h.beside hw (List.Subset.refl _) hk

theorem input_not_mem {k : Nat} {n : Node} (hn : a.nodes[k]? = some n) (hinput : n.op.isPlaceholder = true)
    (hnone : ∀ e ∈ a.edgesFrom k, e.fact.value = none) : k ∉ folded := by
  induction h with
  | last _ => exact List.not_mem_nil
  | @round a c b candidates later count hcandidates _ heach _ ih =>
    -- an input is not computed, so only a value on an edge out of it could be found
    have hk : k ∉ candidates := by
      intro hmem
      obtain ⟨m, hm, -, ⟨e, he, hv⟩ | ⟨-, hstateless, -⟩⟩ := (foldable_spec hw hcandidates).2 k hmem
      · rw [hnone e he] at hv
        cases hv
      · cases hn.symm.trans hm
        rw [Operator.isPlaceholder_of_isStateless hstateless] at hinput
        cases hinput
    obtain ⟨hturned, -, -⟩ := round_turned hw hcandidates heach
    have hfrom : c.edgesFrom k ⊆ a.edgesFrom k := by
      rw [← hturned.edgesBeside_eq k, foldEach_beside hw heach (List.Subset.refl _) hk]
      exact List.filter_subset_self _
    refine List.not_mem_append hk (ih hturned.toWellFormed ?_ fun e he => hnone e (hfrom he))
    rw [hturned.others k hk]
    exact hn

end FoldsIn

/-! ### Nodes whose values are known -/

/-- **A node whose value is known is folded before any node that uses it**, so once all
are folded each edge out of it says all that was known of its output. -/
theorem foldEach_known {k : Nat} {f : TensorFact} (hv : f.value.isSome) : ∀ {is : List Nat} {a b : Analysis},
    WellFormed a → is ⊆ a.plan → foldEach is a = (.ok (), b) →
    (is.Pairwise fun j i => i = k → k ≠ j ∧ ∀ e ∈ a.edgesFrom k, e.target ≠ some j) →
    k ∈ is → a.outputFact k = .ok f → ∀ e ∈ b.edgesFrom k, e.fact.Refines f
  | [], _, _, _, _, _, _, hk, _ => nomatch hk
  | j :: is, a, b, hw, hsub, h, hpair, hk, hf => by
    have hl := hw.toLinked
    have hlt : k < a.nodes.length := hw.lt k (hsub hk)
    obtain ⟨c, hc, hrest⟩ := foldEach_cons.1 h
    obtain ⟨hwc, hplan⟩ := applyFold_wellFormed hw hc
    obtain ⟨hfirst, hpair⟩ := List.pairwise_cons.1 hpair
    have hlater : is ⊆ c.plan := fun i hi => hplan ▸ hsub (.tail _ hi)
    by_cases hkj : k = j
    · subst hkj
      obtain ⟨v, hfv⟩ := Option.isSome_iff_exists.1 hv
      rw [applyFold, hf, ok_bind, hfv] at hc
      have htold : ∀ d ∈ c.edgesFrom k, d.fact.Refines f := by
        obtain ⟨c, -, rfl, hlower, hself, -⟩ := foldNode_edges hl hc
        rw [asFolded_from]
        intro d hd
        have hdv := (TensorFact.same_iff_refines.1 (hself d (List.mem_of_mem_filter hd))).1
        exact hdv.trans (outputFact_greatest hl hlt hf hlower)
      have hafter := ((foldInvariant_told k f).foldEach hwc htold hlater).2
      rw [hrest] at hafter
      exact hafter
    · have hk := (List.mem_cons.1 hk).resolve_left hkj
      -- no edge out of the node leads to the one that is folded before it
      have hfrom : c.edgesFrom k = a.edgesFrom k := by
        rcases applyFold_cases hc with rfl | ⟨v, hv⟩
        · rfl
        · rw [foldNode_from hl hv hkj]
          exact List.filter_eq_self.2 fun e he => by simpa using (hfirst k hk rfl).2 e he
      have hfc : c.outputFact k = .ok f := by
        rw [outputFact_eq hwc.toLinked (hwc.lt k (hlater hk)), hfrom, ← outputFact_eq hl hlt, hf]
      exact foldEach_known hv hwc hlater hrest (hfrom ▸ hpair) hk hfc

/-- So it is over all rounds, of which the first folds it. -/
theorem FoldsIn.known {count : Nat} {a b : Analysis} {folded : List Nat} (h : FoldsIn count a folded b)
    (hw : WellFormed a) {k : Nat} (hk : k ∈ a.plan) {n : Node} (hn : a.nodes[k]? = some n)
    (hconst : n.op.isConst = false) {f : TensorFact} (hf : a.outputFact k = .ok f) (hv : f.value.isSome) :
    ∀ e ∈ b.edgesFrom k, e.fact.Refines f := by
  have hfold : a.isFoldable k = .ok true :=
    (isFoldable_iff hw.toLinked (hw.lt k hk) hn hconst).2 ⟨f, hf, iff_of_true rfl (.inl hv)⟩
  have hcandidate {candidates : List Nat} (hcandidates : a.foldable = .ok candidates) : k ∈ candidates := by
    obtain ⟨-, rfl⟩ := filterM_eq_ok_iff.1 hcandidates
    exact List.mem_filter.2 ⟨hk, by rw [hfold]; rfl⟩
  cases h with
  | last hnone => cases hcandidate hnone
  | @round _ c _ candidates later count hcandidates _ heach hlater =>
    obtain ⟨hsub, -⟩ := foldable_spec hw hcandidates
    have hpair : candidates.Pairwise fun j i => i = k → k ≠ j ∧ ∀ e ∈ a.edgesFrom k, e.target ≠ some j := by
      refine ((pairwise_of_ordered hw.ordered).sublist hsub).imp ?_
      rintro j i ⟨hne, hp⟩ rfl
      refine ⟨hne, fun e he ht => ?_⟩
      obtain ⟨hmem, hs⟩ := mem_edgesFrom.1 he
      exact hp (hw.source_mem_producersAt hmem ht hs)
    have htold := foldEach_known hv hw hsub.subset heach hpair (hcandidate hcandidates) hf
    obtain ⟨hturned, -, -⟩ := round_turned hw hcandidates heach
    exact hlater.keeps hturned.toWellFormed (foldInvariant_told k f) htold

/-! ### Folding constants -/

theorem foldsIn_of_foldConstants {a c : Analysis} (hw : WellFormed a) {folded : List Nat}
    (h : a.foldConstants = (.ok folded, c)) : ∃ count b plan, FoldsIn count a folded b ∧
      c = { b with plan, stepIndex := 0 } ∧ WellFormed c ∧ Plan.Valid c.nodes c.output c.plan ∧ c.plan ⊆ a.plan := by
  have hfuel : a.unfolded.length < a.plan.length + 1 := Nat.lt_succ_of_le (List.length_filter_le _ _)
  rcases foldAll_cases hw hfuel with ⟨e, b, _, hb, -⟩ | ⟨count, is, b, -, hb, hfolds⟩
  · rw [foldConstants, foldPass, hb] at h
    cases h
  · have hturned := (hfolds.turned hw).1
    obtain ⟨plan, hplan, hvalid, hwc, hsub⟩ := resetPlan_spec hturned.toWellFormed
    rw [foldConstants, foldPass, hb] at h
    simp only [hplan] at h
    cases h
    exact ⟨count, b, plan, hfolds, rfl, hwc, hvalid, fun i hi => hturned.plan_eq ▸ hsub hi⟩

section

variable {r b : Analysis} (hw : WellFormed r) {folded : List Nat} (hb : r.foldConstants = (.ok folded, b))
  {k : Nat} (hk : k ∈ b.plan) {n : Node} (hn : r.nodes[k]? = some n)
include hw hb hk

theorem exists_outputFact_folded (hcompatible : Compatible (r.edgesFrom k)) : ∃ g, b.outputFact k = .ok g := by
  obtain ⟨-, -, -, -, -, hwb, -⟩ := foldsIn_of_foldConstants hw hb
  refine (exists_outputFact_iff hwb.toLinked (hwb.lt k hk)).2 ?_
  have hafter := ((foldInvariant_compatible k).foldConstants hw hcompatible).2
  rwa [hb] at hafter

theorem refines_of_told {f g : TensorFact} (hg : b.outputFact k = .ok g)
    (htold : ∀ e ∈ b.edgesFrom k, e.fact.Refines f) : g.Refines f := by
  obtain ⟨-, -, -, -, -, hwb, hvalid, -⟩ := foldsIn_of_foldConstants hw hb
  obtain ⟨e, he⟩ := List.exists_mem_of_ne_nil _ (edgesFrom_ne_nil hwb.toLinked hvalid hk)
  exact (outputFact_lower hwb.toLinked (hwb.lt k hk) hg e he).trans (htold e he)

include hn

/-- **Of a node that is no input nothing is lost**, and of an input no known value. -/
theorem refines_of_known (hlib : OfLibrary r) (hstable : r.Stable) {f g : TensorFact}
    (hf : r.outputFact k = .ok f) (hg : b.outputFact k = .ok g)
    (hcase : n.op.isPlaceholder = false ∨ f.value ≠ none) : g.Refines f := by
  obtain ⟨count, c, plan, hfolds, rfl, -, -, hsub⟩ := foldsIn_of_foldConstants hw hb
  refine refines_of_told hw hb hk hg ?_
  -- each edge says all from the start, unless there is a value to fold the node to
  by_cases hrest : n.op.isConst = true ∨ f.value = none
  · have hinput : n.op.isPlaceholder = false := by
      rcases hcase with hinput | hv
      · exact hinput
      · obtain ⟨t, hop⟩ := Operator.const_of_isConst (hrest.resolve_right hv)
        rw [hop]
        rfl
    obtain ⟨m, hm, hcontent⟩ := (stableAt_iff hw.toLinked).1 (hstable k (hsub hk))
    cases hn.symm.trans hm
    rw [outputFact_eq hw.toLinked (hw.lt k (hsub hk))] at hf
    have htold := hcontent.told (hlib n (List.mem_of_getElem? hn)) hinput hf hrest
    exact hfolds.keeps hw (foldInvariant_told k f) htold
  · rw [not_or, Bool.not_eq_true] at hrest
    obtain ⟨hconst, hv⟩ := hrest
    exact hfolds.known hw (hsub hk) hn hconst hf (Option.isSome_iff_ne_none.2 hv)

/-- **Of an input of which no value is known**, what stays known is what the edges say that
do not lead to folded nodes. -/
theorem refines_iff_toldBeside (hinput : n.op.isPlaceholder = true) {f g : TensorFact} (hf : r.outputFact k = .ok f)
    (hv : f.value = none) (hg : b.outputFact k = .ok g) : g.Refines f ↔ r.ToldBeside folded k f := by
  obtain ⟨count, c, plan, hfolds, rfl, hwb, -, hsub⟩ := foldsIn_of_foldConstants hw hb
  have hlt := hw.lt k (hsub hk)
  have hnone : ∀ e ∈ r.edgesFrom k, e.fact.value = none := by
    intro e he
    by_contra hne
    have hsome := (outputFact_value hw.toLinked hlt hf).2 ⟨e, he, Option.isSome_iff_ne_none.2 hne⟩
    rw [hv] at hsome
    cases hsome
  have hfrom : c.edgesFrom k = r.edgesBeside folded k :=
    hfolds.from_eq hw (hfolds.input_not_mem hw hn hinput hnone)
  rw [outputFact_eq hwb.toLinked (hwb.lt k hk)] at hg
  have hmeet : TensorFact.meetAll .unknown ((r.edgesBeside folded k).map Edge.fact) = .ok g := hfrom ▸ hg
  constructor
  · intro hgf
    exact ⟨g, hmeet, hgf⟩
  · rintro ⟨g', hg', hgf⟩
    cases hmeet.symm.trans hg'
    exact hgf

end

theorem settled_of_valueless {model : Model} {output : Int} {limit : Option Nat} {start r : Analysis}
    (hlib : ∀ n ∈ model.nodes, n.op.IsLibrary) (hstart : Analysis.start model output limit = .ok start)
    {xs : List Action} (hxs : ∀ x ∈ xs, x.Valueless) (hr : (start.afterAll xs).run = (.ok (), r)) : Settled r := by
  obtain ⟨hw₀, hvalid, -⟩ := start_spec hstart
  obtain ⟨hw, hforward⟩ := (Unvalued.start hlib hstart).forward.afterAll hw₀ hxs
  obtain ⟨hwr, hforwardr⟩ := runInvariant_forward.run hw hforward
  have hdown := (run_refines hw).2
  rw [hr] at hwr hforwardr hdown
  have hsame : SameGraph r start := hdown.toSameGraph.trans (afterAll_sameGraph hw₀ hxs)
  exact { hwr, hforwardr with
    valid := by rw [hsame.nodes, hsame.output, hsame.plan]; exact hvalid
    stable := stable_of_run hr }

/-- **What stays known through folding.** Take an analysis of a model of operators of the
library after any actions, a run that settles and folding that succeeds. The output of
each node of the new plan is known as precisely as before, unless the node is an input of
the model of which no value is known; then it is if and only if the edges out of it that
do not lead to folded nodes together say all that was known. If no action brings in a
value, what is known of these nodes stays the same. -/
theorem foldConstants_retains {model : Model} {output : Int} {limit : Option Nat} {start r b : Analysis}
    {folded : List Nat} (hlib : ∀ n ∈ model.nodes, n.op.IsLibrary)
    (hstart : Analysis.start model output limit = .ok start) (xs : List Action)
    (hr : (start.afterAll xs).run = (.ok (), r)) (hb : r.foldConstants = (.ok folded, b)) {k : Nat} {n : Node}
    (hk : k ∈ b.plan) (hn : r.nodes[k]? = some n) :
    ∃ f g, r.outputFact k = .ok f ∧ b.outputFact k = .ok g ∧
      (g.Refines f ↔ n.op.isPlaceholder = false ∨ f.value ≠ none ∨ r.ToldBeside folded k f) ∧
      ((∀ x ∈ xs, x.Valueless) → g = f) := by
  obtain ⟨hw, hlibr, hstable⟩ := settled_of_run hlib hstart hr
  obtain ⟨-, -, -, -, -, -, -, hsub⟩ := foldsIn_of_foldConstants hw hb
  have hcompatible : Compatible (r.edgesFrom k) := compatible_of_stableAt hw.toLinked (hstable k (hsub hk))
  obtain ⟨f, hf⟩ := (exists_outputFact_iff hw.toLinked (hw.lt k (hsub hk))).2 hcompatible
  obtain ⟨g, hg⟩ := exists_outputFact_folded hw hb hk hcompatible
  refine ⟨f, g, hf, hg, ?_, fun hxs => ?_⟩
  · by_cases hcase : n.op.isPlaceholder = false ∨ f.value ≠ none
    · have hgf := refines_of_known hw hb hk hn hlibr hstable hf hg hcase
      exact iff_of_true hgf (hcase.imp_right .inl)
    · rw [not_or, Bool.not_eq_false, not_ne_iff] at hcase
      obtain ⟨hinput, hv⟩ := hcase
      rw [refines_iff_toldBeside hw hb hk hn hinput hf hv hg]
      simp only [hinput, hv, Bool.true_eq_false, ne_eq, not_true_eq_false, false_or]
  · have hsettled := settled_of_valueless hlib hstart hxs hr
    obtain ⟨c, hc, hfold, hvalid, -⟩ := hsettled.foldConstants
    cases hb.symm.trans hc
    have heq := hfold.outputFact_eq hsettled (fun _ => Settled.mem_known) hvalid hk
    rw [hf, hg] at heq
    exact Except.ok.inj heq

/-- Of an input that is declared to be a pair this stays known when its positive part is
folded. -/
theorem fork_retains : ∃ a r b g, start (fork integerPairs) 2 none = .ok a ∧
    (a.afterAll [.hint 1 (.ofTensor (integerPair 1 2))]).run = (.ok (), r) ∧ r.foldConstants = (.ok [1], b) ∧
    0 ∈ b.plan ∧ r.outputFact 0 = .ok integerPairs ∧ b.outputFact 0 = .ok g ∧ g.Refines integerPairs := by
  obtain ⟨a, r, b, hstart, hrun, hfold, hplan, hnode, hf, htold⟩ : ∃ a r b,
      start (fork integerPairs) 2 none = .ok a ∧
      (a.afterAll [.hint 1 (.ofTensor (integerPair 1 2))]).run = (.ok (), r) ∧ r.foldConstants = (.ok [1], b) ∧
      0 ∈ b.plan ∧ r.nodes[0]? = some ⟨0, "x", "Placeholder", .placeholder integerPairs, []⟩ ∧
      r.outputFact 0 = .ok integerPairs ∧ r.ToldBeside [1] 0 integerPairs :=
    ⟨_, _, _, rfl, rfl, rfl, by decide, rfl, rfl, _, rfl, .refl _⟩
  obtain ⟨f, g, hf', hg, hiff, -⟩ := foldConstants_retains (fork_library rfl) hstart
    [.hint 1 (.ofTensor (integerPair 1 2))] hrun hfold hplan hnode
  cases hf.symm.trans hf'
  exact ⟨a, r, b, g, hstart, hrun, hfold, hplan, hf, hg, hiff.2 (.inr (.inr htold))⟩

/-- If it is not declared, this is known towards the positive part alone, and forgotten. -/
theorem fork_forgets : ∃ a r b f g, start (fork .unknown) 2 none = .ok a ∧
    (TensorFact.ofTensor (integerPair 1 2)).Coherent ∧
    (a.afterAll [.hint 1 (.ofTensor (integerPair 1 2))]).run = (.ok (), r) ∧ r.foldConstants = (.ok [1], b) ∧
    0 ∈ b.plan ∧ r.outputFact 0 = .ok f ∧ b.outputFact 0 = .ok g ∧ ¬ g.Refines f := by
  refine ⟨_, _, _, integerPairs, ⟨some (.elem (.int .w64)), .unknown, none⟩, rfl,
    TensorFact.coherent_ofTensor _, rfl, rfl, by decide, rfl, rfl, fun h => ?_⟩
  have hclosed := h.shape.1 rfl
  cases hclosed

end Analysis

end EdgeFacts
