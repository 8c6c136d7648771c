/-
# Folding what has settled

In an analysis that has settled, and in which values have only flowed forwards,
a node knows its output if all that flows into it is known. So folding turns into
constants exactly the planned nodes that know their outputs and are none yet, all
in one round: it leaves every fact as it is and takes away edges about which all
is known, so it makes no other node foldable (`Analysis.Settled.foldPass`). What
is left has settled again (`Analysis.Settled.foldConstants`), and what is known of
the nodes of the new plan is what was known of them before
(`Analysis.FoldedFrom.outputFact_eq`).

Key definitions: `Analysis.Settled`, `Analysis.isKnown`, `Analysis.FoldedFrom`.
Key theorems: `Analysis.Settled.isFoldable_eq`, `Analysis.FoldedFrom.asFolded`,
`Analysis.Settled.foldConstants`.
-/
import EdgeFacts.Proofs.Forward

namespace EdgeFacts

/-! ### Facts that tell all -/

namespace TensorFact

theorem meet_exact_of_refines {f : TensorFact} {v : Tensor} (h : (ofTensor v).Refines f)
    (hv : f.value = none ∨ f.value = some v) : f.meet (ofTensor v) = .ok (ofTensor v) := by
  obtain ⟨m, hm, -⟩ := isMeet.greatest h (.refl (ofTensor v))
  have hvalue : m.value = some v := by
    rcases hv with hv | hv
    · exact value_of_meet_left hm hv
    · have hmeet := (meet_eq_ok hm).2.2
      rw [hv] at hmeet
      simp only [ofTensor, meetValue] at hmeet
      split at hmeet
      · exact (Except.ok.inj hmeet).symm
      · cases hmeet
  rw [hm, (isMeet.lower hm).2.eq_ofTensor hvalue]

theorem meetAll_exact {v : Tensor} : ∀ {fs : List TensorFact}, fs ≠ [] → (∀ f ∈ fs, f = ofTensor v) →
    meetAll .unknown fs = .ok (ofTensor v) := by
  have hrest : ∀ {fs : List TensorFact}, (∀ f ∈ fs, f = ofTensor v) →
      meetAll (ofTensor v) fs = .ok (ofTensor v) := by
    intro fs h
    induction fs with
    | nil => rfl
    | cons f fs ih =>
      obtain rfl := h f (.head _)
      exact meetAll_cons.2 ⟨_, meet_exact_of_refines (.refl _) (.inr rfl), ih fun g hg => h g (.tail _ hg)⟩
  intro fs hne h
  cases fs with
  | nil => exact absurd rfl hne
  | cons f fs =>
    obtain rfl := h f (.head _)
    exact meetAll_cons.2 ⟨_, meet_exact_of_refines (refines_unknown _) (.inl rfl),
      hrest fun g hg => h g (.tail _ hg)⟩

end TensorFact

/-- A constant has nothing to add where all is known on the edges out of it. -/
theorem content_const {v : Tensor} {es : List Edge} (hport : OnePort es)
    (h : ∀ e ∈ es, e.fact = .ofTensor v) : Content (.const v) [] es := by
  obtain ⟨y, hy⟩ := compatible_iff.1 (compatible_of_forall_eq h)
  refine ⟨[], .ofTensor v, ⟨hport, ⟨y, hy, rfl⟩, rfl⟩, fun x hx => ?_⟩
  rcases (mem_pairsFor rfl).1 hx with hx | ⟨e, he, rfl⟩
  · cases hx
  · rw [h e he]
    exact ⟨_, TensorFact.meet_exact_of_refines (.refl _) (.inr rfl), TensorFact.same_of_refines_ofTensor (.refl _)⟩

namespace Analysis

/-! ### What is known of an output -/

section

variable {a b : Analysis} {i : Nat}

theorem exists_outputFact_iff (hl : Linked a) (hi : i < a.nodes.length) :
    (∃ f, a.outputFact i = .ok f) ↔ Compatible (a.edgesFrom i) := by
  rw [outputFact_eq hl hi]
  exact compatible_iff.symm

/-- Whether a node can be folded depends on it and the edges around it alone. -/
theorem isFoldable_congr (ha : Linked a) (hb : Linked b) (hi : i < a.nodes.length)
    (hnode : a.nodes[i]? = b.nodes[i]?) (hinto : a.edgesInto i = b.edgesInto i)
    (hfrom : a.edgesFrom i = b.edgesFrom i) : a.isFoldable i = b.isFoldable i := by
  have hib : i < b.nodes.length := by
    rw [List.getElem?_eq_getElem hi] at hnode
    exact (List.getElem?_eq_some_iff.1 hnode.symm).1
  simp only [isFoldable, itemAt, hnode, outputFact_eq ha hi, outputFact_eq hb hib, knownInputs_eq ha hi,
    knownInputs_eq hb hib, hinto, hfrom]

theorem exists_edge_of_required (hl : Linked a) (hi : Plan.Required a.nodes a.output.toNat i) :
    ∃ e ∈ a.edgesFrom i, ∀ k, e.target = some k → Plan.Required a.nodes a.output.toNat k := by
  cases hi with
  | output =>
    obtain ⟨e, he, ho, ht⟩ := hl.terminal
    exact ⟨e, mem_edgesFrom.2 ⟨he, congrArg Prod.fst ho⟩, fun k hk => nomatch ht.symm.trans hk⟩
  | @producer k _ hk hp =>
    obtain ⟨n, hn, x, hx, rfl⟩ := Plan.mem_producersAt.1 hp
    have horigin : x.origin ∈ (a.edgesInto k).map Edge.origin := by
      have hinputs : (a.edgesInto k).map Edge.origin = n.inputs.map Input.origin := hl.inputs k n hn
      rw [hinputs]
      exact List.mem_map_of_mem hx
    obtain ⟨e, he, ho⟩ := List.mem_map.1 horigin
    obtain ⟨hmem, ht⟩ := mem_edgesInto.1 he
    refine ⟨e, mem_edgesFrom.2 ⟨hmem, congrArg Prod.fst ho⟩, fun k' hk' => ?_⟩
    exact Option.some.inj (ht.symm.trans hk') ▸ hk

theorem edgesFrom_ne_nil_of_required (hl : Linked a) (hi : Plan.Required a.nodes a.output.toNat i) :
    a.edgesFrom i ≠ [] := by
  obtain ⟨e, he, -⟩ := exists_edge_of_required hl hi
  exact List.ne_nil_of_mem he

theorem edgesFrom_ne_nil (hl : Linked a) (hv : Plan.Valid a.nodes a.output a.plan) (hi : i ∈ a.plan) :
    a.edgesFrom i ≠ [] := edgesFrom_ne_nil_of_required hl ((hv.mem_iff i).1 hi)

/-- Whether a node is no constant and its output is known. -/
def isKnown (a : Analysis) (i : Nat) : Bool :=
  match a.nodes[i]?, a.outputFact i with
  | some n, .ok f => !n.op.isConst && f.value.isSome
  | _, _ => false

end

/-! ### Settled analyses -/

/-- Whether an analysis has come to rest with a plan of what its output needs,
and values have only flowed forwards. -/
structure Settled (a : Analysis) : Prop extends WellFormed a, Forward a where
  valid : Plan.Valid a.nodes a.output a.plan
  stable : a.Stable

namespace Settled

variable {r : Analysis} (h : Settled r) {i : Nat}
include h

theorem outputFact_of_valued (hi : i ∈ r.plan) {v : Tensor} (hv : r.Valued i v) :
    r.outputFact i = .ok (.ofTensor v) := by
  rw [outputFact_eq h.toLinked (h.lt i hi)]
  refine TensorFact.meetAll_exact ?_ fun f hf => ?_
  · simpa using edgesFrom_ne_nil h.toLinked h.valid hi
  · obtain ⟨e, he, rfl⟩ := List.mem_map.1 hf
    exact hv.after e he

theorem exists_outputFact (hi : i < r.nodes.length) : ∃ f, r.outputFact i = .ok f := by
  refine (exists_outputFact_iff h.toLinked hi).2 ?_
  by_cases hplan : i ∈ r.plan
  · exact compatible_of_stableAt h.toLinked (h.stable i hplan)
  · obtain ⟨g, -, hg⟩ := h.unplanned i hplan
    exact compatible_of_forall_eq hg

theorem valued_of_known (hi : i ∈ r.plan) {f : TensorFact} (hf : r.outputFact i = .ok f)
    (hv : f.value.isSome) : ∃ v, r.Valued i v := by
  rw [outputFact_eq h.toLinked (h.lt i hi)] at hf
  refine (h.planned i hi).resolve_left fun hnone => ?_
  rcases TensorFact.value_of_meetAll hf hv with hs | ⟨g, hg, hgv⟩
  · cases hs
  · obtain ⟨e, he, rfl⟩ := List.mem_map.1 hg
    rw [hnone e he] at hgv
    cases hgv

/-- **Known inputs are enough**: with them the output is known. -/
theorem valued_of_knownInputs (hi : i ∈ r.plan) {n : Node} (hn : r.nodes[i]? = some n)
    (hop : n.op.isPlaceholder = false) {us : List Tensor}
    (hus : ((r.edgesInto i).map Edge.fact).mapM TensorFact.value = some us) : ∃ v, r.Valued i v := by
  refine (h.planned i hi).resolve_left fun hnone => ?_
  obtain ⟨m, hm, ins, out, hinfers, hcontent⟩ := (stableAt_iff h.toLinked).1 (h.stable i hi)
  cases hn.symm.trans hm
  obtain ⟨y, -, href⟩ := hinfers.refine_eq
  obtain ⟨v, hv⟩ : ∃ v, out.value = some v := by
    rcases Operator.refine_knownOutput (h.library n (List.mem_of_getElem? hn)) href with ⟨hp, -⟩ | ⟨-, hk⟩
    · rw [hop] at hp
      cases hp
    · rw [knownOutput, hus] at hk
      obtain ⟨v, -, hv⟩ := map_eq_ok_iff.1 hk
      exact ⟨v, hv.symm⟩
  obtain ⟨e, he⟩ := List.exists_mem_of_ne_nil _ (edgesFrom_ne_nil h.toLinked h.valid hi)
  obtain ⟨x, hx, hsame⟩ := hcontent (out, e) ((mem_pairsFor hinfers.length_eq).2 (.inr ⟨e, he, rfl⟩))
  have hxv : x.value = some v := (TensorFact.value_of_meet_right hx (hnone e he)).trans hv
  obtain ⟨w, hw, -⟩ := (TensorFact.same_iff_refines.1 hsame).2.value v hxv
  cases (hnone e he).symm.trans hw

theorem valued_of_const (hi : i ∈ r.plan) {n : Node} (hn : r.nodes[i]? = some n) {t : Tensor}
    (hop : n.op = .const t) : r.Valued i t ∧ r.edgesInto i = [] := by
  have hplaceholder : n.op.isPlaceholder = false := by rw [hop]; rfl
  have hinto : r.edgesInto i = [] := by
    obtain ⟨m, hm, ins, out, hinfers, -⟩ := (stableAt_iff h.toLinked).1 (h.stable i hi)
    cases hn.symm.trans hm
    obtain ⟨y, -, href⟩ := hinfers.refine_eq
    rw [hop] at href
    cases hcase : (r.edgesInto i).map Edge.fact with
    | nil => exact List.map_eq_nil_iff.1 hcase
    | cons f fs =>
      rw [hcase] at href
      cases href
  have hknown : ((r.edgesInto i).map Edge.fact).mapM TensorFact.value = some [] := by
    rw [hinto]
    rfl
  obtain ⟨v, hv⟩ := h.valued_of_knownInputs hi hn hplaceholder hknown
  obtain ⟨m, us, hm, hus, he⟩ := hv.before
  cases hn.symm.trans hm
  rw [hinto] at hus
  obtain rfl : us = [] := List.map_eq_nil_iff.1 hus.symm
  rw [hop] at he
  cases he
  exact ⟨hv, hinto⟩

/-- **What can be folded is what is known.** -/
theorem isFoldable_eq (hi : i ∈ r.plan) : r.isFoldable i = .ok (r.isKnown i) := by
  have hlt := h.lt i hi
  obtain ⟨n, hn⟩ := h.exists_node hi
  obtain ⟨f, hf⟩ := h.exists_outputFact hlt
  have hknown : r.isKnown i = (!n.op.isConst && f.value.isSome) := by simp only [isKnown, hn, hf]
  cases hconst : n.op.isConst with
  | true => rw [isFoldable_const hn hconst, hknown, hconst, Bool.not_true, Bool.false_and]
  | false =>
    refine (isFoldable_iff h.toLinked hlt hn hconst).2 ⟨f, hf, ?_⟩
    rw [hknown, hconst, Bool.not_false, Bool.true_and, iff_self_or]
    rintro ⟨-, hstateless, hall⟩
    obtain ⟨us, hus⟩ := Option.isSome_iff_exists.1 (mapM_value_isSome.2 (List.forall_mem_map.2 hall))
    -- only a source can have an output that is not known
    have hplaceholder := Operator.isPlaceholder_of_isStateless hstateless
    obtain ⟨v, hv⟩ := h.valued_of_knownInputs hi hn hplaceholder hus
    cases hf.symm.trans (h.outputFact_of_valued hi hv)
    rfl

theorem foldable_eq : r.foldable = .ok (r.plan.filter r.isKnown) := by
  refine filterM_eq_ok_iff.2 ⟨fun i hi => ⟨_, h.isFoldable_eq hi⟩, ?_⟩
  refine List.filter_congr fun i hi => ?_
  rw [h.isFoldable_eq hi]
  rfl

theorem valued_of_isKnown (hi : i ∈ r.plan) (hk : r.isKnown i = true) : ∃ v, r.Valued i v := by
  obtain ⟨n, hn⟩ := h.exists_node hi
  obtain ⟨f, hf⟩ := h.exists_outputFact (h.lt i hi)
  simp only [isKnown, hn, hf, Bool.and_eq_true] at hk
  exact h.valued_of_known hi hf hk.2

end Settled

/-! ### What folding leaves -/

/-- The analysis in which a node is folded to a value keeps the edges out of
another node, but for those into the folded one. -/
theorem asFolded_from {a : Analysis} {i k : Nat} (value : Tensor) :
    (a.asFolded i value).edgesFrom k = (a.edgesFrom k).filter fun e => e.target ≠ some i := by
  have htest : ((fun e : Edge => decide (e.source = some k)) ∘ Edge.cut i) =
      fun e => decide (e.target ≠ some i) && decide (e.source = some k) := by
    funext e
    rw [Function.comp_apply, ← Bool.decide_and, decide_eq_decide]
    unfold Edge.cut
    split
    · rename_i ht
      simp [Edge.detached, ht]
    · rename_i ht
      simp [ht]
  simp only [edgesFrom, asFolded, List.filter_map, htest, List.filter_filter]
  refine (List.map_congr_left fun e he => ?_).trans (List.map_id _)
  have ht := (List.mem_filter.1 he).2
  simp only [Bool.and_eq_true, decide_eq_true_eq] at ht
  exact Edge.cut_of_ne ht.1

/-- Whether an analysis is what is left of another when some of its nodes, around
which all was known, have become constants. -/
structure FoldedFrom (r : Analysis) (done : List Nat) (a : Analysis) : Prop extends WellFormed a where
  output_eq : a.output = r.output
  roundLimit_eq : a.roundLimit = r.roundLimit
  plan_subset : a.plan ⊆ r.plan
  others : ∀ k, k ∉ done → a.nodes[k]? = r.nodes[k]?
  folded : ∀ k ∈ done, ∃ n v, r.nodes[k]? = some n ∧ r.Valued k v ∧ a.nodes[k]? = some (asConst v n)
  into_eq : ∀ k, a.edgesInto k = if k ∈ done then [] else r.edgesInto k
  from_eq : ∀ k, a.edgesFrom k = (r.edgesFrom k).filter fun e => ∀ d ∈ done, e.target ≠ some d

theorem FoldedFrom.refl {r : Analysis} (hw : WellFormed r) : FoldedFrom r [] r :=
  { hw with
    output_eq := rfl
    roundLimit_eq := rfl
    plan_subset := fun _ hi => hi
    others := fun _ _ => rfl
    folded := fun _ hk => (nomatch hk)
    into_eq := fun k => (if_neg List.not_mem_nil).symm
    from_eq := fun k => by simp }

/-- A node out of which flows what all its edges tell becomes a constant, and no fact changes. -/
theorem applyFold_of_exact {a : Analysis} (hl : Linked a) {j : Nat} (hj : j < a.nodes.length) {v : Tensor}
    (hexact : ∀ e ∈ a.edgesFrom j, e.fact = .ofTensor v) (hne : a.edgesFrom j ≠ []) :
    a.applyFold j = .ok (a.asFolded j v) := by
  have hout : a.outputFact j = .ok (.ofTensor v) := by
    rw [outputFact_eq hl hj]
    refine TensorFact.meetAll_exact (by simpa using hne) fun f hf => ?_
    obtain ⟨e, he, rfl⟩ := List.mem_map.1 hf
    exact hexact e he
  have hmeets : List.Forall₂ (Combined a) ((((a.edgesFrom j).map Edge.id).map fun _ => .ofTensor v).zip
      ((a.edgesFrom j).map Edge.id)) ((a.edgesFrom j).map fun e => (e.id, .ofTensor v)) := by
    rw [zip_const, List.map_map, List.forall₂_map_left_iff, List.forall₂_map_right_iff, List.forall₂_same]
    intro e he
    refine ⟨rfl, e.fact, factOf_of_getElem? (hl.getElem?_id (mem_edgesFrom.1 he).1), ?_⟩
    rw [hexact e he]
    exact TensorFact.meet_exact_of_refines (.refl _) (.inr rfl)
  have hunchanged : (a.commit ((a.edgesFrom j).map fun e => (e.id, .ofTensor v))).2 = a := by
    refine commit_unchanged (commitEdges_eq_false_iff.2 fun p hp d hd => ?_)
    obtain ⟨e, he, rfl⟩ := List.mem_map.1 hp
    cases hd.symm.trans (hl.getElem?_id (mem_edgesFrom.1 he).1)
    rw [hexact d he]
    exact TensorFact.same_of_refines_ofTensor (.refl _)
  refine applyFold_eq_ok_iff.2 ⟨_, hout, .inl ⟨v, rfl, ?_⟩⟩
  exact (foldNode_eq_ok_iff hl).2 ⟨j, _, ⟨rfl, hj⟩, hmeets, by rw [hunchanged]⟩

/-- **A step of folding**: one more node around which all is known is a constant. -/
theorem FoldedFrom.asFolded {r a : Analysis} {done : List Nat} (h : FoldedFrom r done a) {j : Nat}
    (hj : j < r.nodes.length) {v : Tensor} (hv : r.Valued j v) (hnew : j ∉ done) :
    FoldedFrom r (j :: done) (a.asFolded j v) := by
  obtain ⟨n, hn⟩ : ∃ n, r.nodes[j]? = some n := ⟨_, List.getElem?_eq_getElem hj⟩
  have hna : a.nodes[j]? = some n := (h.others j hnew).trans hn
  refine { asFolded_wellFormed h.toWellFormed v with
    output_eq := h.output_eq
    roundLimit_eq := h.roundLimit_eq
    plan_subset := h.plan_subset
    others := fun k hk => ?_
    folded := fun k hk => ?_
    into_eq := fun k => ?_
    from_eq := fun k => ?_ }
  · rw [List.mem_cons, not_or] at hk
    rw [← h.others k hk.2]
    exact (List.getElem?_modify ..).trans (by simp [Ne.symm hk.1])
  · rcases List.mem_cons.1 hk with rfl | hk
    · exact ⟨n, v, hn, hv, asFolded_getElem?.2 ⟨n, hna, (if_pos rfl).symm⟩⟩
    · obtain ⟨m, u, hm, hu, hma⟩ := h.folded k hk
      have hkj : k ≠ j := fun heq => hnew (heq ▸ hk)
      exact ⟨m, u, hm, hu, asFolded_getElem?.2 ⟨_, hma, (if_neg hkj).symm⟩⟩
  · rw [asFolded_into, h.into_eq]
    by_cases hkj : k = j <;> simp [hkj]
  · rw [asFolded_from, h.from_eq, List.filter_filter]
    refine List.filter_congr fun e _ => ?_
    simp

theorem FoldedFrom.edgesFrom_eq {r a : Analysis} {done : List Nat} (h : FoldedFrom r done a) (hl : Linked r)
    {j : Nat} (hlast : ∀ d ∈ done, j ∉ Plan.producersAt r.nodes d) : a.edgesFrom j = r.edgesFrom j := by
  rw [h.from_eq, List.filter_eq_self]
  intro e he
  obtain ⟨he, hs⟩ := mem_edgesFrom.1 he
  simpa using fun d hd ht => hlast d hd (hl.source_mem_producersAt he ht hs)

/-- Nodes around which all is known are folded one after the other, if none of
them is used by one before it. -/
theorem FoldedFrom.foldEach {r : Analysis} (hl : Linked r) : ∀ {is done : List Nat} {a : Analysis},
    FoldedFrom r done a → (∀ i ∈ is, i < r.nodes.length ∧ (∃ v, r.Valued i v) ∧ r.edgesFrom i ≠ []) →
    (is.Pairwise fun j i => i ≠ j ∧ i ∉ Plan.producersAt r.nodes j) →
    (∀ i ∈ is, ∀ d ∈ done, i ≠ d ∧ i ∉ Plan.producersAt r.nodes d) →
    ∃ b, Analysis.foldEach is a = (.ok (), b) ∧ b.plan = a.plan ∧ FoldedFrom r (is.reverse ++ done) b
  | [], done, a, h, _, _, _ => ⟨a, rfl, rfl, h⟩
  | j :: is, done, a, h, hval, hpair, hlater => by
    obtain ⟨hj, ⟨v, hv⟩, hne⟩ := hval j (.head _)
    obtain ⟨hfirst, hrest⟩ := List.pairwise_cons.1 hpair
    have hnew : j ∉ done := fun hmem => (hlater j (.head _) j hmem).1 rfl
    have hfrom := h.edgesFrom_eq hl fun d hd => (hlater j (.head _) d hd).2
    have hja : j < a.nodes.length := by
      obtain ⟨n, hn⟩ : ∃ n, r.nodes[j]? = some n := ⟨_, List.getElem?_eq_getElem hj⟩
      exact (List.getElem?_eq_some_iff.1 ((h.others j hnew).trans hn)).1
    have happly : a.applyFold j = .ok (a.asFolded j v) :=
      applyFold_of_exact h.toLinked hja (hfrom ▸ hv.after) (hfrom ▸ hne)
    have hstep := h.asFolded hj hv hnew
    obtain ⟨b, hb, hplan, hfold⟩ := foldEach hl hstep (fun i hi => hval i (.tail _ hi)) hrest
      fun i hi => List.forall_mem_cons.2 ⟨hfirst i hi, hlater i (.tail _ hi)⟩
    refine ⟨b, ?_, hplan, ?_⟩
    · rw [Analysis.foldEach, happly]
      exact hb
    · rw [List.reverse_cons, List.append_assoc]
      exact hfold

namespace FoldedFrom

variable {r b : Analysis} {done : List Nat} (h : FoldedFrom r done b) (hr : Settled r)
  (hdone : ∀ k, k ∈ done ↔ k ∈ r.plan ∧ r.isKnown k = true)
include h hr hdone

theorem from_of_unknown {k : Nat} (hk : k ∈ r.plan) (hval : ∀ v, ¬ r.Valued k v) :
    b.edgesFrom k = r.edgesFrom k := by
  rw [h.from_eq, List.filter_eq_self]
  intro e he
  simp only [decide_eq_true_eq]
  intro d hd ht
  obtain ⟨he, hs⟩ := mem_edgesFrom.1 he
  obtain ⟨hdplan, hknown⟩ := (hdone d).1 hd
  obtain ⟨w, hw⟩ := hr.valued_of_isKnown hdplan hknown
  obtain ⟨u, hu⟩ := hw.exact_into e (mem_edgesInto.2 ⟨he, ht⟩)
  rcases hr.planned k hk with hnone | ⟨v, hv⟩
  · have hev := hnone e (mem_edgesFrom.2 ⟨he, hs⟩)
    rw [hu] at hev
    cases hev
  · exact hval v hv

/-- The planned nodes after folding: constants that all knew, and nodes that are as they were. -/
theorem node_cases {k : Nat} (hk : k ∈ r.plan) :
    (∃ v n, r.Valued k v ∧ b.nodes[k]? = some n ∧ n.op = .const v ∧ b.edgesInto k = []) ∨
      (b.nodes[k]? = r.nodes[k]? ∧ r.isKnown k = false ∧ b.edgesInto k = r.edgesInto k ∧
        b.edgesFrom k = r.edgesFrom k) := by
  by_cases hkd : k ∈ done
  · obtain ⟨n, v, -, hv, hnode⟩ := h.folded k hkd
    exact .inl ⟨v, _, hv, hnode, rfl, by rw [h.into_eq, if_pos hkd]⟩
  · obtain ⟨n, hn⟩ := hr.exists_node hk
    have hnode := h.others k hkd
    have hinto : b.edgesInto k = r.edgesInto k := by rw [h.into_eq, if_neg hkd]
    cases hop : n.op.isConst with
    | true =>
      obtain ⟨t, ht⟩ := Operator.const_of_isConst hop
      obtain ⟨hv, hnil⟩ := hr.valued_of_const hk hn ht
      exact .inl ⟨t, n, hv, hnode.trans hn, ht, hinto.trans hnil⟩
    | false =>
      have hunknown : r.isKnown k = false := by
        by_contra hknown
        exact hkd ((hdone k).2 ⟨hk, by simpa using hknown⟩)
      refine .inr ⟨hnode, hunknown, hinto, h.from_of_unknown hr hdone hk fun v hv => ?_⟩
      simp [isKnown, hn, hop, hr.outputFact_of_valued hk hv, TensorFact.ofTensor] at hunknown

theorem isFoldable_eq_false {k : Nat} (hk : k ∈ r.plan) : b.isFoldable k = .ok false := by
  rcases h.node_cases hr hdone hk with ⟨v, n, -, hn, hop, -⟩ | ⟨hnode, hunknown, hinto, hfrom⟩
  · simp only [isFoldable, itemAt_eq_ok_iff.2 hn, hop, Operator.isConst, bind, Except.bind]
    rfl
  · have hlt : k < b.nodes.length := by
      rw [List.getElem?_eq_getElem (hr.lt k hk)] at hnode
      exact (List.getElem?_eq_some_iff.1 hnode).1
    rw [isFoldable_congr h.toLinked hr.toLinked hlt hnode hinto hfrom, hr.isFoldable_eq hk, hunknown]

theorem stable : b.Stable := by
  intro k hk
  have hkr := h.plan_subset hk
  obtain ⟨m, hm, hcontent⟩ := (stableAt_iff hr.toLinked).1 (hr.stable k hkr)
  refine (stableAt_iff h.toLinked).2 ?_
  rcases h.node_cases hr hdone hkr with ⟨v, n, hv, hn, hop, hinto⟩ | ⟨hnode, -, hinto, hfrom⟩
  · refine ⟨n, hn, ?_⟩
    obtain ⟨ins, out, hinfers, -⟩ := hcontent
    have hsub : b.edgesFrom k ⊆ r.edgesFrom k := by
      rw [h.from_eq]
      exact List.filter_subset_self _
    rw [hop, hinto]
    exact content_const (hinfers.onePort.of_subset hsub) fun e he => hv.after e (hsub he)
  · exact ⟨m, hnode.trans hm, by rw [hinto, hfrom]; exact hcontent⟩

/-- **What is known of a planned node stays known.** -/
theorem outputFact_eq (hvalid : Plan.Valid b.nodes b.output b.plan) {k : Nat} (hk : k ∈ b.plan) :
    b.outputFact k = r.outputFact k := by
  have hkr := h.plan_subset hk
  rw [Analysis.outputFact_eq h.toLinked (h.lt k hk)]
  rcases h.node_cases hr hdone hkr with ⟨v, -, hv, -, -, -⟩ | ⟨-, -, -, hfrom⟩
  · rw [hr.outputFact_of_valued hkr hv]
    refine TensorFact.meetAll_exact ?_ fun f hf => ?_
    · simpa using edgesFrom_ne_nil h.toLinked hvalid hk
    · obtain ⟨e, he, rfl⟩ := List.mem_map.1 hf
      rw [h.from_eq] at he
      exact hv.after e (List.mem_filter.1 he).1
  · rw [hfrom, Analysis.outputFact_eq hr.toLinked (hr.lt k hkr)]

end FoldedFrom

/-! ### Folding constants -/

namespace Settled

variable {r : Analysis} (h : Settled r)
include h

omit h in
theorem mem_known {k : Nat} : k ∈ (r.plan.filter r.isKnown).reverse ↔ k ∈ r.plan ∧ r.isKnown k = true := by
  rw [List.mem_reverse, List.mem_filter]

/-- **One round folds all that is known**, and nothing more can be folded. -/
theorem foldPass : ∃ b, r.foldPass = (.ok (r.plan.filter r.isKnown), b) ∧
    FoldedFrom r (r.plan.filter r.isKnown).reverse b := by
  have hpair := (pairwise_of_ordered h.ordered).sublist (List.filter_sublist (p := r.isKnown))
  obtain ⟨b, hb, hplan, hfold⟩ := (FoldedFrom.refl h.toWellFormed).foldEach h.toLinked
    (fun i hi => by
      obtain ⟨hi, hk⟩ := List.mem_filter.1 hi
      exact ⟨h.lt i hi, h.valued_of_isKnown hi hk, edgesFrom_ne_nil h.toLinked h.valid hi⟩)
    hpair fun i _ d hd => (nomatch hd)
  rw [List.append_nil] at hfold
  have hdone := fun k => mem_known (r := r) (k := k)
  have hnone : b.foldable = .ok [] := by
    refine filterM_eq_ok_iff.2 ⟨fun k hk => ⟨_, hfold.isFoldable_eq_false h hdone (hplan ▸ hk)⟩, ?_⟩
    refine (List.filter_eq_nil_iff.2 fun k hk => ?_).symm
    rw [hfold.isFoldable_eq_false h hdone (hplan ▸ hk)]
    exact Bool.false_ne_true
  rw [Analysis.foldPass, foldAll, h.foldable_eq]
  cases hcase : r.plan.filter r.isKnown with
  | nil =>
    rw [hcase] at hb hfold
    cases hb
    exact ⟨r, rfl, hfold⟩
  | cons i is =>
    rw [hcase] at hb hfold
    refine ⟨b, ?_, hfold⟩
    have hlater : foldAll r.plan.length b = (.ok [], b) := by
      cases r.plan.length with
      | zero => rfl
      | succ fuel => rw [foldAll, hnone]
    simp only [hb, hlater, List.append_nil]

/-- **Folding constants** gives the planned nodes that are no constants and know
their outputs. What is left has a plan of what the output needs, and no node of
it has anything to add. -/
theorem foldConstants : ∃ b, r.foldConstants = (.ok (r.plan.filter r.isKnown), b) ∧
    FoldedFrom r (r.plan.filter r.isKnown).reverse b ∧ Plan.Valid b.nodes b.output b.plan ∧ b.Stable := by
  obtain ⟨c, hc, hfold⟩ := h.foldPass
  obtain ⟨plan, hplan, hvalid, hw, hsub⟩ := resetPlan_spec hfold.toWellFormed
  have hreplanned : FoldedFrom r (r.plan.filter r.isKnown).reverse { c with plan, stepIndex := 0 } :=
    { hw with
      output_eq := hfold.output_eq
      roundLimit_eq := hfold.roundLimit_eq
      plan_subset := fun i hi => hfold.plan_subset (hsub hi)
      others := hfold.others
      folded := hfold.folded
      into_eq := hfold.into_eq
      from_eq := hfold.from_eq }
  refine ⟨_, ?_, hreplanned, hvalid, hreplanned.stable h fun _ => mem_known⟩
  rw [Analysis.foldConstants, hc]
  simp only [hplan]

end Settled

end Analysis

end EdgeFacts
