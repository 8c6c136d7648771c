/-
# Folding keeps an execution

Take an execution that the facts admit. A node that can be folded has a known
output, or known inputs that its operator evaluates; either way it is folded to
the value that it has in the execution (`Analysis.Sound.exists_applyFold`). The
nodes of one round of folding are folded in the order of the plan, so no fold
takes away what makes a later one possible (`Analysis.Foldable.of_asFolded`).
So folding never fails and keeps the execution (`Analysis.Sound.exists_foldConstants`).

Key definitions: `Analysis.Foldable`.
Key theorems: `Analysis.Sound.exists_applyFold`, `Analysis.Sound.exists_foldEach`,
`Analysis.Sound.exists_foldConstants`.
-/
import EdgeFacts.Proofs.Reachable
import EdgeFacts.Proofs.Sound

namespace EdgeFacts

/-! ### Known values -/

theorem TensorFact.value_of_meet {a b c : TensorFact} (h : a.meet b = .ok c) (hc : c.value.isSome) :
    a.value.isSome ∨ b.value.isSome := by
  simp only [meet, bind_eq_ok_iff, pure_eq_ok] at h
  obtain ⟨d, -, s, -, v, hv, h⟩ := h
  cases h
  cases ha : a.value with
  | some t => exact .inl rfl
  | none =>
    rw [ha, meetValue.eq_def] at hv
    cases hv
    exact .inr hc

theorem TensorFact.value_of_meetAll : ∀ {fs : List TensorFact} {start out : TensorFact},
    TensorFact.meetAll start fs = .ok out → out.value.isSome →
    start.value.isSome ∨ ∃ f ∈ fs, f.value.isSome
  | [], start, out, h, ho => by
    cases h
    exact .inl ho
  | f :: fs, start, out, h, ho => by
    obtain ⟨g, hg, h⟩ := meetAll_cons.1 h
    rcases value_of_meetAll h ho with hs | ⟨k, hk, hkv⟩
    · rcases value_of_meet hg hs with hs | hf
      · exact .inl hs
      · exact .inr ⟨f, .head _, hf⟩
    · exact .inr ⟨k, .tail _ hk, hkv⟩

theorem TensorFact.Refines.value_isSome {a b : TensorFact} (h : a.Refines b) (hb : b.value.isSome) :
    a.value.isSome := by
  obtain ⟨v, hv⟩ := Option.isSome_iff_exists.1 hb
  obtain ⟨u, hu, -⟩ := h.value v hv
  rw [hu]
  rfl

namespace Analysis

/-- Whether a node can be folded: it is no constant yet, and its value is known on
an edge out of it, or it has inputs, all of them known, and needs nothing else. -/
def Foldable (a : Analysis) (i : Nat) : Prop :=
  ∃ n, a.nodes[i]? = some n ∧ n.op.isConst = false ∧
    ((∃ e ∈ a.edgesFrom i, e.fact.value.isSome) ∨
      n.inputs ≠ [] ∧ n.op.isStateless = true ∧ ∀ e ∈ a.edgesInto i, e.fact.value.isSome)

theorem knownInputs_eq {a : Analysis} (hl : Linked a) {i : Nat} (hi : i < a.nodes.length) :
    a.knownInputs i = .ok (((a.edgesInto i).map Edge.fact).mapM TensorFact.value) := by
  have hfacts := factsOf_edges hl fun e (he : e ∈ a.edgesInto i) => (mem_edgesInto.1 he).1
  simp only [knownInputs, itemAt_eq_ok_iff.2 (hl.incoming_getElem? hi), bind, Except.bind, hfacts]
  rfl

theorem mapM_value_isSome {fs : List TensorFact} :
    (fs.mapM TensorFact.value).isSome ↔ ∀ f ∈ fs, f.value.isSome := by
  rw [Option.isSome_iff_exists]
  constructor
  · rintro ⟨ts, hts⟩ f hf
    obtain ⟨k, hk, rfl⟩ := List.mem_iff_getElem.1 hf
    have hall := mapM_eq_some_iff.1 hts
    have := hall.get hk (hall.length_eq ▸ hk)
    simp only [List.get_eq_getElem] at this
    rw [this]
    rfl
  · intro h
    obtain ⟨ts, hts⟩ := exists_forall₂_of_forall fun f hf => Option.isSome_iff_exists.1 (h f hf)
    exact ⟨ts, mapM_eq_some_iff.2 hts⟩

section

variable {a : Analysis} {i : Nat} (hl : Linked a) (hi : i < a.nodes.length)
include hl hi

theorem outputFact_eq : a.outputFact i = TensorFact.meetAll .unknown ((a.edgesFrom i).map Edge.fact) := by
  have hfacts := factsOf_edges hl fun e (he : e ∈ a.edgesFrom i) => (mem_edgesFrom.1 he).1
  have hindex : a.nodeIndex i = .ok i := nodeIndex_eq_ok_iff.2 ⟨rfl, hi⟩
  simp only [outputFact, hindex, bind, Except.bind, itemAt_eq_ok_iff.2 (hl.outgoing_getElem? hi), hfacts]

/-- What is known of an output says all that is known on the edges out of the node. -/
theorem outputFact_lower {f : TensorFact} (hf : a.outputFact i = .ok f) : ∀ e ∈ a.edgesFrom i, f.Refines e.fact := by
  rw [outputFact_eq hl hi] at hf
  exact fun e he => (TensorFact.meetAll_lower hf).2 e.fact (List.mem_map_of_mem he)

/-- It says nothing beyond that. -/
theorem outputFact_greatest {f : TensorFact} (hf : a.outputFact i = .ok f) {d : TensorFact}
    (h : ∀ e ∈ a.edgesFrom i, d.Refines e.fact) : d.Refines f := by
  rw [outputFact_eq hl hi] at hf
  obtain ⟨g, hg, hdg⟩ := TensorFact.meetAll_greatest (TensorFact.refines_unknown d) (List.forall_mem_map.2 h)
  cases hf.symm.trans hg
  exact hdg

theorem outputFact_value {f : TensorFact} (hf : a.outputFact i = .ok f) :
    f.value.isSome ↔ ∃ e ∈ a.edgesFrom i, e.fact.value.isSome := by
  rw [outputFact_eq hl hi] at hf
  constructor
  · intro hv
    rcases TensorFact.value_of_meetAll hf hv with hs | ⟨g, hg, hgv⟩
    · cases hs
    · obtain ⟨e, he, rfl⟩ := List.mem_map.1 hg
      exact ⟨e, he, hgv⟩
  · rintro ⟨e, he, hev⟩
    exact ((TensorFact.meetAll_lower hf).2 e.fact (List.mem_map_of_mem he)).value_isSome hev

/-- Whether a node can be folded, if its output has a fact. -/
theorem isFoldable_iff {n : Node} (hn : a.nodes[i]? = some n) (hconst : n.op.isConst = false) {b : Bool} :
    a.isFoldable i = .ok b ↔ ∃ f, a.outputFact i = .ok f ∧ (b = true ↔ f.value.isSome ∨
      n.inputs ≠ [] ∧ n.op.isStateless = true ∧ ∀ e ∈ a.edgesInto i, e.fact.value.isSome) := by
  have hknown : (((a.edgesInto i).map Edge.fact).mapM TensorFact.value).isSome = true ↔
      ∀ e ∈ a.edgesInto i, e.fact.value.isSome := by
    rw [mapM_value_isSome, List.forall_mem_map]
  simp only [isFoldable, itemAt_eq_ok_iff.2 hn, ok_bind, hconst, Bool.false_eq_true, if_false,
    knownInputs_eq hl hi, bind_eq_ok_iff, ← hknown]
  refine exists_congr fun f => and_congr_right fun _ => ?_
  cases f.value.isSome with
  | true => cases b <;> simp [pure_eq_ok]
  | false =>
    by_cases hin : n.inputs = []
    · cases b <;> simp [hin, pure_eq_ok]
    · cases hst : n.op.isStateless with
      | false => cases b <;> simp [hin, pure_eq_ok]
      | true => cases b <;> simp [hin, pure_eq_ok]

end

theorem isFoldable_const {a : Analysis} {i : Nat} {n : Node} (hn : a.nodes[i]? = some n)
    (hconst : n.op.isConst = true) : a.isFoldable i = .ok false := by
  simp only [isFoldable, itemAt_eq_ok_iff.2 hn, ok_bind, hconst]
  rfl

namespace Sound

variable {a : Analysis} {value : Nat → Tensor} (h : Sound value a) (hw : WellFormed a) {i : Nat} {n : Node}
include h hw

theorem exists_outputFact (hi : i ∈ a.plan) : ∃ f, a.outputFact i = .ok f ∧ f.Admits (value i) ∧
    (f.value.isSome ↔ ∃ e ∈ a.edgesFrom i, e.fact.value.isSome) := by
  have hlt := hw.lt i hi
  obtain ⟨f, hmeet, hadmits⟩ := TensorFact.meetAll_admits (h.outputs_admit hi)
  have hf : a.outputFact i = .ok f := (outputFact_eq hw.toLinked hlt).trans hmeet
  exact ⟨f, hf, hadmits, outputFact_value hw.toLinked hlt hf⟩

theorem isFoldable_eq (hi : i ∈ a.plan) : ∃ b, a.isFoldable i = .ok b ∧ (b = true ↔ a.Foldable i) := by
  obtain ⟨n, hn⟩ := hw.exists_node hi
  obtain ⟨f, hf, -, hvalue⟩ := h.exists_outputFact hw hi
  cases hconst : n.op.isConst with
  | true => exact ⟨false, isFoldable_const hn hconst, by simp [Foldable, hn, hconst]⟩
  | false =>
    have hfoldable : a.Foldable i ↔ f.value.isSome ∨
        n.inputs ≠ [] ∧ n.op.isStateless = true ∧ ∀ e ∈ a.edgesInto i, e.fact.value.isSome := by
      simp only [Foldable, hn, Option.some.injEq, exists_eq_left', hconst, true_and, hvalue]
    have hiff (b : Bool) := isFoldable_iff hw.toLinked (hw.lt i hi) hn hconst (b := b)
    by_cases hfold : a.Foldable i
    · exact ⟨true, (hiff true).2 ⟨f, hf, iff_of_true rfl (hfoldable.1 hfold)⟩, iff_of_true rfl hfold⟩
    · have hnot := mt hfoldable.2 hfold
      exact ⟨false, (hiff false).2 ⟨f, hf, iff_of_false Bool.false_ne_true hnot⟩, iff_of_false Bool.false_ne_true hfold⟩

theorem known_same (hn : a.nodes[i]? = some n) (hi : i ∈ a.plan) {ts : List Tensor}
    (hts : ((a.edgesInto i).map Edge.fact).mapM TensorFact.value = some ts) :
    SameTensors (n.producers.map value) ts := by
  have hknown := forall₂_comp (h.inputs_admit hw hn hi).flip (mapM_eq_some_iff.1 hts)
  exact hknown.imp fun t u ⟨f, hf, hu⟩ => Tensor.same_symm (hf.value u hu)

theorem exists_foldNode (hi : i ∈ a.plan) {v : Tensor} (hv : v.same (value i) = true) :
    ∃ r, a.foldNode i v = .ok ((a.commit r).2.asFolded i v) ∧ Sound value (a.commit r).2 ∧
      Refines (a.commit r).2 a := by
  have hadmits : (TensorFact.ofTensor v).Admits (value i) :=
    TensorFact.admits_iff_refines.2 (TensorFact.ofTensor_refines (Tensor.same_symm hv))
  have hsuit := hw.outputs_suit hi hadmits
  obtain ⟨r, hr⟩ := h.exists_combined hsuit
  exact ⟨r, (foldNode_eq_ok_iff hw.toLinked).2 ⟨i, r, ⟨rfl, hw.lt i hi⟩, hr, rfl⟩,
    h.commit (admits_of_suits (h.combined_suit hr hsuit)), commit_refines (combined_refines_edge hr)⟩

theorem exists_applyFold (hi : i ∈ a.plan) (hfold : a.Foldable i) :
    ∃ v r, v.same (value i) = true ∧ a.applyFold i = .ok ((a.commit r).2.asFolded i v) ∧
      Sound value (a.commit r).2 ∧ Refines (a.commit r).2 a := by
  obtain ⟨n, hn, -, hcases⟩ := hfold
  obtain ⟨f, hf, hadmits, hvalue⟩ := h.exists_outputFact hw hi
  cases hfv : f.value with
  | some v =>
    have hv := hadmits.value v hfv
    obtain ⟨r, hr, hsound, hdown⟩ := h.exists_foldNode hw hi hv
    exact ⟨v, r, hv, applyFold_eq_ok_iff.2 ⟨f, hf, .inl ⟨v, hfv, hr⟩⟩, hsound, hdown⟩
  | none =>
    have hnone : ¬ ∃ e ∈ a.edgesFrom i, e.fact.value.isSome = true := by
      rw [← hvalue, hfv]
      exact fun h => nomatch h
    obtain ⟨-, hstateless, hknown⟩ := hcases.resolve_left hnone
    obtain ⟨ts, hts⟩ := Option.isSome_iff_exists.1 (mapM_value_isSome.2 (List.forall_mem_map.2 hknown))
    have hplaceholder := Operator.isPlaceholder_of_isStateless hstateless
    obtain ⟨u, hu, hsame⟩ := (h.execution.computes i n hn hi).eval hplaceholder
    obtain ⟨v, hv, huv⟩ := Operator.eval_same (h.library n (List.mem_of_getElem? hn))
      (h.known_same hw hn hi hts) hu
    have hvalue : v.same (value i) = true := Tensor.same_trans (Tensor.same_symm huv) hsame
    obtain ⟨r, hr, hsound, hdown⟩ := h.exists_foldNode hw hi hvalue
    have hinputs := knownInputs_eq hw.toLinked (hw.lt i hi)
    rw [hts] at hinputs
    exact ⟨v, r, hvalue, applyFold_eq_ok_iff.2 ⟨f, hf, .inr ⟨hfv, i,
      nodeIndex_eq_ok_iff.2 ⟨rfl, hw.lt i hi⟩, _, hinputs, .inr ⟨ts, rfl, n, hn, v, hv, hr⟩⟩⟩,
      hsound, hdown⟩

end Sound

/-! ### What makes a fold possible stays -/

theorem Foldable.of_refines {a b : Analysis} {i : Nat} (h : a.Foldable i) (hba : Refines b a) :
    b.Foldable i := by
  obtain ⟨n, hn, hconst, hcases⟩ := h
  refine ⟨n, hba.nodes ▸ hn, hconst, ?_⟩
  rcases hcases with ⟨e, he, hv⟩ | ⟨hin, hst, hall⟩
  · left
    obtain ⟨he, hs⟩ := mem_edgesFrom.1 he
    obtain ⟨j, hj⟩ := List.mem_iff_getElem?.1 he
    obtain ⟨d, hd, hends, hle⟩ := hba.exists_finer hj
    have hds : d.source = some i := (Edge.ends_eq_iff.1 hends).2.1.trans hs
    exact ⟨d, mem_edgesFrom.2 ⟨List.mem_of_getElem? hd, hds⟩, hle.value_isSome hv⟩
  · right
    refine ⟨hin, hst, fun d hd => ?_⟩
    obtain ⟨hd, ht⟩ := mem_edgesInto.1 hd
    obtain ⟨j, hj⟩ := List.mem_iff_getElem?.1 hd
    obtain ⟨e, he, hends⟩ := hba.exists_edge hj
    have het : e.target = some i := (Edge.ends_eq_iff.1 hends).2.2.2.symm.trans ht
    have hv := hall e (mem_edgesInto.2 ⟨List.mem_of_getElem? he, het⟩)
    exact (hba.facts j d e hj he).value_isSome hv

/-- A fold of another node, which does not use this one, leaves this one to be folded. -/
theorem Foldable.of_asFolded {a : Analysis} (hl : Linked a) {i j : Nat} (value : Tensor)
    (h : a.Foldable i) (hij : i ≠ j) (hp : i ∉ Plan.producersAt a.nodes j) :
    (a.asFolded j value).Foldable i := by
  obtain ⟨n, hn, hconst, hcases⟩ := h
  refine ⟨n, asFolded_getElem?.2 ⟨n, hn, by rw [if_neg hij]⟩, hconst, ?_⟩
  rw [asFolded_into, if_neg hij]
  refine hcases.imp_left fun ⟨e, he, hv⟩ => ?_
  obtain ⟨he, hs⟩ := mem_edgesFrom.1 he
  have hcut : e.cut j = e := Edge.cut_of_ne fun ht => hp (hl.source_mem_producersAt he ht hs)
  have hmem : e.cut j ∈ (a.asFolded j value).edges := List.mem_map_of_mem he
  rw [hcut] at hmem
  exact ⟨e, mem_edgesFrom.2 ⟨hmem, hs⟩, hv⟩

/-! ### Folding keeps an execution -/

namespace Sound

variable {a : Analysis} {value : Nat → Tensor} (h : Sound value a)
include h

theorem asFolded {i : Nat} {v : Tensor} (hv : v.same (value i) = true) : Sound value (a.asFolded i v) := by
  have hlib := ((graphInvariant_library a.roundLimit).asFolded i v ⟨h.library, rfl⟩).1
  refine ⟨hlib, ⟨fun k n hn hk => ?_, fun k n hn hk => ?_⟩, fun d hd k hs hk => ?_⟩
  · obtain ⟨m, hm, rfl⟩ := asFolded_getElem?.1 hn
    by_cases hki : k = i
    · rw [if_pos hki, hki]
      exact ⟨v, rfl, hv⟩
    · rw [if_neg hki]
      exact h.execution.computes k m hm hk
  · obtain ⟨m, hm, rfl⟩ := asFolded_getElem?.1 hn
    by_cases hki : k = i
    · rw [if_pos hki]
      trivial
    · rw [if_neg hki]
      exact h.execution.oneType k m hm hk
  · obtain ⟨e, he, rfl⟩ := List.mem_map.1 hd
    rw [Edge.cut_fact]
    exact h.admits e he k (Edge.cut_source hs).1 hk

theorem replan {plan : List Nat} (hsub : plan ⊆ a.plan) : Sound value { a with plan, stepIndex := 0 } where
  library := h.library
  execution := ⟨fun i n hn hi => h.execution.computes i n hn (hsub hi),
    fun i n hn hi => h.execution.oneType i n hn (hsub hi)⟩
  admits e he i hs hi := h.admits e he i hs (hsub hi)

end Sound

/-- In an order of the producers, no node produces for one before it. -/
theorem pairwise_of_ordered {producers : Nat → List Nat} : ∀ {plan done : List Nat},
    Plan.Ordered producers done plan → plan.Pairwise fun j i => i ≠ j ∧ i ∉ producers j
  | [], _, _ => .nil
  | j :: rest, done, h => by
    refine List.pairwise_cons.2 ⟨fun i hi => ?_, pairwise_of_ordered h.2.2⟩
    have hnew := h.2.2.nodup.2 i hi
    exact ⟨fun hij => hnew (hij ▸ .head _), fun hp => hnew (.tail _ (h.2.1 hp))⟩

namespace Sound

variable {value : Nat → Tensor}

/-- **Nodes that can be folded are folded**, if none of them is used by one before it. -/
theorem exists_foldEach : ∀ {is : List Nat} {a : Analysis}, Sound value a → WellFormed a → is ⊆ a.plan →
    (∀ i ∈ is, a.Foldable i) → (is.Pairwise fun j i => i ≠ j ∧ i ∉ Plan.producersAt a.nodes j) →
    ∃ b, foldEach is a = (.ok (), b) ∧ (Sound value b ∧ WellFormed b) ∧ b.output = a.output
  | [], a, h, hw, _, _, _ => ⟨a, rfl, ⟨h, hw⟩, rfl⟩
  | j :: is, a, h, hw, hsub, hfold, hpair => by
    obtain ⟨v, r, hv, happly, hsound, hdown⟩ := h.exists_applyFold hw (hsub (.head _)) (hfold j (.head _))
    have hwc : WellFormed (a.commit r).2 := (commit_sameGraph a r).wellFormed hw hw.stepIndex_lt
    obtain ⟨hfirst, hrest⟩ := List.pairwise_cons.1 hpair
    obtain ⟨b, hb, hab⟩ := exists_foldEach (hsound.asFolded hv) (asFolded_wellFormed hwc v)
      (fun i hi => hsub (.tail _ hi))
      (fun i hi => ((hfold i (.tail _ hi)).of_refines hdown).of_asFolded hwc.toLinked v
        (hfirst i hi).1 (hfirst i hi).2)
      (hrest.imp fun ⟨hne, hp⟩ => ⟨hne, fun hi => hp (producersAt_asFolded_subset _ _ _ _ hi)⟩)
    refine ⟨b, ?_, hab⟩
    rw [foldEach, happly]
    exact hb

theorem exists_foldAll : ∀ {fuel : Nat} {a : Analysis}, Sound value a → WellFormed a →
    ∃ folded b, foldAll fuel a = (.ok folded, b) ∧ (Sound value b ∧ WellFormed b) ∧ b.output = a.output
  | 0, a, h, hw => ⟨[], a, rfl, ⟨h, hw⟩, rfl⟩
  | fuel + 1, a, h, hw => by
    have hcandidates : a.foldable = .ok (a.plan.filter fun i => holds (a.isFoldable i)) := by
      refine filterM_eq_ok_iff.2 ⟨fun i hi => ?_, rfl⟩
      obtain ⟨b, hb, -⟩ := h.isFoldable_eq hw hi
      exact ⟨b, hb⟩
    have hfold : ∀ i ∈ a.plan.filter fun i => holds (a.isFoldable i), a.Foldable i := by
      intro i hi
      obtain ⟨hi, hholds⟩ := List.mem_filter.1 hi
      obtain ⟨b, hb, hiff⟩ := h.isFoldable_eq hw hi
      rw [hb] at hholds
      exact hiff.1 hholds
    have hpair := (pairwise_of_ordered hw.ordered).sublist
      (List.filter_sublist (p := fun i => holds (a.isFoldable i)))
    obtain ⟨b, hb, ⟨hsound, hwb⟩, hout⟩ := h.exists_foldEach hw (fun i hi => (List.mem_filter.1 hi).1) hfold hpair
    rw [foldAll, hcandidates]
    cases hc : a.plan.filter fun i => holds (a.isFoldable i) with
    | nil => exact ⟨[], a, rfl, ⟨h, hw⟩, rfl⟩
    | cons i is =>
      obtain ⟨later, c, hlater, hsoundc, houtc⟩ : ∃ later c, foldAll fuel b = (.ok later, c) ∧
          (Sound value c ∧ WellFormed c) ∧ c.output = b.output := exists_foldAll hsound hwb
      rw [hc] at hb
      simp only [hb, hlater]
      exact ⟨_, c, rfl, hsoundc, houtc.trans hout⟩

/-- **Folding constants never fails** where an execution is known, and keeps it. -/
theorem exists_foldConstants {a : Analysis} (h : Sound value a) (hw : WellFormed a) :
    ∃ folded b, a.foldConstants = (.ok folded, b) ∧ (Sound value b ∧ WellFormed b) ∧
      b.output = a.output := by
  obtain ⟨folded, b, hb, ⟨hsound, hwb⟩, hout⟩ : ∃ folded b, a.foldPass = (.ok folded, b) ∧
      (Sound value b ∧ WellFormed b) ∧ b.output = a.output := h.exists_foldAll hw
  obtain ⟨plan, hplan, -, hwplan, hsub⟩ := resetPlan_spec hwb
  refine ⟨folded, { b with plan, stepIndex := 0 }, ?_, ⟨hsound.replan hsub, hwplan⟩, hout⟩
  simp only [foldConstants, hb, hplan]

end Sound

end Analysis

end EdgeFacts
