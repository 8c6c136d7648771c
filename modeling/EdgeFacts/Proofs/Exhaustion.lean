/-
# Folding comes to an end and leaves nothing to fold

Folding looks for nodes that can be folded and folds them, until it finds none
(`Analysis.FoldsIn`). What it found in a round it folds in the order of the plan, and
since no node is used by one before it, each of them can still be folded when its
turn comes (`Analysis.foldEach_cases`). So every round turns planned nodes into
constants, which are never found again, and there are no more rounds than planned
nodes that are no constants, and a last one. All this is for operators of every kind:
a fold fails only where facts contradict each other or an operator does not evaluate
(`Analysis.FoldFault`).

Key definitions: `Analysis.FoldsIn`, `Analysis.unfolded`, `Analysis.FoldFault`,
`Analysis.Turned`, `Analysis.FoldFails`, `Analysis.Exhausted`.
Key theorems: `Analysis.foldNode_cases`, `Analysis.applyFold_of_foldable`, `Analysis.foldEach_cases`,
`Analysis.foldAll_cases`, `Analysis.foldConstants_exhausts`.
-/
import EdgeFacts.Proofs.Report

namespace EdgeFacts

/-! ### Facts that contradict each other -/

/-- Whether a failure tells that two facts contradict each other. -/
def Failure.IsClash (e : Failure) : Prop := ∃ c contexts, e = .analysis (.clash c) contexts

theorem ShapeFact.meet_error {a b : ShapeFact} {e : Failure} (h : a.meet b = .error e) : e.IsClash := by
  unfold meet orFail at h
  split at h
  · cases h
  · cases h
    unfold clash
    split
    · exact ⟨_, _, rfl⟩
    · exact ⟨_, [], rfl⟩

theorem meetDType_error {a b : Option DType} {e : Failure} (h : meetDType a b = .error e) : e.IsClash := by
  unfold meetDType at h
  split at h
  · split at h
    · cases h
    · cases h
      exact ⟨_, [], rfl⟩
  · cases h
  · cases h

theorem meetValue_error {a b : Option Tensor} {e : Failure} (h : meetValue a b = .error e) : e.IsClash := by
  unfold meetValue at h
  split at h
  · split at h
    · cases h
    · cases h
      exact ⟨_, [], rfl⟩
  · cases h
  · cases h

namespace TensorFact

theorem meet_error {a b : TensorFact} {e : Failure} (h : a.meet b = .error e) : e.IsClash := by
  simp only [meet, bind_eq_error_iff, pure_eq_ok, reduceCtorEq, and_false, exists_false, or_false] at h
  rcases h with h | ⟨d, -, h | ⟨s, -, h⟩⟩
  · exact meetDType_error h
  · exact ShapeFact.meet_error h
  · exact meetValue_error h

theorem meetAll_error : ∀ {fs : List TensorFact} {start : TensorFact} {e : Failure},
    meetAll start fs = .error e → e.IsClash
  | [], _, _, h => by cases h
  | f :: fs, start, e, h => by
    rw [meetAll, List.foldlM_cons, bind_eq_error_iff] at h
    rcases h with h | ⟨g, -, h⟩
    · exact meet_error h
    · exact meetAll_error h

end TensorFact

theorem filterAuxM_error {ε α : Type} {f : α → Except ε Bool} {e : ε} : ∀ {xs acc : List α},
    List.filterAuxM f xs acc = .error e → ∃ x ∈ xs, f x = .error e
  | [], _, h => by cases h
  | x :: xs, acc, h => by
    rw [List.filterAuxM, bind_eq_error_iff] at h
    rcases h with h | ⟨b, -, h⟩
    · exact ⟨x, .head _, h⟩
    · obtain ⟨y, hy, he⟩ := filterAuxM_error h
      exact ⟨y, .tail _ hy, he⟩

theorem filterM_error {ε α : Type} {f : α → Except ε Bool} {xs : List α} {e : ε} (h : xs.filterM f = .error e) :
    ∃ x ∈ xs, f x = .error e := by
  simp only [List.filterM, bind_eq_error_iff, pure_eq_ok, reduceCtorEq, and_false, exists_false, or_false] at h
  exact filterAuxM_error h

namespace Analysis

theorem refineEdges_error {a : Analysis} {f : TensorFact} {e : Failure} : ∀ {js : List Nat},
    (∀ j ∈ js, ∃ g, a.factOf j = .ok g) → a.refineEdges f js = .error e → e.IsClash
  | [], _, h => by cases h
  | j :: js, hjs, h => by
    obtain ⟨g, hg⟩ := hjs j (.head _)
    simp only [refineEdges, hg, ok_bind, bind_eq_error_iff, pure_eq_ok, reduceCtorEq, and_false, exists_false,
      or_false] at h
    rcases h with h | ⟨m, -, h⟩
    · exact TensorFact.meet_error h
    · exact refineEdges_error (fun k hk => hjs k (.tail _ hk)) h

/-! ### What can be folded -/

section

variable {a : Analysis} {i : Nat} (hl : Linked a) (hi : i < a.nodes.length)
include hl hi

theorem outputFact_error {e : Failure} (h : a.outputFact i = .error e) : e.IsClash := by
  rw [outputFact_eq hl hi] at h
  exact TensorFact.meetAll_error h

theorem foldable_of_isFoldable (h : a.isFoldable i = .ok true) : a.Foldable i := by
  have hn := List.getElem?_eq_getElem hi
  cases hconst : a.nodes[i].op.isConst with
  | true =>
    simp only [isFoldable, itemAt_eq_ok_iff.2 hn, ok_bind, hconst] at h
    cases h
  | false =>
    obtain ⟨f, hf, hiff⟩ := (isFoldable_iff hl hi hn hconst).1 h
    rw [outputFact_value hl hi hf] at hiff
    exact ⟨_, hn, hconst, hiff.1 rfl⟩

/-- It is not known whether a node can be folded only if what is told of its output is
contradictory. -/
theorem isFoldable_error {e : Failure} (h : a.isFoldable i = .error e) : e.IsClash := by
  simp only [isFoldable, itemAt_eq_ok_iff.2 (List.getElem?_eq_getElem hi), ok_bind, knownInputs_eq hl hi] at h
  split at h
  · cases h
  · rw [bind_eq_error_iff] at h
    rcases h with h | ⟨f, -, h⟩
    · exact outputFact_error hl hi h
    · split at h
      · cases h
      · split at h <;> cases h

/-- A node is turned into a constant unless its value contradicts an edge out of it. -/
theorem foldNode_cases (v : Tensor) : (∃ e, a.foldNode i v = .error e ∧ e.IsClash) ∨
    ∃ r, a.foldNode i v = .ok ((a.commit r).2.asFolded i v) ∧ Refines (a.commit r).2 a := by
  cases hr : a.refineEdges (.ofTensor v) ((a.edgesFrom i).map Edge.id) with
  | error e =>
    refine .inl ⟨e, ?_, ?_⟩
    · simp only [foldNode, nodeIndex_eq_ok_iff.2 ⟨rfl, hi⟩, itemAt_eq_ok_iff.2 (hl.outgoing_getElem? hi),
        ok_bind, hr]
      rfl
    · refine refineEdges_error (fun j hj => ?_) hr
      obtain ⟨d, hd, rfl⟩ := List.mem_map.1 hj
      exact ⟨d.fact, factOf_of_getElem? (hl.getElem?_id (mem_edgesFrom.1 hd).1)⟩
  | ok r =>
    rw [refineEdges_eq, refinePairs_eq_ok_iff] at hr
    exact .inr ⟨r, (foldNode_eq_ok_iff hl).2 ⟨i, r, ⟨rfl, hi⟩, hr, rfl⟩, commit_refines (combined_refines_edge hr)⟩

end

/-- What a fold can fail for: facts that contradict each other, or a planned node that
is no constant and does not evaluate on the values that its inputs are known to have. -/
def FoldFault (a : Analysis) (e : Failure) : Prop :=
  e.IsClash ∨ ∃ i ∈ a.plan, ∃ n, a.nodes[i]? = some n ∧ n.op.isConst = false ∧
    ∃ ts, List.Forall₂ (fun d t => d.fact.value = some t) (a.edgesInto i) ts ∧ n.op.eval ts = .error e

/-- **A node that can be folded is folded**, to its known output or to what its known
inputs evaluate to. -/
theorem applyFold_of_foldable {a : Analysis} (hw : WellFormed a) {i : Nat} (hi : i ∈ a.plan)
    (hfold : a.Foldable i) : (∃ e, a.applyFold i = .error e ∧ a.FoldFault e) ∨
      ∃ v r, a.applyFold i = .ok ((a.commit r).2.asFolded i v) ∧ Refines (a.commit r).2 a := by
  have hl := hw.toLinked
  have hlt := hw.lt i hi
  have hnode (v : Tensor) (h : a.applyFold i = a.foldNode i v) :
      (∃ e, a.applyFold i = .error e ∧ a.FoldFault e) ∨
        ∃ v r, a.applyFold i = .ok ((a.commit r).2.asFolded i v) ∧ Refines (a.commit r).2 a := by
    rw [h]
    rcases foldNode_cases hl hlt v with ⟨e, he, hclash⟩ | ⟨r, hr, hle⟩
    · exact .inl ⟨e, he, .inl hclash⟩
    · exact .inr ⟨v, r, hr, hle⟩
  cases hf : a.outputFact i with
  | error e =>
    refine .inl ⟨e, ?_, .inl (outputFact_error hl hlt hf)⟩
    rw [applyFold, hf]
    rfl
  | ok f =>
    cases hv : f.value with
    | some v => exact hnode v (by rw [applyFold, hf, ok_bind, hv])
    | none =>
      obtain ⟨n, hn, hconst, hcases⟩ := hfold
      have hnone : ¬ ∃ e ∈ a.edgesFrom i, e.fact.value.isSome := by
        rw [← outputFact_value hl hlt hf, hv]
        exact Bool.false_ne_true
      obtain ⟨-, -, hknown⟩ := hcases.resolve_left hnone
      obtain ⟨ts, hts⟩ := Option.isSome_iff_exists.1 (mapM_value_isSome.2 (List.forall_mem_map.2 hknown))
      have happly : a.applyFold i = n.op.eval ts >>= a.foldNode i := by
        simp only [applyFold, hf, ok_bind, hv, nodeIndex_eq_ok_iff.2 ⟨rfl, hlt⟩, knownInputs_eq hl hlt, hts,
          itemAt_eq_ok_iff.2 hn]
      cases heval : n.op.eval ts with
      | error e =>
        have hvalues := List.forall₂_map_left_iff.1 (mapM_eq_some_iff.1 hts)
        refine .inl ⟨e, ?_, .inr ⟨i, hi, n, hn, hconst, ts, hvalues, heval⟩⟩
        rw [happly, heval]
        rfl
      | ok v => exact hnode v (by rw [happly, heval, ok_bind])

/-! ### Nodes that have become constants -/

/-- Whether an analysis is what is left of another one when some of its nodes have
become constants. -/
structure Turned (a : Analysis) (is : List Nat) (b : Analysis) : Prop extends WellFormed b where
  plan_eq : b.plan = a.plan
  output_eq : b.output = a.output
  others : ∀ k, k ∉ is → b.nodes[k]? = a.nodes[k]?
  folded : ∀ k ∈ is, ∃ n v, a.nodes[k]? = some n ∧ b.nodes[k]? = some (asConst v n)

theorem Turned.refl {a : Analysis} (hw : WellFormed a) : Turned a [] a :=
  { hw with
    plan_eq := rfl
    output_eq := rfl
    others := fun _ _ => rfl
    folded := fun _ hk => nomatch hk }

theorem Turned.trans {a b c : Analysis} {is js : List Nat} (h : Turned a is b) (k : Turned b js c) :
    Turned a (is ++ js) c :=
  { k.toWellFormed with
    plan_eq := k.plan_eq.trans h.plan_eq
    output_eq := k.output_eq.trans h.output_eq
    others := fun i hi => by
      rw [List.mem_append, not_or] at hi
      exact (k.others i hi.2).trans (h.others i hi.1)
    folded := fun i hi => by
      by_cases hj : i ∈ js
      · obtain ⟨m, w, hm, hc⟩ := k.folded i hj
        by_cases hi' : i ∈ is
        · obtain ⟨n, v, hn, hb⟩ := h.folded i hi'
          cases hb.symm.trans hm
          exact ⟨n, w, hn, hc⟩
        · exact ⟨m, w, (h.others i hi').symm.trans hm, hc⟩
      · obtain ⟨n, v, hn, hb⟩ := h.folded i ((List.mem_append.1 hi).resolve_right hj)
        exact ⟨n, v, hn, (k.others i hj).trans hb⟩ }

theorem Turned.const {a b : Analysis} {is : List Nat} (h : Turned a is b) {i : Nat} (hi : i ∈ is) :
    ∃ n v, b.nodes[i]? = some n ∧ n.op = .const v ∧ n.inputs = [] ∧ b.edgesInto i = [] := by
  obtain ⟨n, v, -, hb⟩ := h.folded i hi
  refine ⟨_, v, hb, rfl, rfl, ?_⟩
  have hinto : (b.edgesInto i).map Edge.origin = [] := h.inputs i _ hb
  exact List.map_eq_nil_iff.1 hinto

theorem turned_asFolded {a : Analysis} (hw : WellFormed a) (r : List (Nat × TensorFact)) {i : Nat} (hi : i ∈ a.plan)
    (v : Tensor) : Turned a [i] ((a.commit r).2.asFolded i v) :=
  { asFolded_wellFormed ((commit_sameGraph a r).wellFormed hw hw.stepIndex_lt) v with
    plan_eq := rfl
    output_eq := rfl
    others := fun k hk => by
      rw [List.mem_singleton] at hk
      exact (List.getElem?_modify ..).trans (by simp [Ne.symm hk]; rfl)
    folded := fun k hk => by
      rw [List.mem_singleton] at hk
      subst hk
      obtain ⟨n, hn⟩ := hw.exists_node hi
      exact ⟨n, v, hn, asFolded_getElem?.2 ⟨n, hn, (if_pos rfl).symm⟩⟩ }

/-- Whether folding fails: some nodes have become constants by then, and what is left
has a fault. -/
def FoldFails {α : Type} (a : Analysis) (r : Outcome α) : Prop :=
  ∃ e b is, r = (.error e, b) ∧ Turned a is b ∧ b.FoldFault e

theorem FoldFails.of_turned {α β : Type} {a b : Analysis} {is : List Nat} (h : Turned a is b) {r : Outcome α}
    {q : Outcome β} (hr : b.FoldFails r) (hq : ∀ e c, r = (.error e, c) → q = (.error e, c)) : a.FoldFails q := by
  obtain ⟨e, c, js, hrc, hturned, hfault⟩ := hr
  exact ⟨e, c, _, hq e c hrc, h.trans hturned, hfault⟩

/-- **Nodes that can be folded are folded** one after the other, if none of them is
used by one before it. -/
theorem foldEach_cases : ∀ {is : List Nat} {a : Analysis}, WellFormed a → is ⊆ a.plan → (∀ i ∈ is, a.Foldable i) →
    (is.Pairwise fun j i => i ≠ j ∧ i ∉ Plan.producersAt a.nodes j) →
    a.FoldFails (foldEach is a) ∨ ∃ b, foldEach is a = (.ok (), b) ∧ Turned a is b
  | [], a, hw, _, _, _ => .inr ⟨a, rfl, .refl hw⟩
  | j :: is, a, hw, hsub, hfold, hpair => by
    rcases applyFold_of_foldable hw (hsub (.head _)) (hfold j (.head _)) with ⟨e, he, hfault⟩ | ⟨v, r, hr, hdown⟩
    · exact .inl ⟨e, a, [], by rw [foldEach, he], .refl hw, hfault⟩
    · have hturned := turned_asFolded hw r (hsub (.head _)) v
      have hlc : Linked (a.commit r).2 := (commit_sameGraph a r).linked hw.toLinked
      obtain ⟨hfirst, hrest⟩ := List.pairwise_cons.1 hpair
      have hlater : ∀ i ∈ is, ((a.commit r).2.asFolded j v).Foldable i := fun i hi =>
        ((hfold i (.tail _ hi)).of_refines hdown).of_asFolded hlc v (hfirst i hi).1 (hfirst i hi).2
      have hpair' : is.Pairwise fun j' i => i ≠ j' ∧ i ∉ Plan.producersAt ((a.commit r).2.asFolded j v).nodes j' :=
        hrest.imp fun h => ⟨h.1, fun hi => h.2 (producersAt_asFolded_subset _ _ _ _ hi)⟩
      rw [foldEach, hr]
      rcases foldEach_cases hturned.toWellFormed (fun i hi => hsub (.tail _ hi)) hlater hpair' with
        hfails | ⟨b, hb, hrestturned⟩
      · exact .inl (hfails.of_turned hturned fun _ _ h => h)
      · exact .inr ⟨b, hb, hturned.trans hrestturned⟩

/-! ### Rounds of folding -/

/-- The planned nodes that are no constants. -/
def unfolded (a : Analysis) : List Nat := a.plan.filter fun i => (a.nodes[i]?).any fun n => !n.op.isConst

/-- Whether folding ends after a number of rounds, with the nodes folded and what is
left: each round folds what it finds, and the last one finds nothing. -/
inductive FoldsIn : Nat → Analysis → List Nat → Analysis → Prop
  | last {a : Analysis} : a.foldable = .ok [] → FoldsIn 1 a [] a
  | round {a b c : Analysis} {candidates later : List Nat} {count : Nat} :
      a.foldable = .ok candidates → candidates ≠ [] → foldEach candidates a = (.ok (), b) →
      FoldsIn count b later c → FoldsIn (count + 1) a (candidates ++ later) c

/-- Whether nothing is left to fold: of no planned node that is no constant the output
is known, and each of them needs more than its inputs, has none or has one that is not known. -/
def Exhausted (a : Analysis) : Prop :=
  ∀ i ∈ a.plan, ∀ n, a.nodes[i]? = some n → n.op.isConst = false →
    ∃ f, a.outputFact i = .ok f ∧ f.value = none ∧
      (n.op.isStateless = false ∨ n.inputs = [] ∨ ∃ e ∈ a.edgesInto i, e.fact.value = none)

theorem mem_unfolded {a : Analysis} {i : Nat} :
    i ∈ a.unfolded ↔ i ∈ a.plan ∧ ∃ n, a.nodes[i]? = some n ∧ n.op.isConst = false := by
  simp [unfolded, Option.any_eq_true]

/-- Of the nodes that are no constants those are left that have not become some. -/
theorem Turned.unfolded_eq {a b : Analysis} {is : List Nat} (h : Turned a is b) :
    b.unfolded = a.unfolded.filter fun i => i ∉ is := by
  rw [unfolded, unfolded, h.plan_eq, List.filter_filter]
  refine List.filter_congr fun i _ => ?_
  by_cases hi : i ∈ is
  · obtain ⟨n, v, -, hb⟩ := h.folded i hi
    simp [hb, hi, asConst, Operator.isConst]
  · simp [h.others i hi, hi]

theorem Turned.length_unfolded_lt {a b : Analysis} {is : List Nat} (h : Turned a is b) {i : Nat} (hi : i ∈ is)
    (hunfolded : i ∈ a.unfolded) : b.unfolded.length < a.unfolded.length := by
  rw [h.unfolded_eq, List.length_filter_lt_length_iff_exists]
  exact ⟨i, hunfolded, by simpa using hi⟩

theorem foldable_spec {a : Analysis} (hw : WellFormed a) {candidates : List Nat} (h : a.foldable = .ok candidates) :
    candidates.Sublist a.plan ∧ ∀ i ∈ candidates, a.Foldable i := by
  obtain ⟨hall, rfl⟩ := filterM_eq_ok_iff.1 h
  refine ⟨List.filter_sublist, fun i hi => ?_⟩
  obtain ⟨hi, hholds⟩ := List.mem_filter.1 hi
  obtain ⟨b, hb⟩ := hall i hi
  rw [hb] at hholds
  exact foldable_of_isFoldable hw.toLinked (hw.lt i hi) (hb.trans (congrArg _ hholds))

theorem foldable_error {a : Analysis} (hw : WellFormed a) {e : Failure} (h : a.foldable = .error e) : e.IsClash := by
  obtain ⟨i, hi, he⟩ := filterM_error h
  exact isFoldable_error hw.toLinked (hw.lt i hi) he

theorem Foldable.mem_unfolded {a : Analysis} {i : Nat} (h : a.Foldable i) (hi : i ∈ a.plan) : i ∈ a.unfolded := by
  obtain ⟨n, hn, hconst, -⟩ := h
  exact Analysis.mem_unfolded.2 ⟨hi, n, hn, hconst⟩

/-- A round folds all that it finds. -/
theorem round_cases {a : Analysis} (hw : WellFormed a) {candidates : List Nat} (h : a.foldable = .ok candidates) :
    a.FoldFails (foldEach candidates a) ∨
      ∃ b, foldEach candidates a = (.ok (), b) ∧ Turned a candidates b := by
  obtain ⟨hsub, hfold⟩ := foldable_spec hw h
  exact foldEach_cases hw hsub.subset hfold ((pairwise_of_ordered hw.ordered).sublist hsub)

theorem round_turned {a b : Analysis} (hw : WellFormed a) {candidates : List Nat} (h : a.foldable = .ok candidates)
    (hb : foldEach candidates a = (.ok (), b)) :
    Turned a candidates b ∧ candidates.Nodup ∧ candidates ⊆ a.unfolded := by
  obtain ⟨hsub, hfold⟩ := foldable_spec hw h
  refine ⟨?_, hw.ordered.nodup.1.sublist hsub, fun i hi => (hfold i hi).mem_unfolded (hsub.subset hi)⟩
  rcases round_cases hw h with ⟨e, c, _, hc, -⟩ | ⟨c, hc, hturned⟩
  · cases hb.symm.trans hc
  · cases hb.symm.trans hc
    exact hturned

/-- **Folding comes to an end** within as many rounds as there are planned nodes that
are no constants, and a last one. -/
theorem foldAll_cases : ∀ {fuel : Nat} {a : Analysis}, WellFormed a → a.unfolded.length < fuel →
    a.FoldFails (foldAll fuel a) ∨
      ∃ count folded b, count ≤ a.unfolded.length + 1 ∧ foldAll fuel a = (.ok folded, b) ∧ FoldsIn count a folded b
  | 0, a, _, hfuel => by omega
  | fuel + 1, a, hw, hfuel => by
    rw [foldAll]
    cases hcandidates : a.foldable with
    | error e => exact .inl ⟨e, a, [], rfl, .refl hw, .inl (foldable_error hw hcandidates)⟩
    | ok candidates =>
      cases candidates with
      | nil => exact .inr ⟨1, [], a, by omega, rfl, .last hcandidates⟩
      | cons i is =>
        rcases round_cases hw hcandidates with ⟨e, b, is', hb, hturned, hfault⟩ | ⟨b, hb, hturned⟩
        · exact .inl ⟨e, b, is', by simp only [hb], hturned, hfault⟩
        · obtain ⟨-, -, hsub⟩ := round_turned hw hcandidates hb
          have hlt : b.unfolded.length < a.unfolded.length :=
            hturned.length_unfolded_lt (.head _) (hsub (.head _))
          have hrest : b.unfolded.length < fuel := by omega
          rcases foldAll_cases hturned.toWellFormed hrest with hfails | ⟨count, later, c, hle, hc, hfolds⟩
          · exact .inl (hfails.of_turned hturned fun e c hc => by simp only [hb, hc])
          · refine .inr ⟨count + 1, _, c, by omega, by simp only [hb, hc]; rfl, ?_⟩
            exact .round hcandidates (List.cons_ne_nil i is) hb hfolds

/-- What rounds of folding do: each node that they give has become a constant, once. -/
theorem FoldsIn.turned {count : Nat} {a b : Analysis} {folded : List Nat} (h : FoldsIn count a folded b)
    (hw : WellFormed a) : Turned a folded b ∧ folded.Nodup ∧ folded ⊆ a.unfolded ∧ b.foldable = .ok [] := by
  induction h with
  | last hnone => exact ⟨.refl hw, .nil, List.nil_subset _, hnone⟩
  | round hcandidates _ heach _ ih =>
    obtain ⟨hturned, hnodup, hsub⟩ := round_turned hw hcandidates heach
    obtain ⟨hlater, hlaternodup, hlatersub, hnone⟩ := ih hturned.toWellFormed
    -- what has become a constant is not found again
    rw [hturned.unfolded_eq] at hlatersub
    refine ⟨hturned.trans hlater, List.nodup_append.2 ⟨hnodup, hlaternodup, ?_⟩, ?_, hnone⟩
    · rintro i hi j hj rfl
      have := (List.mem_filter.1 (hlatersub hj)).2
      simp [hi] at this
    · refine List.append_subset.2 ⟨hsub, fun i hi => ?_⟩
      exact List.mem_of_mem_filter (hlatersub hi)

theorem exhausted_of_foldable {a : Analysis} (hw : WellFormed a) (h : a.foldable = .ok []) : a.Exhausted := by
  intro i hi n hn hconst
  obtain ⟨hall, hnil⟩ := filterM_eq_ok_iff.1 h
  obtain ⟨b, hb⟩ := hall i hi
  have hfalse : b = false := by
    have hnot : ¬ holds (a.isFoldable i) = true := List.filter_eq_nil_iff.1 hnil.symm i hi
    rw [hb] at hnot
    simpa [holds] using hnot
  obtain ⟨f, hf, hiff⟩ := (isFoldable_iff hw.toLinked (hw.lt i hi) hn hconst).1 hb
  have hnot : ¬ (f.value.isSome ∨
      n.inputs ≠ [] ∧ n.op.isStateless = true ∧ ∀ e ∈ a.edgesInto i, e.fact.value.isSome) := by
    rw [← hiff, hfalse]
    exact Bool.false_ne_true
  refine ⟨f, hf, ?_, ?_⟩
  · by_contra hv
    exact hnot (.inl (Option.isSome_iff_ne_none.2 hv))
  · by_contra hinputs
    simp only [not_or, not_exists, not_and, Bool.not_eq_false] at hinputs
    obtain ⟨hst, hin, hknown⟩ := hinputs
    exact hnot (.inr ⟨hin, hst, fun e he => Option.isSome_iff_ne_none.2 (hknown e he)⟩)

/-- **Folding ends, is exact and is complete.** Take an analysis of a model of any
operators and any calls, one after the other, whether they succeed or fail. Unless facts
contradict each other or a node does not evaluate on its known inputs, folding constants ends within as many
rounds as there are planned nodes that are no constants, and a last one. It gives each
node once that it has folded, and all of these have become constants without inputs.
Then of no planned node that is no constant the output is known, and each of them needs
more than its inputs, has none or has one that is not known; the same holds for the new
plan. -/
theorem foldConstants_exhausts {model : Model} {output : Int} {limit : Option Nat} {start a : Analysis}
    (hstart : Analysis.start model output limit = .ok start) {xs : List Call} (ha : start.afterCalls xs = a) :
    a.FoldFails a.foldConstants ∨
      ∃ count folded b c, count ≤ a.unfolded.length + 1 ∧ FoldsIn count a folded b ∧
        a.foldPass = (.ok folded, b) ∧ b.resetPlan = .ok c ∧ a.foldConstants = (.ok folded, c) ∧
        folded.Nodup ∧ folded ⊆ a.unfolded ∧
        (∀ i ∈ folded, ∃ n v, b.nodes[i]? = some n ∧ n.op = .const v ∧ n.inputs = [] ∧ b.edgesInto i = []) ∧
        b.plan = a.plan ∧ b.Exhausted ∧ c.Exhausted := by
  obtain ⟨hwstart, -⟩ := start_spec hstart
  have hw : WellFormed a := ha ▸ afterCalls_wellFormed hwstart xs
  have hfuel : a.unfolded.length < a.plan.length + 1 := Nat.lt_succ_of_le (List.length_filter_le _ _)
  rcases foldAll_cases hw hfuel with ⟨e, b, is, hb, hturned, hfault⟩ | ⟨count, folded, b, hle, hb, hfolds⟩
  · exact .inl ⟨e, b, is, by rw [foldConstants, foldPass, hb], hturned, hfault⟩
  · have hpass : a.foldPass = (.ok folded, b) := hb
    obtain ⟨hturned, hnodup, hsub, hnone⟩ := hfolds.turned hw
    obtain ⟨plan, hplan, -, -, hplansub⟩ := resetPlan_spec hturned.toWellFormed
    have hexhausted := exhausted_of_foldable hturned.toWellFormed hnone
    refine .inr ⟨count, folded, b, _, hle, hfolds, hpass, hplan, ?_, hnodup, hsub, fun i hi => hturned.const hi,
      hturned.plan_eq, hexhausted, fun i hi => hexhausted i (hplansub hi)⟩
    rw [foldConstants, hpass]
    simp only [hplan]

/-- In the shifted pair the shift is folded after a run, and then nothing is left to fold. -/
theorem shiftedPair_exhausted : ∃ start a, Analysis.start shiftedPair 3 none = .ok start ∧
    start.afterCalls [.runWithin 7] = a ∧
    ∃ c, a.foldConstants = (.ok [1], c) ∧ c.Exhausted := by
  obtain ⟨start, hstart, hfold⟩ : ∃ start, Analysis.start shiftedPair 3 none = .ok start ∧
      (start.afterCalls [.runWithin 7]).foldConstants.1.toOption = some [1] :=
    ⟨_, rfl, by decide +kernel⟩
  refine ⟨start, _, hstart, rfl, ?_⟩
  rcases foldConstants_exhausts hstart (show start.afterCalls [.runWithin 7] = _ from rfl) with
    ⟨e, b, _, hb, -⟩ | ⟨count, folded, b, c, -, -, -, -, hc, -, -, -, -, -, hexhausted⟩
  · rw [hb] at hfold
    cases hfold
  · rw [hc] at hfold
    cases hfold
    exact ⟨c, hc, hexhausted⟩

end Analysis

end EdgeFacts
