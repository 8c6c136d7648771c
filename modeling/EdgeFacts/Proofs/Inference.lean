/-
# What a visit of a node does

Visiting a node combines the facts out of it, lets its operator infer, and meets
what is inferred with the facts on the edges around it (`Analysis.inferred_eq_ok_iff`).
In the order of analyses of one graph (`Analysis.Refines`), what is inferred from
finer facts is finer, and where the coarser facts are refused so are the finer
ones (`Analysis.inferred_mono`). A commit goes down in this order, no further
than what is inferred, and reports a change exactly if a fact says something new.
What holds of facts that operators infer and of meets holds of all facts after a
visit (`TensorFact.MeetClosed.visit`).

Key definitions: `Analysis.Refines`, `Analysis.Inference`, `Analysis.visit`, `TensorFact.MeetClosed`.
Key theorems: `Analysis.inferred_mono`, `Analysis.commit_refines`,
`Analysis.refines_commit`, `TensorFact.MeetClosed.visit`, `Analysis.visit_changed`.
-/
import EdgeFacts.Proofs.Monotone
import EdgeFacts.Proofs.WellFormed

namespace EdgeFacts

theorem TensorFact.meetAll_cons {start f out : TensorFact} {fs : List TensorFact} :
    TensorFact.meetAll start (f :: fs) = .ok out ↔
      ∃ g, start.meet f = .ok g ∧ TensorFact.meetAll g fs = .ok out := by
  simp only [meetAll, List.foldlM_cons, bind_eq_ok_iff]

theorem TensorFact.meetAll_lower : ∀ {fs : List TensorFact} {start out : TensorFact},
    TensorFact.meetAll start fs = .ok out → out.Refines start ∧ ∀ f ∈ fs, out.Refines f
  | [], start, out, h => by
    cases h
    exact ⟨.refl _, fun f hf => by cases hf⟩
  | f :: fs, start, out, h => by
    obtain ⟨g, hg, h⟩ := meetAll_cons.1 h
    obtain ⟨hgs, hgf⟩ := isMeet.lower hg
    obtain ⟨hog, hofs⟩ := meetAll_lower h
    refine ⟨hog.trans hgs, fun k hk => ?_⟩
    rcases List.mem_cons.1 hk with rfl | hk
    · exact hog.trans hgf
    · exact hofs k hk

theorem TensorFact.meetAll_greatest {d : TensorFact} : ∀ {fs : List TensorFact} {start : TensorFact},
    d.Refines start → (∀ f ∈ fs, d.Refines f) →
    ∃ out, TensorFact.meetAll start fs = .ok out ∧ d.Refines out
  | [], start, hs, _ => ⟨start, rfl, hs⟩
  | f :: fs, start, hs, hfs => by
    obtain ⟨g, hg, hdg⟩ := isMeet.greatest hs (hfs f (.head _))
    obtain ⟨out, ho, hdo⟩ := meetAll_greatest hdg fun k hk => hfs k (.tail _ hk)
    exact ⟨out, meetAll_cons.2 ⟨g, hg, ho⟩, hdo⟩

theorem TensorFact.meetAll_mono {fs gs : List TensorFact} {out : TensorFact}
    (h : List.Forall₂ TensorFact.Refines fs gs) (ho : TensorFact.meetAll .unknown fs = .ok out) :
    ∃ out', TensorFact.meetAll .unknown gs = .ok out' ∧ out.Refines out' := by
  refine meetAll_greatest (refines_unknown _) fun g hg => ?_
  obtain ⟨-, hlow⟩ := meetAll_lower ho
  obtain ⟨k, hk, rfl⟩ := List.mem_iff_getElem.1 hg
  have hkf : k < fs.length := h.length_eq ▸ hk
  exact (hlow _ (List.getElem_mem hkf)).trans (h.get hkf hk)

namespace Analysis

/-- Whether all operators of a graph are of the library. -/
def OfLibrary (a : Analysis) : Prop := ∀ n ∈ a.nodes, n.op.IsLibrary

/-! ### The order of analyses -/

/-- Whether an analysis is of the same graph as another and knows at least as
much on every edge. -/
structure Refines (a b : Analysis) : Prop extends SameGraph a b where
  facts : ∀ (j : Nat) (e d : Edge), a.edges[j]? = some e → b.edges[j]? = some d → e.fact.Refines d.fact

theorem Refines.refl (a : Analysis) : Refines a a :=
  ⟨.refl a, fun _ _ _ he hd => by cases he.symm.trans hd; exact .refl _⟩

theorem Refines.trans {a b c : Analysis} (h : Refines a b) (k : Refines b c) : Refines a c := by
  refine ⟨h.toSameGraph.trans k.toSameGraph, fun j e f he hf => ?_⟩
  obtain ⟨d, hd, -⟩ := h.exists_edge he
  exact (h.facts j e d he hd).trans (k.facts j d f hd hf)

theorem Refines.exists_finer {a b : Analysis} (h : Refines a b) {j : Nat} {d : Edge}
    (hd : b.edges[j]? = some d) : ∃ e, a.edges[j]? = some e ∧ e.ends = d.ends ∧ e.fact.Refines d.fact := by
  obtain ⟨e, he, hde⟩ := h.symm.exists_edge hd
  exact ⟨e, he, hde.symm, h.facts j e d he hd⟩

/-! ### Facts on edges -/

theorem factOf_eq_ok_iff {a : Analysis} {j : Nat} {f : TensorFact} :
    a.factOf j = .ok f ↔ ∃ e, a.edges[j]? = some e ∧ e.fact = f := by
  simp [factOf, map_eq_ok_iff, itemAt_eq_ok_iff]

theorem factOf_of_getElem? {a : Analysis} {j : Nat} {e : Edge} (h : a.edges[j]? = some e) :
    a.factOf j = .ok e.fact :=
  factOf_eq_ok_iff.2 ⟨e, h, rfl⟩

/-- A fact put on an edge, and what it was met from. -/
def Combined (a : Analysis) (x : TensorFact × Nat) (p : Nat × TensorFact) : Prop :=
  p.1 = x.2 ∧ ∃ g, a.factOf x.2 = .ok g ∧ x.1.meet g = .ok p.2

theorem refinePairs_eq_ok_iff {a : Analysis} : ∀ {fs : List TensorFact} {js : List Nat}
    {r : List (Nat × TensorFact)},
    a.refinePairs fs js = .ok r ↔ List.Forall₂ (Combined a) (fs.zip js) r
  | [], _, r => by simp [refinePairs, eq_comm]
  | _ :: _, [], r => by simp [refinePairs, eq_comm]
  | f :: fs, j :: js, r => by
    have tail : ∀ {r}, a.refinePairs fs js = .ok r ↔ _ := refinePairs_eq_ok_iff
    simp only [refinePairs, bind_eq_ok_iff, pure_eq_ok, List.zip_cons_cons, tail,
      List.forall₂_cons_left_iff, Combined, Except.ok.injEq]
    constructor
    · rintro ⟨g, hg, h, hh, rest, hrest, rfl⟩
      exact ⟨(j, h), rest, ⟨rfl, g, hg, hh⟩, hrest, rfl⟩
    · rintro ⟨⟨k, h⟩, rest, ⟨rfl, g, hg, hh⟩, hrest, rfl⟩
      exact ⟨g, hg, h, hh, rest, hrest, rfl⟩

theorem refineEdges_eq {a : Analysis} (f : TensorFact) : ∀ js : List Nat,
    a.refineEdges f js = a.refinePairs (js.map fun _ => f) js
  | [] => rfl
  | j :: js => by
    simp only [refineEdges, List.map_cons, refinePairs, refineEdges_eq f js]

theorem factsOf_eq_ok_iff {a : Analysis} {js : List Nat} {fs : List TensorFact} :
    a.factsOf js = .ok fs ↔ List.Forall₂ (fun j f => a.factOf j = .ok f) js fs := mapM_eq_ok_iff

theorem haveOnePort_eq_ok_iff {a : Analysis} {js : List Nat} {b : Bool} :
    a.haveOnePort js = .ok b ↔ ∃ es, List.Forall₂ (fun j e => a.edges[j]? = some e) js es ∧
      b = match es.map Edge.port with
        | [] => true
        | p :: rest => rest.all (· = p) := by
  simp only [haveOnePort, bind_eq_ok_iff, mapM_eq_ok_iff, itemAt_eq_ok_iff]
  refine exists_congr fun es => and_congr_right fun _ => ?_
  cases es <;> simp [pure, Except.pure, eq_comm]

/-- A successful inference at a node: the edges around it and the facts on them,
what its operator infers, and what comes of that together with those facts. -/
structure Inference (a : Analysis) (n : Node) (refined : List (Nat × TensorFact)) where
  before : List Nat
  after : List Nat
  inputs : List TensorFact
  outputs : List TensorFact
  output : TensorFact
  newInputs : List TensorFact
  newOutput : TensorFact
  incoming_eq : a.incoming[n.id.toNat]? = some before
  outgoing_eq : a.outgoing[n.id.toNat]? = some after
  onePort : a.haveOnePort after = .ok true
  inputs_eq : a.factsOf before = .ok inputs
  outputs_eq : a.factsOf after = .ok outputs
  output_eq : TensorFact.meetAll .unknown outputs = .ok output
  refine_eq : n.op.refine inputs output = .ok (newInputs, some newOutput)
  length_eq : newInputs.length = before.length
  combined : List.Forall₂ (Combined a)
    ((newInputs ++ after.map fun _ => newOutput).zip (before ++ after)) refined

theorem refinePairs_append {a : Analysis} {fs gs : List TensorFact} {js ks : List Nat}
    {r : List (Nat × TensorFact)} (hl : fs.length = js.length) :
    (∃ r₁ r₂, a.refinePairs fs js = .ok r₁ ∧ a.refinePairs gs ks = .ok r₂ ∧ r₁ ++ r₂ = r) ↔
      List.Forall₂ (Combined a) ((fs ++ gs).zip (js ++ ks)) r := by
  simp only [refinePairs_eq_ok_iff, List.zip_append hl]
  constructor
  · rintro ⟨r₁, r₂, h₁, h₂, rfl⟩
    exact List.rel_append h₁ h₂
  · intro h
    have h₁ := List.forall₂_take (fs.zip js).length h
    have h₂ := List.forall₂_drop (fs.zip js).length h
    rw [List.take_left] at h₁
    rw [List.drop_left] at h₂
    exact ⟨_, _, h₁, h₂, List.take_append_drop _ r⟩

theorem inferred_eq_ok_iff {a : Analysis} {n : Node} {r : List (Nat × TensorFact)} :
    a.inferred n = .ok r ↔ Nonempty (Inference a n r) := by
  constructor
  · intro h
    simp only [inferred, bind_eq_ok_iff, itemAt_eq_ok_iff] at h
    obtain ⟨before, hb, after, ha, onePort, hp, h⟩ := h
    cases onePort with
    | false => cases h
    | true =>
      simp only [Bool.not_true, Bool.false_eq_true, if_false, bind_eq_ok_iff, inContext_eq_ok_iff] at h
      obtain ⟨inputs, hi, outs, ho, output, hout, ⟨ins, out⟩, href, h⟩ := h
      cases out with
      | none => cases h
      | some out =>
        simp only [ne_eq, ite_not] at h
        split at h
        · rename_i hl
          simp only [bind_eq_ok_iff, inContext_eq_ok_iff, pure_eq_ok, refineEdges_eq,
            Except.ok.injEq] at h
          obtain ⟨rin, hrin, rout, hrout, rfl⟩ := h
          exact ⟨⟨before, after, inputs, outs, output, ins, out, hb, ha, hp, hi, ho, hout, href, hl,
            (refinePairs_append hl).1 ⟨rin, rout, hrin, hrout, rfl⟩⟩⟩
        · cases h
  · rintro ⟨before, after, inputs, outs, output, ins, out, hb, ha, hp, hi, ho, hout, href, hl, hr⟩
    obtain ⟨rin, rout, hrin, hrout, rfl⟩ := (refinePairs_append hl).2 hr
    simp only [inferred, bind_eq_ok_iff, itemAt_eq_ok_iff]
    refine ⟨before, hb, after, ha, true, hp, ?_⟩
    simp only [Bool.not_true, Bool.false_eq_true, if_false, bind_eq_ok_iff, inContext_eq_ok_iff]
    refine ⟨inputs, hi, outs, ho, output, hout, (ins, some out), href, ?_⟩
    simp only [ne_eq, hl, not_true_eq_false, if_false, bind_eq_ok_iff, inContext_eq_ok_iff,
      refineEdges_eq]
    exact ⟨rin, hrin, rout, hrout, rfl⟩

/-! ### Inference is monotone -/

theorem Refines.factOf {a b : Analysis} (h : Refines b a) {j : Nat} {f' : TensorFact}
    (hf : b.factOf j = .ok f') : ∃ f, a.factOf j = .ok f ∧ f'.Refines f := by
  obtain ⟨e, he, rfl⟩ := factOf_eq_ok_iff.1 hf
  obtain ⟨d, hd, -⟩ := h.exists_edge he
  exact ⟨d.fact, factOf_of_getElem? hd, h.facts j e d he hd⟩

theorem Refines.factsOf {a b : Analysis} (h : Refines b a) {js : List Nat} {fs' : List TensorFact}
    (hf : b.factsOf js = .ok fs') :
    ∃ fs, a.factsOf js = .ok fs ∧ List.Forall₂ TensorFact.Refines fs' fs := by
  obtain ⟨fs, hfs, hr⟩ := exists_forall₂
    (fun j _ f (hj : b.factOf j = .ok f) => h.factOf hj) (factsOf_eq_ok_iff.1 hf)
  exact ⟨fs, factsOf_eq_ok_iff.2 hfs, hr⟩

theorem SameGraph.haveOnePort {a b : Analysis} (h : SameGraph b a) {js : List Nat} {p : Bool}
    (hp : b.haveOnePort js = .ok p) : a.haveOnePort js = .ok p := by
  obtain ⟨es, hes, rfl⟩ := haveOnePort_eq_ok_iff.1 hp
  obtain ⟨ds, hds, hed⟩ := exists_forall₂
    (fun j _ e (he : b.edges[j]? = some e) => h.exists_edge he) hes
  refine haveOnePort_eq_ok_iff.2 ⟨ds, hds, ?_⟩
  have hports : es.map Edge.port = ds.map Edge.port := by
    rw [← List.forall₂_eq_eq_eq, List.forall₂_map_left_iff, List.forall₂_map_right_iff]
    exact hed.imp fun e d h => (Edge.ends_eq_iff.1 h).2.2.1
  rw [hports]

/-- Whether a fact put on an edge says at least what another puts there. -/
def PairRefines (p q : Nat × TensorFact) : Prop := p.1 = q.1 ∧ p.2.Refines q.2

theorem Refines.combined {a b : Analysis} (h : Refines b a) {fs fs' : List TensorFact} {js : List Nat}
    {r' : List (Nat × TensorFact)} (hle : List.Forall₂ TensorFact.Refines fs' fs)
    (hr : List.Forall₂ (Combined b) (fs'.zip js) r') :
    ∃ r, List.Forall₂ (Combined a) (fs.zip js) r ∧ List.Forall₂ PairRefines r' r := by
  induction hle generalizing js r' with
  | nil =>
    cases hr
    exact ⟨[], .nil, .nil⟩
  | @cons f' f fs' fs hf hfs ih =>
    cases js with
    | nil =>
      cases hr
      exact ⟨[], .nil, .nil⟩
    | cons j js =>
      rw [List.zip_cons_cons, List.forall₂_cons_left_iff] at hr
      obtain ⟨p, r', ⟨hkey, g', hg', hm'⟩, hr, rfl⟩ := hr
      obtain ⟨g, hg, hgg⟩ := h.factOf hg'
      obtain ⟨m, hm, hmm⟩ := TensorFact.isMeet.mono hf hgg hm'
      obtain ⟨r, hr, hrr⟩ := ih hr
      exact ⟨(j, m) :: r, .cons ⟨rfl, g, hg, hm⟩ hr, .cons ⟨hkey, hmm⟩ hrr⟩

/-- **Inference is monotone.** What a node of the library infers from finer
facts is finer, and if it accepts them it accepts the coarser ones. -/
theorem inferred_mono {a b : Analysis} {n : Node} (hop : n.op.IsLibrary) (h : Refines b a)
    {r' : List (Nat × TensorFact)} (hr : b.inferred n = .ok r') :
    ∃ r, a.inferred n = .ok r ∧ List.Forall₂ PairRefines r' r := by
  obtain ⟨s⟩ := inferred_eq_ok_iff.1 hr
  obtain ⟨inputs, hi, hii⟩ := h.factsOf s.inputs_eq
  obtain ⟨outputs, ho, hoo⟩ := h.factsOf s.outputs_eq
  obtain ⟨output, hout, hoout⟩ := TensorFact.meetAll_mono hoo s.output_eq
  obtain ⟨⟨ins, out'⟩, hrefine, hins, out, newOut, hnew, rfl, hle⟩ :=
    Operator.refine_mono hop hii hoout s.refine_eq
  cases hnew
  have hconst : List.Forall₂ TensorFact.Refines (s.after.map fun _ => s.newOutput)
      (s.after.map fun _ => newOut) := by
    rw [List.forall₂_map_left_iff, List.forall₂_map_right_iff]
    exact List.forall₂_same.2 fun _ _ => hle
  obtain ⟨r, hr, hrr⟩ := h.combined (List.rel_append hins hconst) s.combined
  exact ⟨r, inferred_eq_ok_iff.2 ⟨⟨s.before, s.after, inputs, outputs, output, ins, newOut,
    h.incoming ▸ s.incoming_eq, h.outgoing ▸ s.outgoing_eq, h.haveOnePort s.onePort, hi, ho, hout,
    hrefine, hins.length_eq.symm.trans s.length_eq, hr⟩⟩, hrr⟩

/-! ### Commits -/

theorem ends_commitEdges : ∀ (r : List (Nat × TensorFact)) (edges : List Edge),
    (commitEdges edges r).2.map Edge.ends = edges.map Edge.ends
  | [], _ => rfl
  | (j, f) :: r, edges => by
    simp only [commitEdges]
    split
    · exact ends_commitEdges r edges
    · rename_i e he
      split
      · exact ends_commitEdges r edges
      · refine (ends_commitEdges r _).trans ?_
        rw [List.map_set]
        refine List.ext_getElem? fun k => ?_
        rw [List.getElem?_set]
        split
        · rename_i hjk
          subst hjk
          obtain ⟨hlt, rfl⟩ := List.getElem?_eq_some_iff.1 he
          simp [hlt, Edge.ends]
        · rfl

/-- What holds of all edges, and stays true of an edge that is given a new fact,
holds of all edges after a commit. -/
theorem commitEdges_induction {P : Nat → Edge → Prop} : ∀ {r : List (Nat × TensorFact)} {edges : List Edge},
    (∀ (j : Nat) (e : Edge), edges[j]? = some e → P j e) →
    (∀ p ∈ r, ∀ e, P p.1 e → P p.1 { e with fact := p.2 }) →
    ∀ (j : Nat) (e : Edge), (commitEdges edges r).2[j]? = some e → P j e
  | [], _, h, _ => h
  | (k, f) :: r, edges, h, hr => by
    have hrest := fun p hp => hr p (List.mem_cons_of_mem _ hp)
    simp only [commitEdges]
    split
    · exact commitEdges_induction h hrest
    · rename_i d hd
      split
      · exact commitEdges_induction h hrest
      · refine commitEdges_induction (fun j e he => ?_) hrest
        rw [List.getElem?_set] at he
        split at he
        · rename_i hkj
          subst hkj
          split at he
          · cases he
            exact hr _ (.head _) d (h _ d hd)
          · cases he
        · exact h j e he

theorem commit_sameGraph (a : Analysis) (r : List (Nat × TensorFact)) : SameGraph (a.commit r).2 a :=
  ⟨rfl, ends_commitEdges r a.edges, rfl, rfl, rfl, rfl, rfl⟩

theorem commit_refines {a : Analysis} {r : List (Nat × TensorFact)}
    (h : ∀ p ∈ r, ∀ e, a.edges[p.1]? = some e → p.2.Refines e.fact) : Refines (a.commit r).2 a := by
  refine ⟨commit_sameGraph a r, ?_⟩
  have key : ∀ (j : Nat) (e : Edge), (commitEdges a.edges r).2[j]? = some e →
      ∀ d, a.edges[j]? = some d → e.fact.Refines d.fact :=
    commitEdges_induction (fun j e he d hd => by cases he.symm.trans hd; exact .refl _)
      fun p hp _ _ d hd => h p hp d hd
  exact fun j e d he hd => key j e he d hd

/-- A commit goes no further down than what is committed. -/
theorem refines_commit {a b : Analysis} {r : List (Nat × TensorFact)} (h : Refines b a)
    (hr : ∀ p ∈ r, ∀ e, b.edges[p.1]? = some e → e.fact.Refines p.2) : Refines b (a.commit r).2 := by
  refine ⟨h.toSameGraph.trans (commit_sameGraph a r).symm, ?_⟩
  have key : ∀ (j : Nat) (e : Edge), (commitEdges a.edges r).2[j]? = some e →
      ∀ d : Edge, b.edges[j]? = some d → d.fact.Refines e.fact :=
    commitEdges_induction (fun j e he d hd => h.facts j d e hd he) fun p hp _ _ d hd => hr p hp d hd
  exact fun j d e hd he => key j e he d hd

/-- Nothing changes exactly if all that is committed is known already. -/
theorem commitEdges_eq_false_iff : ∀ {r : List (Nat × TensorFact)} {edges : List Edge},
    (commitEdges edges r).1 = false ↔ ∀ p ∈ r, ∀ e, edges[p.1]? = some e → p.2.same e.fact = true
  | [], _ => by simp [commitEdges]
  | (j, f) :: r, edges => by
    have tail : (commitEdges edges r).1 = false ↔ _ := commitEdges_eq_false_iff
    simp only [commitEdges, List.forall_mem_cons]
    split
    · rename_i hj
      simp only [tail, hj]
      exact ⟨fun h => ⟨fun _ he => (nomatch he), h⟩, And.right⟩
    · rename_i e he
      split
      · rename_i hs
        simp [tail, he, hs]
      · rename_i hs
        simp [he, hs]

theorem commitEdges_unchanged : ∀ {r : List (Nat × TensorFact)} {edges : List Edge},
    (commitEdges edges r).1 = false → (commitEdges edges r).2 = edges
  | [], _, _ => rfl
  | (j, f) :: r, edges, h => by
    simp only [commitEdges] at h ⊢
    split
    · rename_i hj
      rw [hj] at h
      exact commitEdges_unchanged h
    · rename_i e he
      simp only [he] at h
      split
      · rename_i hs
        rw [if_pos hs] at h
        exact commitEdges_unchanged h
      · rename_i hs
        rw [if_neg hs] at h
        cases h

theorem commit_unchanged {a : Analysis} {r : List (Nat × TensorFact)} (h : (a.commit r).1 = false) :
    (a.commit r).2 = a := by
  have hedges : (commitEdges a.edges r).2 = a.edges := commitEdges_unchanged h
  simp only [commit, hedges]

theorem commitEdges_getElem?_of_notMem {j : Nat} : ∀ {r : List (Nat × TensorFact)} {edges : List Edge},
    j ∉ r.map Prod.fst → (commitEdges edges r).2[j]? = edges[j]?
  | [], _, _ => rfl
  | (k, f) :: r, edges, h => by
    simp only [List.map_cons, List.mem_cons, not_or] at h
    simp only [commitEdges]
    split
    · exact commitEdges_getElem?_of_notMem h.2
    · split
      · exact commitEdges_getElem?_of_notMem h.2
      · simp only [commitEdges_getElem?_of_notMem h.2]
        exact List.getElem?_set_ne (Ne.symm h.1)

/-- If each edge is given one fact, a commit that reports a change leaves a new
fact on some edge. -/
theorem commitEdges_changed : ∀ {r : List (Nat × TensorFact)} {edges : List Edge},
    (r.map Prod.fst).Nodup → (commitEdges edges r).1 = true →
    ∃ (j : Nat) (e d : Edge), (commitEdges edges r).2[j]? = some e ∧ edges[j]? = some d ∧
      e.fact.same d.fact = false
  | [], _, _, h => by cases h
  | (k, f) :: r, edges, hn, h => by
    simp only [List.map_cons, List.nodup_cons] at hn
    simp only [commitEdges] at h ⊢
    split
    · rename_i hk
      rw [hk] at h
      exact commitEdges_changed hn.2 h
    · rename_i d hd
      simp only [hd] at h
      split
      · rename_i hs
        rw [if_pos hs] at h
        exact commitEdges_changed hn.2 h
      · rename_i hs
        refine ⟨k, { d with fact := f }, d, ?_, hd, by simpa using hs⟩
        simp only [commitEdges_getElem?_of_notMem hn.1]
        rw [List.getElem?_set_self (List.getElem?_eq_some_iff.1 hd).1]

/-- What a hint does: it is met with the facts on the edges out of its node. -/
theorem hint_eq_ok_iff {a b : Analysis} {node : Int} {f : TensorFact} :
    a.hint node f = .ok b ↔ ∃ i js r, a.nodeIndex node = .ok i ∧ a.outgoing[i]? = some js ∧
      List.Forall₂ (Combined a) ((js.map fun _ => f).zip js) r ∧ (a.commit r).2 = b := by
  simp only [hint, bind_eq_ok_iff, itemAt_eq_ok_iff, pure_eq_ok, refineEdges_eq,
    refinePairs_eq_ok_iff, Except.ok.injEq]
  constructor
  · rintro ⟨i, hi, js, hjs, r, hr, rfl⟩
    exact ⟨i, js, r, hi, hjs, hr, rfl⟩
  · rintro ⟨i, js, r, hi, hjs, hr, rfl⟩
    exact ⟨i, hi, js, hjs, r, hr, rfl⟩

/-- A hint by name is one for the first node with the name. -/
theorem hintByName_eq_ok_iff {a b : Analysis} {name : String} {f : TensorFact} :
    a.hintByName name f = .ok b ↔ ∃ n, a.nodes.find? (·.name = name) = some n ∧ a.hint n.id f = .ok b := by
  rw [hintByName]
  cases a.nodes.find? (·.name = name) <;> simp

/-! ### Visits -/

/-- Lets a node refine the facts on the edges around it. -/
def visit (a : Analysis) (i : Nat) : Except Failure (Bool × Analysis) := do
  return a.commit (← a.inferred (← itemAt a.nodes i))

theorem visit_eq_ok_iff {a a' : Analysis} {i : Nat} {changed : Bool} :
    a.visit i = .ok (changed, a') ↔
      ∃ n r, a.nodes[i]? = some n ∧ a.inferred n = .ok r ∧ a.commit r = (changed, a') := by
  simp only [visit, bind_eq_ok_iff, itemAt_eq_ok_iff, pure_eq_ok, Except.ok.injEq, exists_and_left]

theorem combined_refines_edge {a : Analysis} {xs : List (TensorFact × Nat)} {r : List (Nat × TensorFact)}
    (h : List.Forall₂ (Combined a) xs r) :
    ∀ p ∈ r, ∀ e, a.edges[p.1]? = some e → p.2.Refines e.fact := by
  intro p hp e he
  obtain ⟨k, hk, rfl⟩ := List.mem_iff_getElem.1 hp
  obtain ⟨hkey, g, hg, hm⟩ := h.get (h.length_eq ▸ hk) hk
  simp only [List.get_eq_getElem] at hkey hg hm
  rw [← hkey] at hg
  rw [factOf_of_getElem? he] at hg
  cases hg
  exact (TensorFact.isMeet.lower hm).2

theorem visit_refines {a a' : Analysis} {i : Nat} {changed : Bool} (h : a.visit i = .ok (changed, a')) :
    Refines a' a := by
  obtain ⟨n, r, -, hr, hc⟩ := visit_eq_ok_iff.1 h
  obtain ⟨s⟩ := inferred_eq_ok_iff.1 hr
  have := commit_refines (combined_refines_edge s.combined)
  rwa [hc] at this

theorem Inference.keys {a : Analysis} {n : Node} {r : List (Nat × TensorFact)} (s : Inference a n r) :
    r.map Prod.fst = s.before ++ s.after := by
  have hkeys : ∀ {xs : List (TensorFact × Nat)} {r : List (Nat × TensorFact)},
      List.Forall₂ (Combined a) xs r → r.map Prod.fst = xs.map Prod.snd := by
    intro xs r h
    induction h with
    | nil => rfl
    | cons hx _ ih => simp [hx.1, ih]
  rw [hkeys s.combined, List.map_snd_zip]
  simp [s.length_eq]

/-- Whether a node has nothing to add to the facts on the edges around it. -/
def StableAt (a : Analysis) (i : Nat) : Prop := ∃ a', a.visit i = .ok (false, a')

/-- Whether no node of the plan has anything to add. -/
def Stable (a : Analysis) : Prop := ∀ i ∈ a.plan, a.StableAt i

theorem visit_unchanged {a a' : Analysis} {i : Nat} (h : a.visit i = .ok (false, a')) : a' = a := by
  obtain ⟨n, r, -, -, hc⟩ := visit_eq_ok_iff.1 h
  have := commit_unchanged (congrArg Prod.fst hc)
  rwa [hc] at this

/-! ### Facts of one kind -/

/-- Whether all facts are of some kind. -/
def AllFacts (Q : TensorFact → Prop) (a : Analysis) : Prop := ∀ e ∈ a.edges, Q e.fact

theorem AllFacts.of_factOf {Q : TensorFact → Prop} {a : Analysis} (h : AllFacts Q a) {j : Nat} {f : TensorFact}
    (hf : a.factOf j = .ok f) : Q f := by
  obtain ⟨e, he, rfl⟩ := factOf_eq_ok_iff.1 hf
  exact h e (List.mem_of_getElem? he)

theorem AllFacts.of_factsOf {Q : TensorFact → Prop} {a : Analysis} (h : AllFacts Q a) {js : List Nat}
    {fs : List TensorFact} (hf : a.factsOf js = .ok fs) : ∀ f ∈ fs, Q f := by
  intro f hmem
  obtain ⟨k, hk, rfl⟩ := List.mem_iff_getElem.1 hmem
  have hall := factsOf_eq_ok_iff.1 hf
  exact h.of_factOf (hall.get (hall.length_eq ▸ hk) hk)

theorem AllFacts.commit {Q : TensorFact → Prop} {a : Analysis} (h : AllFacts Q a) {r : List (Nat × TensorFact)}
    (hr : ∀ p ∈ r, Q p.2) : AllFacts Q (a.commit r).2 := by
  have key : ∀ (j : Nat) (e : Edge), (commitEdges a.edges r).2[j]? = some e → Q e.fact :=
    commitEdges_induction (fun _ e he => h e (List.mem_of_getElem? he)) fun p hp _ _ => hr p hp
  intro e he
  obtain ⟨j, hj⟩ := List.mem_iff_getElem?.1 he
  exact key j e hj

end Analysis

/-- What holds of the unknown fact and of the meet of two facts of which it holds. -/
structure TensorFact.MeetClosed (Q : TensorFact → Prop) : Prop where
  unknown : Q .unknown
  meet : ∀ {f g m : TensorFact}, Q f → Q g → f.meet g = .ok m → Q m

namespace TensorFact.MeetClosed

open Analysis

variable {Q : TensorFact → Prop} (hQ : MeetClosed Q)
include hQ

theorem meetAll : ∀ {fs : List TensorFact} {start out : TensorFact}, Q start → (∀ f ∈ fs, Q f) →
    TensorFact.meetAll start fs = .ok out → Q out
  | [], _, _, hstart, _, h => by
    cases h
    exact hstart
  | f :: fs, _, _, hstart, hfs, h => by
    obtain ⟨g, hg, h⟩ := meetAll_cons.1 h
    exact meetAll (hQ.meet hstart (hfs f (.head _)) hg) (fun k hk => hfs k (.tail _ hk)) h

variable {a : Analysis} (h : AllFacts Q a)
include h

theorem combined {xs : List (TensorFact × Nat)} {r : List (Nat × TensorFact)} (hx : ∀ x ∈ xs, Q x.1)
    (hr : List.Forall₂ (Combined a) xs r) : ∀ p ∈ r, Q p.2 := by
  intro p hp
  obtain ⟨k, hk, rfl⟩ := List.mem_iff_getElem.1 hp
  have hk' : k < xs.length := hr.length_eq ▸ hk
  obtain ⟨-, g, hg, hm⟩ := hr.get hk' hk
  exact hQ.meet (hx _ (List.getElem_mem hk')) (h.of_factOf hg) hm

theorem hint {b : Analysis} {node : Int} {f : TensorFact} (hf : Q f) (hb : a.hint node f = .ok b) : AllFacts Q b := by
  obtain ⟨i, js, r, -, -, hr, rfl⟩ := hint_eq_ok_iff.1 hb
  refine h.commit (hQ.combined h (fun x hx => ?_) hr)
  obtain ⟨-, -, heq⟩ := List.mem_map.1 (List.of_mem_zip hx).1
  exact heq ▸ hf

theorem visit {a' : Analysis} {i : Nat} {changed : Bool} (hop : ∀ n ∈ a.nodes, ∀ {fs ins : List TensorFact}
      {y out : TensorFact}, (∀ f ∈ fs, Q f) → Q y → n.op.refine fs y = .ok (ins, some out) → (∀ f ∈ ins, Q f) ∧ Q out)
    (hv : a.visit i = .ok (changed, a')) : AllFacts Q a' := by
  obtain ⟨n, r, hn, hinf, hc⟩ := visit_eq_ok_iff.1 hv
  obtain ⟨s⟩ := inferred_eq_ok_iff.1 hinf
  have houtput : Q s.output := hQ.meetAll hQ.unknown (h.of_factsOf s.outputs_eq) s.output_eq
  obtain ⟨hins, hout⟩ := hop n (List.mem_of_getElem? hn) (h.of_factsOf s.inputs_eq) houtput s.refine_eq
  have hpairs : ∀ x ∈ (s.newInputs ++ s.after.map fun _ => s.newOutput).zip (s.before ++ s.after), Q x.1 := by
    intro x hx
    rcases List.mem_append.1 (List.of_mem_zip hx).1 with hmem | hmem
    · exact hins _ hmem
    · obtain ⟨-, -, heq⟩ := List.mem_map.1 hmem
      exact heq ▸ hout
  have hcommit := h.commit (hQ.combined h hpairs s.combined)
  rwa [hc] at hcommit

end TensorFact.MeetClosed

namespace Analysis

/-- A visit that reports a change leaves a fact on some edge that says something new. -/
theorem visit_changed {a a' : Analysis} {i : Nat} (hl : Linked a) (hp : Planned a) (hi : i ∈ a.plan)
    (h : a.visit i = .ok (true, a')) : ∃ (j : Nat) (e d : Edge), a'.edges[j]? = some e ∧
      a.edges[j]? = some d ∧ e.fact.same d.fact = false := by
  obtain ⟨n, r, hn, hinf, hc⟩ := visit_eq_ok_iff.1 h
  obtain ⟨s⟩ := inferred_eq_ok_iff.1 hinf
  have hid : n.id.toNat = i := by rw [hl.ids i n hn]; rfl
  have hlt := hp.lt i hi
  have hbefore : s.before = (a.edgesInto i).map Edge.id :=
    Option.some.inj ((hid ▸ s.incoming_eq).symm.trans (hl.incoming_getElem? hlt))
  have hafter : s.after = (a.edgesFrom i).map Edge.id :=
    Option.some.inj ((hid ▸ s.outgoing_eq).symm.trans (hl.outgoing_getElem? hlt))
  have hnodup : (r.map Prod.fst).Nodup := by
    rw [s.keys, hbefore, hafter]
    exact hp.nodup_around hl hi
  have hchanged : (commitEdges a.edges r).1 = true := congrArg Prod.fst hc
  have hedges : a'.edges = (commitEdges a.edges r).2 := (congrArg (fun x => x.2.edges) hc).symm
  rw [hedges]
  exact commitEdges_changed hnodup hchanged

/-- A visit never passes facts with which the node is content. -/
theorem visit_of_stableAt {a b : Analysis} {i : Nat} (hop : ∀ n, a.nodes[i]? = some n → n.op.IsLibrary)
    (h : Refines b a) (hb : b.StableAt i) : ∃ changed a', a.visit i = .ok (changed, a') ∧ Refines b a' := by
  obtain ⟨b', hb⟩ := hb
  obtain ⟨n, r', hn, hr', hc⟩ := visit_eq_ok_iff.1 hb
  have hn' : a.nodes[i]? = some n := h.nodes ▸ hn
  obtain ⟨r, hr, hrr⟩ := inferred_mono (hop n hn') h hr'
  refine ⟨_, _, visit_eq_ok_iff.2 ⟨n, r, hn', hr, rfl⟩, refines_commit h fun p hp e he => ?_⟩
  obtain ⟨k, hk, rfl⟩ := List.mem_iff_getElem.1 hp
  have hk' : k < r'.length := hrr.length_eq ▸ hk
  obtain ⟨hkey, hle⟩ := hrr.get hk' hk
  simp only [List.get_eq_getElem] at hkey hle
  have hsame := commitEdges_eq_false_iff.1 (show (commitEdges b.edges r').1 = false from
    congrArg Prod.fst hc) _ (List.getElem_mem hk') e (hkey ▸ he)
  exact (TensorFact.same_iff_refines.1 hsame).2.trans hle

end Analysis

end EdgeFacts
