/-
# Facts that are the same stand for each other

Facts are the same if each refines the other; then they meet the same facts alike.
An operator respects this if it fails alike on facts that are the same, or infers
facts that are (`Operator.Respects`); operators of the library do
(`Operator.respects_of_library`). For such an operator a node with two sets of edges
around it infers the same from both, if the facts into it are the same and each
fact out of it in one set is refined by one in the other (`EdgesAlike`).

Key definitions: `Operator.Respects`, `EdgesAlike`.
Key theorems: `TensorFact.meet_same`, `Operator.respects_of_library`, `EdgesAlike.infers`,
`EdgesAlike.exists_met`.
-/
import EdgeFacts.Proofs.Around
import EdgeFacts.Proofs.Lockstep

namespace EdgeFacts

/-- Whether two facts are the same. -/
def SameFact (f g : TensorFact) : Prop := f.same g = true

namespace SameFact

variable {f g h : TensorFact}

theorem iff_refines : SameFact f g ↔ f.Refines g ∧ g.Refines f := TensorFact.same_iff_refines

theorem le (hfg : SameFact f g) : f.Refines g := (iff_refines.1 hfg).1

theorem ge (hfg : SameFact f g) : g.Refines f := (iff_refines.1 hfg).2

theorem refl (f : TensorFact) : SameFact f f := iff_refines.2 ⟨.refl f, .refl f⟩

theorem symm (hfg : SameFact f g) : SameFact g f := iff_refines.2 (iff_refines.1 hfg).symm

theorem trans (hfg : SameFact f g) (hgh : SameFact g h) : SameFact f h :=
  iff_refines.2 ⟨hfg.le.trans hgh.le, hgh.ge.trans hfg.ge⟩

end SameFact

theorem TensorFact.meet_same {a b c a' b' : TensorFact} (ha : SameFact a a') (hb : SameFact b b')
    (h : a.meet b = .ok c) : ∃ c', a'.meet b' = .ok c' ∧ SameFact c c' := by
  obtain ⟨c', hc', hle⟩ := isMeet.mono ha.le hb.le h
  obtain ⟨d, hd, hge⟩ := isMeet.mono ha.ge hb.ge hc'
  cases h.symm.trans hd
  exact ⟨c', hc', SameFact.iff_refines.2 ⟨hle, hge⟩⟩

/-- A fact that says what another tells meets it in itself. -/
theorem TensorFact.meet_of_refines {f g : TensorFact} (h : g.Refines f) :
    ∃ m, f.meet g = .ok m ∧ SameFact m g := by
  obtain ⟨m, hm, hle⟩ := isMeet.greatest h (.refl g)
  exact ⟨m, hm, SameFact.iff_refines.2 ⟨(isMeet.lower hm).2, hle⟩⟩

/-! ### Operators -/

/-- Whether two inferences of an operator say the same. -/
def SameRefinement (r s : Refinement) : Prop :=
  List.Forall₂ SameFact r.1 s.1 ∧ Option.Rel SameFact r.2 s.2

/-- Whether an operator fails alike on facts that are the same, or infers facts that are. -/
def Operator.Respects (op : Operator) : Prop :=
  ∀ (fs gs : List TensorFact) (y z : TensorFact), List.Forall₂ SameFact fs gs → SameFact y z →
    ResultsRelated SameRefinement (fun _ _ => True) (op.refine fs y) (op.refine gs z)

/-- **Operators of the library respect facts that are the same.** -/
theorem Operator.respects_of_library {op : Operator} (hop : op.IsLibrary) : op.Respects := by
  intro fs gs y z hfs hy
  have hle := hfs.imp fun _ _ h => h.le
  have hge : List.Forall₂ TensorFact.Refines gs fs := (hfs.imp fun _ _ h => h.ge).flip
  cases hr : op.refine fs y with
  | error e =>
    cases hs : op.refine gs z with
    | error e' => exact trivial
    | ok s =>
      obtain ⟨r, hr', -⟩ := Operator.refine_mono hop hge hy.ge hs
      cases hr.symm.trans hr'
  | ok r =>
    obtain ⟨s, hs, hins, f, g, hf, hg, hfg⟩ := Operator.refine_mono hop hle hy.le hr
    obtain ⟨r', hr', hins', g', f', hg', hf', hgf⟩ := Operator.refine_mono hop hge hy.ge hs
    cases hr.symm.trans hr'
    cases hf.symm.trans hf'
    cases hg.symm.trans hg'
    rw [hs]
    refine ⟨?_, ?_⟩
    · exact (forall₂_both hins hins'.flip).imp fun _ _ h => SameFact.iff_refines.2 h
    · rw [hf, hg]
      exact .some (SameFact.iff_refines.2 ⟨hfg, hgf⟩)

/-! ### Edges around a node -/

/-- Whether facts into a node are the same on two lists of edges, and each fact out
of it on one of two others is refined by one on the other. -/
structure EdgesAlike (before after before' after' : List Edge) : Prop where
  into : List.Forall₂ (fun e d => SameFact e.fact d.fact) before before'
  below : ∀ d ∈ after', ∃ e ∈ after, e.fact.Refines d.fact
  above : ∀ e ∈ after, ∃ d ∈ after', d.fact.Refines e.fact

namespace EdgesAlike

variable {before after before' after' : List Edge} (h : EdgesAlike before after before' after')
include h

theorem symm : EdgesAlike before' after' before after :=
  ⟨(h.into.imp fun _ _ hs => hs.symm).flip, h.above, h.below⟩

theorem meetAll {y : TensorFact} (hy : TensorFact.meetAll .unknown (after.map Edge.fact) = .ok y) :
    ∃ z, TensorFact.meetAll .unknown (after'.map Edge.fact) = .ok z ∧ SameFact y z := by
  have hbound {es ds : List Edge} {m : TensorFact} (hbelow : ∀ d ∈ ds, ∃ e ∈ es, e.fact.Refines d.fact)
      (hm : TensorFact.meetAll .unknown (es.map Edge.fact) = .ok m) : ∀ f ∈ ds.map Edge.fact, m.Refines f := by
    intro f hf
    obtain ⟨d, hd, rfl⟩ := List.mem_map.1 hf
    obtain ⟨e, he, hle⟩ := hbelow d hd
    exact ((TensorFact.meetAll_lower hm).2 _ (List.mem_map_of_mem he)).trans hle
  obtain ⟨z, hz, hyz⟩ := TensorFact.meetAll_greatest (TensorFact.refines_unknown y) (hbound h.below hy)
  obtain ⟨y', hy', hzy⟩ := TensorFact.meetAll_greatest (TensorFact.refines_unknown z) (hbound h.above hz)
  cases hy.symm.trans hy'
  exact ⟨z, hz, SameFact.iff_refines.2 ⟨hyz, hzy⟩⟩

theorem infers {op : Operator} (hop : op.Respects) (hport : OnePort after') {ins : List TensorFact}
    {out : TensorFact} (hi : Infers op before after ins out) :
    ∃ ins' out', Infers op before' after' ins' out' ∧ List.Forall₂ SameFact ins ins' ∧ SameFact out out' := by
  obtain ⟨-, ⟨y, hy, hr⟩, hlen⟩ := hi
  obtain ⟨z, hz, hyz⟩ := h.meetAll hy
  have hfacts : List.Forall₂ SameFact (before.map Edge.fact) (before'.map Edge.fact) := by
    rw [List.forall₂_map_left_iff, List.forall₂_map_right_iff]
    exact h.into
  have hrelated := hop _ _ _ _ hfacts hyz
  rw [hr] at hrelated
  rcases hs : op.refine (before'.map Edge.fact) z with e | ⟨ins', out'⟩
  · rw [hs] at hrelated
    exact hrelated.elim
  · rw [hs] at hrelated
    obtain ⟨hins, hout⟩ := hrelated
    cases hout with
    | some hout =>
      exact ⟨ins', _, ⟨hport, ⟨z, hz, hs⟩, hins.length_eq.symm.trans (hlen.trans h.into.length_eq)⟩, hins, hout⟩

variable {ins ins' : List TensorFact} {out out' : TensorFact} (hins : List.Forall₂ SameFact ins ins')
  (hout : SameFact out out')
include hins hout

/-- Where what is inferred can be met with the facts on edges, so can the same. -/
theorem met (hlen : ins.length = before.length)
    (hmet : ∀ x ∈ pairsFor before after ins out, ∃ m, x.1.meet x.2.fact = .ok m) :
    ∀ x ∈ pairsFor before' after' ins' out', ∃ m, x.1.meet x.2.fact = .ok m := by
  have hlen' : ins'.length = before'.length := hins.length_eq.symm.trans (hlen.trans h.into.length_eq)
  intro x hx
  rcases (mem_pairsFor hlen').1 hx with hx | ⟨d, hd, rfl⟩
  · obtain ⟨k, hk, rfl⟩ := List.mem_iff_getElem.1 hx
    rw [List.length_zip] at hk
    have hki : k < ins.length := hins.length_eq.symm ▸ (by omega)
    have hkb : k < before.length := hlen ▸ hki
    have hmem : (ins[k], before[k]) ∈ ins.zip before :=
      List.mem_iff_getElem.2 ⟨k, by rw [List.length_zip]; omega, List.getElem_zip⟩
    obtain ⟨m, hm⟩ := hmet _ ((mem_pairsFor hlen).2 (.inl hmem))
    obtain ⟨m', hm', -⟩ := TensorFact.meet_same (hins.get hki (by omega)) (h.into.get hkb (by omega)) hm
    rw [List.getElem_zip]
    exact ⟨m', hm'⟩
  · obtain ⟨e, he, hle⟩ := h.below d hd
    obtain ⟨m, hm⟩ := hmet _ ((mem_pairsFor hlen).2 (.inr ⟨e, he, rfl⟩))
    obtain ⟨m', hm', -⟩ := TensorFact.isMeet.mono hout.le hle hm
    exact ⟨m', hm'⟩

omit hins hout in
/-- **Where a node infers facts that can be met with those on edges around it, it
infers the same from edges alike**, and they can be met there. -/
theorem exists_met {op : Operator} (hop : op.Respects) (hport : OnePort after')
    (hi : Infers op before after ins out) {r : List (Nat × TensorFact)}
    (hr : List.Forall₂ Met (pairsFor before after ins out) r) :
    ∃ ins' out' r', Infers op before' after' ins' out' ∧ List.Forall₂ Met (pairsFor before' after' ins' out') r' ∧
      List.Forall₂ SameFact ins ins' ∧ SameFact out out' := by
  obtain ⟨ins', out', hi', hins, hout⟩ := h.infers hop hport hi
  have hmet := h.met hins hout hi.length_eq fun x hx => by
    obtain ⟨p, -, -, hp⟩ := exists_of_forall₂ hr.flip x hx
    exact ⟨p.2, hp⟩
  obtain ⟨r', hr'⟩ : ∃ r', List.Forall₂ Met (pairsFor before' after' ins' out') r' :=
    exists_forall₂_of_forall fun x hx => by
      obtain ⟨m, hm⟩ := hmet x hx
      exact ⟨(x.2.id, m), rfl, hm⟩
  exact ⟨ins', out', r', hi', hr', hins, hout⟩

end EdgesAlike

end EdgeFacts
