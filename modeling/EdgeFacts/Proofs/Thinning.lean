/-
# Edges that nothing needs

The output of a planned node may also go to nodes outside the plan. Such an edge is
dead: no visit but that of its source changes it, and it never says more than the
live edges out of its source, since what is told of that output is told to all of
them. So without dead edges a visit infers the same (`Analysis.Thins.visit`), and
hints for planned nodes do the same (`Analysis.Thins.hint`). Dead edges can only take
longer to settle: where an analysis without them has settled, one round tells them
all there is to tell (`Analysis.Thins.catch_up`).

Key definitions: `Analysis.isLive`, `Edge.Matches`, `Analysis.Thins`, `Analysis.Beside`,
`Analysis.Caught`.
Key theorems: `Analysis.Thins.visit`, `Analysis.Thins.hint`, `Analysis.lockstep_beside`,
`Analysis.Thins.catch_up`.
-/
import EdgeFacts.Proofs.Core
import EdgeFacts.Proofs.Forward
import EdgeFacts.Proofs.SameFacts

namespace EdgeFacts

/-- Whether an edge has the ends of another with the numbers of what is kept, and a fact that is the same. -/
def Edge.Matches (usedNodes usedEdges : List Bool) (d e : Edge) : Prop :=
  d.ends = (Analysis.renumberEdge usedNodes usedEdges e).ends ∧ SameFact d.fact e.fact

theorem SameFact.committed (m : TensorFact) (e : Edge) :
    SameFact (if m.same e.fact = true then e else { e with fact := m }).fact m := by
  split
  · rename_i h
    exact SameFact.symm h
  · exact .refl m

theorem forall₂_zip {α β γ δ : Type} {R : α → β → Prop} {S : γ → δ → Prop} {as : List α} {bs : List β}
    {cs : List γ} {ds : List δ} (hr : List.Forall₂ R as bs) (hs : List.Forall₂ S cs ds) :
    List.Forall₂ (fun x y => R x.1 y.1 ∧ S x.2 y.2) (as.zip cs) (bs.zip ds) := by
  induction hr generalizing cs ds with
  | nil => exact .nil
  | cons hab _ ih =>
    cases hs with
    | nil => exact .nil
    | cons hcd hs => exact .cons ⟨hab, hcd⟩ (ih hs)

theorem pairsFor_eq {before after : List Edge} {ins : List TensorFact} {out : TensorFact}
    (hl : ins.length = before.length) :
    pairsFor before after ins out = ins.zip before ++ after.map fun e => (out, e) := by
  rw [pairsFor, List.zip_append hl, zip_const]

theorem Infers.unique {op : Operator} {before after : List Edge} {ins ins' : List TensorFact}
    {out out' : TensorFact} (h : Infers op before after ins out) (h' : Infers op before after ins' out') :
    ins = ins' ∧ out = out' := by
  obtain ⟨-, ⟨y, hy, hr⟩, -⟩ := h
  obtain ⟨-, ⟨z, hz, hs⟩, -⟩ := h'
  cases hy.symm.trans hz
  cases hr.symm.trans hs
  exact ⟨rfl, rfl⟩

namespace Analysis

/-! ### Live edges -/

/-- Whether an edge leads to a planned node or out of the graph. -/
def isLive (a : Analysis) (e : Edge) : Bool := e.target.all a.plan.contains

/-- Which edges are live. -/
def liveEdges (a : Analysis) : List Bool := a.edges.map a.isLive

theorem kept_map_self {α : Type} (p : α → Bool) : ∀ xs : List α, kept (xs.map p) xs = xs.filter p
  | [] => rfl
  | x :: xs => by
    have tail := kept_map_self p xs
    rw [List.map_cons, List.filter_cons]
    cases p x with
    | true => exact congrArg (x :: ·) tail
    | false => exact tail

section

variable {a b : Analysis}

theorem isLive_iff {e : Edge} : a.isLive e = true ↔ ∀ k, e.target = some k → k ∈ a.plan := by
  rw [isLive]
  cases e.target <;> simp

theorem isLive_of_target {e : Edge} {i : Nat} (hi : i ∈ a.plan) (ht : e.target = some i) : a.isLive e = true :=
  isLive_iff.2 fun _ hk => Option.some.inj (ht.symm.trans hk) ▸ hi

theorem length_liveEdges (a : Analysis) : a.liveEdges.length = a.edges.length := List.length_map _

theorem getD_liveEdges (hl : Linked a) {e : Edge} (he : e ∈ a.edges) :
    a.liveEdges.getD e.id false = a.isLive e := by
  rw [List.getD_eq_getElem?_getD, liveEdges, List.getElem?_map, hl.getElem?_id he]
  rfl

theorem SameGraph.isLive_eq (h : SameGraph b a) : b.isLive = a.isLive := by
  funext e
  rw [isLive, isLive, h.plan]

theorem SameGraph.liveEdges_eq (h : SameGraph b a) : b.liveEdges = a.liveEdges := by
  have hends (c : Analysis) :
      c.liveEdges = (c.edges.map Edge.ends).map fun x => x.2.2.2.all c.plan.contains := by
    rw [List.map_map]
    rfl
  rw [hends, hends, h.ends, h.plan]

end

/-- What a hint for a node does depends on the edges out of it alone. -/
theorem hint_eq_ok_iff_around {a b : Analysis} (hl : Linked a) {i : Nat} (hi : i < a.nodes.length) {f : TensorFact} :
    a.hint i f = .ok b ↔ ∃ r, List.Forall₂ Met ((a.edgesFrom i).map fun e => (f, e)) r ∧ (a.commit r).2 = b := by
  have hcombined {r : List (Nat × TensorFact)} :
      List.Forall₂ (Combined a) ((((a.edgesFrom i).map Edge.id).map fun _ => f).zip ((a.edgesFrom i).map Edge.id)) r ↔
        List.Forall₂ Met ((a.edgesFrom i).map fun e => (f, e)) r := by
    rw [forall₂_combined_iff hl fun e he => (mem_edgesFrom.1 he).1, List.map_map]
    exact iff_of_eq (congrArg (List.Forall₂ Met · r) (zip_const f _))
  rw [hint_eq_ok_iff]
  constructor
  · rintro ⟨k, js, r, hk, hjs, hr, rfl⟩
    obtain rfl : i = k := Int.natCast_inj.1 (nodeIndex_eq_ok_iff.1 hk).1
    cases hjs.symm.trans (hl.outgoing_getElem? hi)
    exact ⟨r, hcombined.1 hr, rfl⟩
  · rintro ⟨r, hr, rfl⟩
    exact ⟨i, _, r, nodeIndex_eq_ok_iff.2 ⟨rfl, hi⟩, hl.outgoing_getElem? hi, hcombined.2 hr, rfl⟩

/-! ### Without dead edges -/

/-- Whether an analysis is what is left of another one without its dead edges and
the nodes that they lead to, and knows the same on the live ones. -/
structure Thins (part full : Analysis) : Prop where
  linked : Linked part ∧ Linked full
  planned : Planned part ∧ Planned full
  nodes : part.nodes = full.pruned.nodes
  plan : part.plan = full.pruned.plan
  edges : List.Forall₂ (Edge.Matches full.usedNodes full.liveEdges) part.edges (kept full.liveEdges full.edges)
  /-- A dead edge says no more than a live one out of the same node. -/
  dead : ∀ e ∈ full.edges, ∀ d ∈ full.edges, full.isLive e = true → full.isLive d = false →
    e.source = d.source → e.fact.Refines d.fact
  onePort : ∀ i ∈ full.plan, OnePort (full.edgesFrom i)
  exists_live : ∀ i ∈ full.plan, ∃ e ∈ full.edgesFrom i, full.isLive e = true
  respects : ∀ n ∈ full.nodes, n.op.Respects

namespace Thins

variable {part full : Analysis} (h : Thins part full)
include h

theorem of_sameGraph {part' full' : Analysis} (hp : SameGraph part' part) (hf : SameGraph full' full)
    (hedges : List.Forall₂ (Edge.Matches full.usedNodes full.liveEdges) part'.edges
      (kept full.liveEdges full'.edges))
    (hdead : ∀ e ∈ full'.edges, ∀ d ∈ full'.edges, full.isLive e = true → full.isLive d = false →
      e.source = d.source → e.fact.Refines d.fact) : Thins part' full' where
  linked := ⟨hp.linked h.linked.1, hf.linked h.linked.2⟩
  planned := ⟨hp.planned h.planned.1, hf.planned h.planned.2⟩
  nodes := by
    rw [hp.nodes, h.nodes, pruned, pruned, hf.usedNodes_eq, hf.nodes]
  plan := by
    rw [hp.plan, h.plan, pruned, pruned, hf.usedNodes_eq, hf.plan]
  edges := by
    rw [hf.usedNodes_eq, hf.liveEdges_eq]
    exact hedges
  dead := by
    rw [hf.isLive_eq]
    exact hdead
  onePort i hi := by
    have hsame := h.onePort i (hf.plan ▸ hi)
    have hport : ∀ e ∈ full'.edgesFrom i, ∃ d ∈ full.edgesFrom i, e.port = d.port := by
      intro e he
      obtain ⟨hmem, hs⟩ := mem_edgesFrom.1 he
      obtain ⟨j, hj⟩ := List.mem_iff_getElem?.1 hmem
      obtain ⟨d, hd, hends⟩ := hf.exists_edge hj
      obtain ⟨-, hsource, hp, -⟩ := Edge.ends_eq_iff.1 hends
      exact ⟨d, mem_edgesFrom.2 ⟨List.mem_of_getElem? hd, hsource.symm.trans hs⟩, hp⟩
    intro e he d hd
    obtain ⟨e', he', hee⟩ := hport e he
    obtain ⟨d', hd', hdd⟩ := hport d hd
    rw [hee, hdd]
    exact hsame e' he' d' hd'
  exists_live i hi := by
    obtain ⟨e, he, hlive⟩ := h.exists_live i (hf.plan ▸ hi)
    obtain ⟨hmem, hs⟩ := mem_edgesFrom.1 he
    obtain ⟨j, hj⟩ := List.mem_iff_getElem?.1 hmem
    obtain ⟨d, hd, hends⟩ := hf.symm.exists_edge hj
    obtain ⟨-, hsource, -, htarget⟩ := Edge.ends_eq_iff.1 hends
    refine ⟨d, mem_edgesFrom.2 ⟨List.mem_of_getElem? hd, hsource.symm.trans hs⟩, ?_⟩
    rw [hf.isLive_eq, isLive, ← htarget]
    exact hlive
  respects := by
    rw [hf.nodes]
    exact h.respects

theorem movedTo (p s p' s' : Nat) (f f' : Bool) : Thins (part.movedTo p s f) (full.movedTo p' s' f') :=
  h.of_sameGraph (movedTo_sameGraph part p s f) (movedTo_sameGraph full p' s' f') h.edges h.dead

section

variable {i : Nat} (hi : i ∈ full.plan)
include hi

theorem into : List.Forall₂ (Edge.Matches full.usedNodes full.liveEdges)
    (part.edgesInto (newIndex full.usedNodes i)) (full.edgesInto i) := by
  have hu := (usedNodes_getElem? h.planned.2).2 hi
  have hedges := h.edges
  rw [liveEdges, kept_map_self] at hedges
  have hfilter := List.rel_filter (p := fun d => decide (d.target = some (newIndex full.usedNodes i)))
    (q := fun e => decide (e.target = some i)) (fun d e hde => by
      simp only [decide_eq_true_eq, (Edge.ends_eq_iff.1 hde.1).2.2.2]
      exact bind_keptIndex? hu) hedges
  have hall : (full.edges.filter full.isLive).filter (fun e => decide (e.target = some i)) = full.edgesInto i := by
    rw [List.filter_filter]
    refine List.filter_congr fun e _ => ?_
    by_cases ht : e.target = some i
    · simp [ht, isLive_of_target hi ht]
    · simp [ht]
  rw [hall] at hfilter
  exact hfilter

theorem fromLive : List.Forall₂ (Edge.Matches full.usedNodes full.liveEdges)
    (part.edgesFrom (newIndex full.usedNodes i)) ((full.edgesFrom i).filter full.isLive) := by
  have hu := (usedNodes_getElem? h.planned.2).2 hi
  have hedges := h.edges
  rw [liveEdges, kept_map_self] at hedges
  have hfilter := List.rel_filter (p := fun d => decide (d.source = some (newIndex full.usedNodes i)))
    (q := fun e => decide (e.source = some i)) (fun d e hde => by
      simp only [decide_eq_true_eq, (Edge.ends_eq_iff.1 hde.1).2.1]
      exact bind_keptIndex? hu) hedges
  have hcomm : (full.edges.filter full.isLive).filter (fun e => decide (e.source = some i)) =
      (full.edgesFrom i).filter full.isLive := List.filter_comm ..
  rw [hcomm] at hfilter
  exact hfilter

/-- **Around a planned node the live edges know what all edges do.** -/
theorem around : EdgesAlike (part.edgesInto (newIndex full.usedNodes i)) (part.edgesFrom (newIndex full.usedNodes i))
    (full.edgesInto i) (full.edgesFrom i) where
  into := (h.into hi).imp fun _ _ hde => hde.2
  below e he := by
    obtain ⟨hmem, hs⟩ := mem_edgesFrom.1 he
    by_cases hlive : full.isLive e = true
    · obtain ⟨d, hd, hde⟩ := exists_of_forall₂ (h.fromLive hi) e (List.mem_filter.2 ⟨he, hlive⟩)
      exact ⟨d, hd, hde.2.le⟩
    · obtain ⟨e₀, he₀, hlive₀⟩ := h.exists_live i hi
      obtain ⟨hmem₀, hs₀⟩ := mem_edgesFrom.1 he₀
      obtain ⟨d, hd, hde⟩ := exists_of_forall₂ (h.fromLive hi) e₀ (List.mem_filter.2 ⟨he₀, hlive₀⟩)
      have hle := h.dead e₀ hmem₀ e hmem hlive₀ (by simpa using hlive) (hs₀.trans hs.symm)
      exact ⟨d, hd, hde.2.le.trans hle⟩
  above d hd := by
    obtain ⟨e, he, hde⟩ := exists_of_forall₂ (h.fromLive hi).flip d hd
    exact ⟨e, (List.mem_filter.1 he).1, hde.2.ge⟩

theorem onePort_part : OnePort (part.edgesFrom (newIndex full.usedNodes i)) := by
  have hport : ∀ d ∈ part.edgesFrom (newIndex full.usedNodes i), ∃ e ∈ full.edgesFrom i, d.port = e.port := by
    intro d hd
    obtain ⟨e, he, hde⟩ := exists_of_forall₂ (h.fromLive hi).flip d hd
    exact ⟨e, (List.mem_filter.1 he).1, (Edge.ends_eq_iff.1 hde.1).2.2.1⟩
  intro d hd d' hd'
  obtain ⟨e, he, hp⟩ := hport d hd
  obtain ⟨e', he', hp'⟩ := hport d' hd'
  rw [hp, hp']
  exact h.onePort i hi e he e' he'

end

section Commits

variable {xs' xs : List (TensorFact × Edge)} {r' r : List (Nat × TensorFact)} (hxs : ∀ x ∈ xs, x.2 ∈ full.edges)
  (hr : List.Forall₂ Met xs r)
include hxs hr

/-- What is met for the live edges is what is met for what is left of them. -/
theorem forKept (hr' : List.Forall₂ Met xs' r')
    (hlike : List.Forall₂ (fun x' x => SameFact x'.1 x.1 ∧ x'.2.Matches full.usedNodes full.liveEdges x.2) xs'
      (xs.filter fun x => full.isLive x.2)) : ForKept full.liveEdges SameFact r' r := by
  have hmem := (List.forall₂_and_left _ _).2 ⟨hxs, hr⟩
  have hlive := List.rel_filter (p := fun x => full.isLive x.2) (q := fun q => full.liveEdges.getD q.1 false)
    (fun x q hxq => by
      show full.isLive x.2 = true ↔ full.liveEdges.getD q.1 false = true
      rw [hxq.2.1, getD_liveEdges h.linked.2 hxq.1]) hmem
  refine (forall₂_comp hr'.flip (forall₂_comp hlike hlive)).imp ?_
  rintro p q ⟨x', ⟨hkey', hm'⟩, x, ⟨hfact, hends, hedge⟩, -, hkey, hm⟩
  obtain ⟨m, hm₂, hmm⟩ := TensorFact.meet_same hfact hedge hm'
  cases hm.symm.trans hm₂
  refine ⟨?_, hmm⟩
  rw [hkey', hkey]
  exact (Edge.ends_eq_iff.1 hends).1

variable (hids : (xs.map fun x => x.2.id).Nodup)
  (hfan : ∀ x ∈ xs, full.isLive x.2 = false → ∀ e ∈ full.edges, e.source = x.2.source → (x.1, e) ∈ xs)
include hids hfan

/-- Where a dead edge is told something, the live ones out of its source are told the
same, so it still says no more than they do. -/
theorem commit_dead : ∀ e ∈ (full.commit r).2.edges, ∀ d ∈ (full.commit r).2.edges, full.isLive e = true →
    full.isLive d = false → e.source = d.source → e.fact.Refines d.fact := by
  have hl := h.linked.2
  have hgraph := commit_sameGraph full r
  obtain ⟨hmet, hrest⟩ := commit_met hl hxs hids hr
  have hrefines : Refines (full.commit r).2 full := by
    refine commit_refines (forall_of_forall₂ ((List.forall₂_and_left _ _).2 ⟨hxs, hr⟩) ?_)
    rintro x p ⟨hx, hkey, hm⟩ e he
    rw [hkey, hl.getElem?_id hx] at he
    cases he
    exact (TensorFact.isMeet.lower hm).2
  intro e he d hd hlive hdead hs
  obtain ⟨j, hj⟩ := List.mem_iff_getElem?.1 he
  obtain ⟨k, hk⟩ := List.mem_iff_getElem?.1 hd
  obtain ⟨e₀, he₀, hee⟩ := hgraph.exists_edge hj
  obtain ⟨d₀, hd₀, hdd⟩ := hgraph.exists_edge hk
  obtain ⟨-, hes, -, het⟩ := Edge.ends_eq_iff.1 hee
  obtain ⟨-, hds, -, hdt⟩ := Edge.ends_eq_iff.1 hdd
  have hemem := List.mem_of_getElem? he₀
  have hdmem := List.mem_of_getElem? hd₀
  have hs₀ : e₀.source = d₀.source := by rw [← hes, ← hds, hs]
  have hdead₀ : full.isLive d₀ = false := by rwa [isLive, ← hdt]
  have hle := h.dead e₀ hemem d₀ hdmem (by rwa [isLive, ← het]) hdead₀ hs₀
  by_cases hin : d₀.id ∈ xs.map fun x => x.2.id
  · obtain ⟨x, hx, hid⟩ := List.mem_map.1 hin
    have hxd : x.2 = d₀ := hl.eq_of_id (hxs x hx) hdmem hid
    obtain ⟨m, hm, hdget⟩ := hmet x hx
    obtain ⟨m', hm', heget⟩ := hmet _ (hfan x hx (hxd ▸ hdead₀) e₀ hemem (hxd ▸ hs₀))
    rw [hxd] at hm hdget
    rw [hl.edgeIds k d₀ hd₀, hk] at hdget
    rw [hl.edgeIds j e₀ he₀, hj] at heget
    cases hdget
    cases heget
    obtain ⟨m₂, hm₂, hmm⟩ := TensorFact.isMeet.mono (.refl _) hle hm'
    cases hm.symm.trans hm₂
    exact ((SameFact.committed m' e₀).le.trans hmm).trans (SameFact.committed m d₀).ge
  · have hkeep := hrest _ hin
    rw [hl.edgeIds k d₀ hd₀, hk, hd₀] at hkeep
    cases hkeep
    exact (hrefines.facts j e e₀ hj he₀).trans hle

/-- **Facts told to all edges out of a node** keep what is left of an analysis, if
the live edges take the same. -/
theorem commit (hr' : List.Forall₂ Met xs' r')
    (hlike : List.Forall₂ (fun x' x => SameFact x'.1 x.1 ∧ x'.2.Matches full.usedNodes full.liveEdges x.2) xs'
      (xs.filter fun x => full.isLive x.2)) :
    ((part.commit r').1 = true → (full.commit r).1 = true) ∧ Thins (part.commit r').2 (full.commit r).2 := by
  have hlen := length_liveEdges full
  have hfor := h.forKept hxs hr hr' hlike
  have hsame {d e : Edge} {f g : TensorFact} (hde : d.Matches full.usedNodes full.liveEdges e) (hfg : SameFact f g) :
      f.same d.fact = g.same e.fact :=
    Bool.eq_iff_iff.2 ⟨fun hs => hfg.symm.trans (SameFact.trans hs hde.2),
      fun hs => hfg.trans (SameFact.trans hs hde.2.symm)⟩
  have hset {d e : Edge} {f g : TensorFact} (hde : d.Matches full.usedNodes full.liveEdges e) (hfg : SameFact f g) :
      Edge.Matches full.usedNodes full.liveEdges { d with fact := f } { e with fact := g } := ⟨hde.1, hfg⟩
  refine ⟨fun hchanged => ?_, h.of_sameGraph (commit_sameGraph part r') (commit_sameGraph full r)
    (commitEdges_kept hsame hset hlen h.edges hfor) (h.commit_dead hxs hr hids hfan)⟩
  have hlive := (commitEdges_kept_changed hsame hlen h.edges hfor).symm.trans hchanged
  by_contra hfull
  have hall : (commitEdges full.edges r).1 = false := Bool.not_eq_true _ ▸ hfull
  rw [commitEdges_eq_false_iff.2 fun p hp => commitEdges_eq_false_iff.1 hall p (List.mem_filter.1 hp).1] at hlive
  cases hlive

end Commits

/-! ### Visits and hints -/

section Visits

variable {i : Nat} (hi : i ∈ full.plan)
include hi

theorem node {n : Node} (hn : full.nodes[i]? = some n) :
    part.nodes[newIndex full.usedNodes i]? = some (renumberNode full.usedNodes n) := by
  rw [h.nodes, pruned_getElem? h.planned.2 hi, hn]
  rfl

theorem pairs {ins' ins : List TensorFact} {out' out : TensorFact}
    (hlen' : ins'.length = (part.edgesInto (newIndex full.usedNodes i)).length)
    (hlen : ins.length = (full.edgesInto i).length)
    (hins : List.Forall₂ SameFact ins' ins) (hout : SameFact out' out) :
    List.Forall₂ (fun x' x => SameFact x'.1 x.1 ∧ x'.2.Matches full.usedNodes full.liveEdges x.2)
      (pairsFor (part.edgesInto (newIndex full.usedNodes i)) (part.edgesFrom (newIndex full.usedNodes i)) ins' out')
      ((pairsFor (full.edgesInto i) (full.edgesFrom i) ins out).filter fun x => full.isLive x.2) := by
  have hinto : (ins.zip (full.edgesInto i)).filter (fun x => full.isLive x.2) = ins.zip (full.edgesInto i) :=
    List.filter_eq_self.2 fun x hx => isLive_of_target hi (mem_edgesInto.1 (List.of_mem_zip hx).2).2
  rw [pairsFor_eq hlen', pairsFor_eq hlen, List.filter_append, hinto, List.filter_map]
  refine List.rel_append (forall₂_zip hins (h.into hi)) ?_
  rw [List.forall₂_map_left_iff, List.forall₂_map_right_iff]
  exact (h.fromLive hi).imp fun _ _ hde => ⟨hout, hde⟩

/-- **A visit does the same without dead edges**: it fails alike, and tells no change
that it would not tell with them. -/
theorem visit (hw : WellFormed part ∧ WellFormed full) :
    ResultsRelated (fun x y => (x.1 = true → y.1 = true) ∧ Thins x.2 y.2) (fun _ _ => True)
      (part.visit (newIndex full.usedNodes i)) (full.visit i) := by
  obtain ⟨n, hn⟩ := h.planned.2.exists_node hi
  have hn' := h.node hi hn
  have hop := h.respects _ (List.mem_of_getElem? hn)
  have haround := h.around hi
  cases hv : part.visit (newIndex full.usedNodes i) with
  | error e =>
    cases hvf : full.visit i with
    | error e' => exact trivial
    | ok y =>
      obtain ⟨m, r, hm, hr, -⟩ := visit_eq_ok_iff.1 hvf
      cases hn.symm.trans hm
      obtain ⟨ins, out, hinfers, hr⟩ := (inferred_eq_ok_iff_around h.linked.2 hn).1 hr
      obtain ⟨ins', out', r', hinfers', hr', -⟩ := haround.symm.exists_met hop (h.onePort_part hi) hinfers hr
      have hok := visit_eq_ok_iff.2 ⟨_, r', hn', (inferred_eq_ok_iff_around h.linked.1 hn').2
        ⟨ins', out', hinfers', hr'⟩, rfl⟩
      cases hv.symm.trans hok
  | ok x =>
    obtain ⟨c, b⟩ := x
    obtain ⟨m, r', hm, hr', hc'⟩ := visit_eq_ok_iff.1 hv
    cases hn'.symm.trans hm
    obtain ⟨ins', out', hinfers', hr'⟩ := (inferred_eq_ok_iff_around h.linked.1 hn').1 hr'
    obtain ⟨ins, out, r, hinfers, hr, hins, hout⟩ := haround.exists_met hop (h.onePort i hi) hinfers' hr'
    have hok : full.visit i = .ok (full.commit r) :=
      visit_eq_ok_iff.2 ⟨_, r, hn, (inferred_eq_ok_iff_around h.linked.2 hn).2 ⟨ins, out, hinfers, hr⟩, rfl⟩
    have hids := congrArg (List.map Edge.id) hinfers.map_snd
    rw [List.map_map, List.map_append] at hids
    have hnodup := hw.2.nodup_around h.linked.2 hi
    rw [← hids] at hnodup
    have hcommit := h.commit (fun y hy => mem_around (List.of_mem_zip hy).2) hr hnodup (fun y hy hdead e he hs => by
      rcases (mem_pairsFor hinfers.length_eq).1 hy with hy | ⟨d, hd, rfl⟩
      · have hlive := isLive_of_target hi (mem_edgesInto.1 (List.of_mem_zip hy).2).2
        cases hdead.symm.trans hlive
      · have hfrom := mem_edgesFrom.2 ⟨he, hs.trans (mem_edgesFrom.1 hd).2⟩
        exact (mem_pairsFor hinfers.length_eq).2 (.inr ⟨e, hfrom, rfl⟩))
      hr' (h.pairs hi hinfers'.length_eq hinfers.length_eq hins hout)
    rw [hc'] at hcommit
    rw [hok]
    exact hcommit

/-- **A hint for a planned node does the same without dead edges.** -/
theorem hint {f : TensorFact} : ResultsRelated Thins (fun _ _ => True)
    (part.hint (newIndex full.usedNodes i) f) (full.hint i f) := by
  have hlt := h.planned.2.lt i hi
  have hlt' : newIndex full.usedNodes i < part.nodes.length := h.nodes ▸ pruned_lt h.planned.2 hi
  have haround := h.around hi
  have hexists {fs fs' : List Edge} (hbelow : ∀ d ∈ fs', ∃ e ∈ fs, e.fact.Refines d.fact)
      {r : List (Nat × TensorFact)} (hr : List.Forall₂ Met (fs.map fun e => (f, e)) r) :
      ∃ r', List.Forall₂ Met (fs'.map fun e => (f, e)) r' := by
    refine exists_forall₂_of_forall (List.forall_mem_map.2 fun d hd => ?_)
    obtain ⟨e, he, hle⟩ := hbelow d hd
    obtain ⟨p, -, -, hp⟩ := exists_of_forall₂ hr.flip (f, e) (List.mem_map_of_mem he)
    obtain ⟨m, hm, -⟩ := TensorFact.isMeet.mono (.refl f) hle hp
    exact ⟨(d.id, m), rfl, hm⟩
  cases hp : part.hint (newIndex full.usedNodes i) f with
  | error e =>
    cases hf : full.hint i f with
    | error e' => exact trivial
    | ok b =>
      obtain ⟨r, hr, -⟩ := (hint_eq_ok_iff_around h.linked.2 hlt).1 hf
      obtain ⟨r', hr'⟩ := hexists haround.above hr
      cases hp.symm.trans ((hint_eq_ok_iff_around h.linked.1 hlt').2 ⟨r', hr', rfl⟩)
  | ok b =>
    obtain ⟨r', hr', rfl⟩ := (hint_eq_ok_iff_around h.linked.1 hlt').1 hp
    obtain ⟨r, hr⟩ := hexists haround.below hr'
    rw [(hint_eq_ok_iff_around h.linked.2 hlt).2 ⟨r, hr, rfl⟩]
    have hnodup : (((full.edgesFrom i).map fun e => (f, e)).map fun x => x.2.id).Nodup := by
      rw [List.map_map]
      exact h.linked.2.nodup_edgesFrom i
    refine (h.commit (List.forall_mem_map.2 fun e he => (mem_edgesFrom.1 he).1) hr hnodup
      (List.forall_mem_map.2 fun d hd _ e he hs => ?_) hr' ?_).2
    · exact List.mem_map_of_mem (mem_edgesFrom.2 ⟨he, hs.trans (mem_edgesFrom.1 hd).2⟩)
    · rw [List.filter_map, List.forall₂_map_left_iff, List.forall₂_map_right_iff]
      exact (h.fromLive hi).imp fun _ _ hde => ⟨.refl f, hde⟩

end Visits

end Thins

/-- Whether two analyses stand at the same place, and one is what is left of the
other without its dead edges. -/
def Beside (part full : Analysis) : Prop :=
  Thins part full ∧ (WellFormed part ∧ WellFormed full) ∧
    part.passIndex = full.passIndex ∧ part.stepIndex = full.stepIndex ∧ part.forward = full.forward

/-- **An analysis runs in lockstep with what is left of it** without dead edges. -/
theorem lockstep_beside : Lockstep Beside (fun c d => c = true → d = true) (fun _ _ => True) where
  wellFormed h := h.2.1
  length_eq h := by
    rw [h.1.plan, pruned, List.length_map]
  place_eq h := h.2.2
  movedTo p s f h hs := by
    have hlen := congrArg List.length h.1.plan
    rw [pruned, List.length_map] at hlen
    exact ⟨h.1.movedTo p s p s f f, ⟨movedTo_wellFormed h.2.1.1 hs, movedTo_wellFormed h.2.1.2 (hlen ▸ hs)⟩,
      rfl, rfl, rfl⟩
  visit := by
    rintro part full k i j ⟨h, hw, hplace⟩ hi hj
    have hpart : part.plan[k]? = some (newIndex full.usedNodes j) := by
      have hmap := List.getElem?_map (f := newIndex full.usedNodes) (l := full.plan) (i := k)
      rw [hj] at hmap
      rw [h.plan]
      exact hmap
    cases hi.symm.trans hpart
    rcases (h.visit (List.mem_of_getElem? hj) hw).cases with ⟨e, f, hp, hf, -⟩ | ⟨x, y, hp, hf, hle, hthins⟩
    · rw [hp, hf]
      exact trivial
    · rw [hp, hf]
      obtain ⟨-, hstep, hforward, hpass⟩ := visit_place hp
      obtain ⟨-, hstep', hforward', hpass'⟩ := visit_place hf
      refine ⟨hle, hthins, ⟨visit_wellFormed hw.1 hp, visit_wellFormed hw.2 hf⟩, ?_, ?_, ?_⟩
      · rw [hpass, hpass', hplace.1]
      · rw [hstep, hstep', hplace.2.1]
      · rw [hforward, hforward', hplace.2.2]
  le_false h := h
  le_or h h' := by
    simp only [Bool.or_eq_true]
    exact Or.imp h h'

/-! ### Catching up -/

/-- Whether the dead edges out of a node say all that the node infers without them. -/
def Caught (part full : Analysis) (i : Nat) : Prop :=
  ∃ n ins out, part.nodes[newIndex full.usedNodes i]? = some n ∧
    Infers n.op (part.edgesInto (newIndex full.usedNodes i)) (part.edgesFrom (newIndex full.usedNodes i)) ins out ∧
    ∀ d ∈ full.edgesFrom i, full.isLive d = false → d.fact.Refines out

section

variable {part full full' : Analysis} {i : Nat}

theorem Caught.of_refines (h : Caught part full i) (hl : Linked full) (hle : Refines full' full) :
    Caught part full' i := by
  obtain ⟨n, ins, out, hn, hinfers, hdead⟩ := h
  have hsame := hle.toSameGraph
  rw [Caught, hsame.usedNodes_eq]
  refine ⟨n, ins, out, hn, hinfers, fun d hd hlive => ?_⟩
  obtain ⟨e, he, hde⟩ := hsame.exists_edgeFrom hl hd
  have hget := hl.getElem?_id (mem_edgesFrom.1 he).1
  obtain ⟨-, -, -, ht⟩ := Edge.ends_eq_iff.1 (hsame.ends_of_getElem? hde hget)
  rw [hsame.isLive_eq, isLive, ht] at hlive
  exact (hle.facts _ _ _ hde hget).trans (hdead e he hlive)

variable (h : Thins part full) (hi : i ∈ full.plan) (hs : part.StableAt (newIndex full.usedNodes i))
include h hi hs

/-- **A visit tells dead edges all that there is to tell**, where without them its
node has nothing to add. -/
theorem Thins.caught_visit (hw : WellFormed full) {changed : Bool} (hv : full.visit i = .ok (changed, full')) :
    Caught part full' i := by
  obtain ⟨n', hn', ins', out', hinfers', -⟩ := (stableAt_iff h.linked.1).1 hs
  obtain ⟨n, ins, out, hn, hinfers, hmet, -⟩ := visit_edges hw hi hv
  cases hn'.symm.trans (h.node hi hn)
  have hop := h.respects n (List.mem_of_getElem? hn)
  obtain ⟨ins₁, out₁, hinfers₁, -, hout⟩ := (h.around hi).infers hop (h.onePort i hi) hinfers'
  obtain ⟨-, rfl⟩ := hinfers.unique hinfers₁
  have hsame := (visit_refines hv).toSameGraph
  rw [Caught, hsame.usedNodes_eq]
  refine ⟨_, ins', out', hn', hinfers', fun d hd _ => ?_⟩
  obtain ⟨e, he, hde⟩ := hsame.exists_edgeFrom h.linked.2 hd
  obtain ⟨m, hm, hget⟩ := hmet _ ((mem_pairsFor hinfers.length_eq).2 (.inr ⟨e, he, rfl⟩))
  cases hde.symm.trans hget
  exact ((SameFact.committed m e).le.trans (TensorFact.isMeet.lower hm).1).trans hout.ge

/-- **A node that has nothing to add without dead edges** has nothing to add with
them, once they say all that it infers. -/
theorem Thins.stableAt (hc : Caught part full i) : full.StableAt i := by
  obtain ⟨n', hn', ins', out', hinfers', hcontent⟩ := (stableAt_iff h.linked.1).1 hs
  obtain ⟨n₁, ins₁, out₁, hn₁, hinfers₁, hdead⟩ := hc
  cases hn'.symm.trans hn₁
  obtain ⟨rfl, rfl⟩ := hinfers'.unique hinfers₁
  obtain ⟨n, hn⟩ := h.planned.2.exists_node hi
  cases hn'.symm.trans (h.node hi hn)
  have hop := h.respects n (List.mem_of_getElem? hn)
  obtain ⟨ins, out, hinfers, hins, hout⟩ := (h.around hi).infers hop (h.onePort i hi) hinfers'
  refine (stableAt_iff h.linked.2).2 ⟨n, hn, ins, out, hinfers, fun x hx => ?_⟩
  by_cases hlive : full.isLive x.2 = true
  · have hpairs := h.pairs hi hinfers'.length_eq hinfers.length_eq hins hout
    obtain ⟨x', hx', hfact, hmatch⟩ := exists_of_forall₂ hpairs x (List.mem_filter.2 ⟨hx, hlive⟩)
    obtain ⟨m', hm', hs'⟩ := hcontent x' hx'
    obtain ⟨m, hm, hmm⟩ := TensorFact.meet_same hfact hmatch.2 hm'
    exact ⟨m, hm, hmm.symm.trans (SameFact.trans hs' hmatch.2)⟩
  · rcases (mem_pairsFor hinfers.length_eq).1 hx with hx | ⟨d, hd, rfl⟩
    · exact absurd (isLive_of_target hi (mem_edgesInto.1 (List.of_mem_zip hx).2).2) hlive
    · exact TensorFact.meet_of_refines ((hdead d hd (by simpa using hlive)).trans hout.le)

end

/-- **Dead edges catch up in one round**: where an analysis has settled without
them, it has settled with them after a round. -/
theorem Thins.catch_up {part full full' : Analysis} (h : Thins part full) (hs : part.Stable)
    (hw : WellFormed part ∧ WellFormed full) {changed : Bool} (hr : full.round = (.ok changed, full')) :
    Thins part full' ∧ full'.Stable := by
  have hplanned {c : Analysis} (hc : Thins part c) {i : Nat} (hi : i ∈ c.plan) :
      part.StableAt (newIndex c.usedNodes i) := by
    refine hs _ ?_
    rw [hc.plan]
    exact List.mem_map_of_mem hi
  have hthins : RunInvariant fun c => Thins part c := by
    refine ⟨fun p s f hc => ?_, fun hwc hc hi hv => ?_⟩
    · exact hc.movedTo part.passIndex part.stepIndex p s part.forward f
    · obtain ⟨b, hb⟩ := hplanned hc hi
      obtain rfl := visit_unchanged hb
      have hvisit := hc.visit hi ⟨hw.1, hwc⟩
      rw [hb, hv] at hvisit
      exact hvisit.2
  have hcaught (k : Nat) : RunInvariant fun c => Thins part c ∧ Caught part c k := by
    refine ⟨fun p s f hc => ⟨hthins.movedTo p s f hc.1, hc.2⟩, fun hwc hc hi hv => ?_⟩
    exact ⟨hthins.visit hwc hc.1 hi hv, hc.2.of_refines hc.1.linked.2 (visit_refines hv)⟩
  obtain ⟨hafter, hall⟩ := round_visits hthins hcaught
    (fun hwc hc hi hv => hc.caught_visit hi (hplanned hc hi) hwc hv) hw.2 h hr
  have hplan : full'.plan = full.plan := by
    have hsame := ((runInvariant_refines full).round hw.2 (.refl full)).2.toSameGraph
    rw [hr] at hsame
    exact hsame.plan
  exact ⟨hafter, fun i hi => hafter.stableAt hi (hplanned hafter hi) (hall i (hplan ▸ hi))⟩

end Analysis

end EdgeFacts
