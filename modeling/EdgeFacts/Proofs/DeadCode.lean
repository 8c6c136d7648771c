/-
# Nodes that the output does not need

A model can be restricted to the nodes that an output needs, renumbered in order. The
analysis of what is left is the analysis of the whole without its dead edges
(`Analysis.exists_restricted`). Hints for nodes that are needed and runs without a
limit keep this, so if the smaller analysis comes to an end so does the greater one,
at most a round later, and what they know of the nodes that are needed is the same
(`Analysis.runEnds_restricted`).

Key definitions: `Model.restricted`, `Analysis.AgreesOn`.
Key theorems: `Analysis.exists_restricted`, `Analysis.runEnds_restricted`.
-/
import EdgeFacts.Proofs.PlanRenaming
import EdgeFacts.Proofs.Settled
import EdgeFacts.Proofs.Termination
import EdgeFacts.Proofs.Thinning
import EdgeFacts.Proofs.Unobservable

namespace EdgeFacts

/-- The nodes of a model that are kept, renumbered in order. -/
def Model.restricted (model : Model) (used : List Bool) : Model :=
  ⟨(Analysis.kept used model.nodes).map (Analysis.renumberNode used)⟩

namespace Analysis

/-! ### The analysis of a restricted model -/

/-- A link with the numbers of what is kept. -/
def renumberLink (used : List Bool) (l : Nat × Int × Option Nat) : Nat × Int × Option Nat :=
  (newIndex used l.1, l.2.1, l.2.2.map (newIndex used))

theorem inputLinks_kept {used : List Bool} {p : Node → Bool} {live : Nat × Int × Option Nat → Bool} :
    ∀ {nodes : List Node}, (∀ n ∈ nodes, ∀ l ∈ inputLinks n, live l = p n) →
      ((nodes.filter p).map (renumberNode used)).flatMap inputLinks =
        ((nodes.flatMap inputLinks).filter live).map (renumberLink used)
  | [], _ => rfl
  | n :: nodes, h => by
    have tail := @inputLinks_kept used p live nodes fun m hm => h m (.tail _ hm)
    have hn := h n (.head _)
    have hlinks : inputLinks (renumberNode used n) = (inputLinks n).map (renumberLink used) := by
      simp [inputLinks, renumberNode, renumberLink, Function.comp_def]
    rw [List.flatMap_cons, List.filter_append, List.map_append, ← tail]
    cases hp : p n with
    | true =>
      rw [List.filter_cons_of_pos hp, List.map_cons, List.flatMap_cons, hlinks,
        List.filter_eq_self.2 fun l hl => (hn l hl).trans hp]
    | false =>
      have hnil : (inputLinks n).filter live = [] := List.filter_eq_nil_iff.2 fun l hl => by simp [hn l hl, hp]
      rw [List.filter_cons_of_neg (by simp [hp]), hnil]
      rfl

theorem usedNodes_eq_map {a : Analysis} (hl : Linked a) :
    a.usedNodes = a.nodes.map fun n => a.plan.contains n.id.toNat := by
  refine List.ext_getElem (by simp [usedNodes]) fun i hi hi' => ?_
  rw [List.length_map] at hi'
  have hid := hl.ids i _ (List.getElem?_eq_getElem hi')
  simp [usedNodes, hid]

/-- A live edge leaves each node that the output needs. -/
theorem exists_live_of_valid {a : Analysis} (hl : Linked a) (hv : Plan.Valid a.nodes a.output a.plan) {i : Nat}
    (hi : i ∈ a.plan) : ∃ e ∈ a.edgesFrom i, a.isLive e = true := by
  obtain ⟨e, he, hrequired⟩ := exists_edge_of_required hl ((hv.mem_iff i).1 hi)
  exact ⟨e, he, isLive_iff.2 fun k hk => (hv.mem_iff k).2 (hrequired k hk)⟩

theorem links_restricted {a : Analysis} (hl : Linked a) :
    links ((kept a.usedNodes a.nodes).map (renumberNode a.usedNodes)) (newIndex a.usedNodes a.output.toNat) =
      (kept ((links a.nodes a.output.toNat).map fun l => l.2.2.all a.plan.contains)
        (links a.nodes a.output.toNat)).map (renumberLink a.usedNodes) := by
  have hnodes : kept a.usedNodes a.nodes = a.nodes.filter fun n => a.plan.contains n.id.toNat := by
    rw [← kept_map_self, ← usedNodes_eq_map hl]
  have hinto : ∀ n ∈ a.nodes, ∀ l ∈ inputLinks n, l.2.2.all a.plan.contains = a.plan.contains n.id.toNat := by
    intro n _ l hl
    obtain ⟨x, -, rfl⟩ := List.mem_map.1 hl
    rfl
  rw [kept_map_self, hnodes, links_eq, links_eq, inputLinks_kept hinto, List.filter_append, List.map_append]
  rfl

theorem keptIndex?_live {a : Analysis} (hl : Linked a) (hp : Planned a)
    (hedges : a.edges = freshEdges 0 (links a.nodes a.output.toNat)) {j : Nat} {l : Nat × Int × Option Nat}
    (hj : (links a.nodes a.output.toNat)[j]? = some l) (hlive : l.2.2.all a.plan.contains = true) :
    keptIndex? a.usedNodes l.1 = some (newIndex a.usedNodes l.1) ∧
      l.2.2.bind (keptIndex? a.usedNodes) = l.2.2.map (newIndex a.usedNodes) := by
  have he : a.edges[j]? = some ⟨0 + j, some l.1, l.2.1, l.2.2, .unknown⟩ := by
    rw [hedges, freshEdges_getElem?, hj]
    rfl
  have hmem := List.mem_of_getElem? he
  have hused {i : Nat} (hi : i ∈ a.plan) : keptIndex? a.usedNodes i = some (newIndex a.usedNodes i) :=
    keptIndex?_of_used ((usedNodes_getElem? hp).2 hi)
  cases ht : l.2.2 with
  | none =>
    have hlink := List.mem_of_getElem? hj
    rw [links_eq, List.mem_append, List.mem_singleton] at hlink
    rcases hlink with hlink | rfl
    · obtain ⟨n, -, hlink⟩ := List.mem_flatMap.1 hlink
      obtain ⟨x, -, rfl⟩ := List.mem_map.1 hlink
      cases ht
    · exact ⟨hused hp.output_mem, rfl⟩
  | some k =>
    have hk : k ∈ a.plan := by
      rw [ht] at hlive
      simpa using hlive
    exact ⟨hused (hp.ordered.idxOf_lt hk (hl.source_mem_producersAt hmem ht rfl)).1, hused hk⟩

/-- Of the edges of a model the live ones are left in what it is restricted to. -/
theorem freshEdges_restricted {a : Analysis} (hl : Linked a) (hp : Planned a)
    (hedges : a.edges = freshEdges 0 (links a.nodes a.output.toNat)) :
    List.Forall₂ (Edge.Matches a.usedNodes a.liveEdges)
      (freshEdges 0 (links ((kept a.usedNodes a.nodes).map (renumberNode a.usedNodes))
        (newIndex a.usedNodes a.output.toNat))) (kept a.liveEdges a.edges) := by
  have hlive : (links a.nodes a.output.toNat).map (fun l => l.2.2.all a.plan.contains) = a.liveEdges := by
    refine List.ext_getElem? fun j => ?_
    rw [liveEdges, hedges, List.getElem?_map, List.getElem?_map, freshEdges_getElem?, Option.map_map]
    rfl
  have hlen : a.liveEdges.length = (links a.nodes a.output.toNat).length := by
    rw [← hlive, List.length_map]
  rw [links_restricted hl, hlive]
  refine List.forall₂_of_length_eq_of_get ?_ fun k hk hk' => ?_
  · rw [length_freshEdges, List.length_map, length_kept hlen, length_kept (length_liveEdges a)]
  · obtain ⟨j, hj, he, rfl⟩ := exists_of_kept (List.getElem?_eq_getElem hk')
    have hfresh : a.edges[j]? = (links a.nodes a.output.toNat)[j]?.map fun l =>
        ⟨0 + j, some l.1, l.2.1, l.2.2, .unknown⟩ := by
      rw [hedges, freshEdges_getElem?]
    obtain ⟨l, hlj, he⟩ := Option.map_eq_some_iff.1 (hfresh.symm.trans he)
    have hd : (freshEdges 0 ((kept a.liveEdges (links a.nodes a.output.toNat)).map (renumberLink a.usedNodes)))[
        newIndex a.liveEdges j]? = some ⟨0 + newIndex a.liveEdges j, some (newIndex a.usedNodes l.1), l.2.1,
          l.2.2.map (newIndex a.usedNodes), .unknown⟩ := by
      rw [freshEdges_getElem?, List.getElem?_map, kept_getElem? hlen hj, hlj]
      rfl
    have hlinkLive : l.2.2.all a.plan.contains = true := by
      rw [← hlive, List.getElem?_map, hlj] at hj
      exact Option.some.inj hj
    obtain ⟨hsource, htarget⟩ := keptIndex?_live hl hp hedges hlj hlinkLive
    rw [List.get_eq_getElem, List.get_eq_getElem, (List.getElem?_eq_some_iff.1 hd).2, ← he]
    refine ⟨?_, .refl _⟩
    simp only [Edge.ends, renumberEdge, Nat.zero_add, Option.bind_some, hsource, htarget]

/-- **The analysis of a restricted model is the analysis of the model without its
dead edges.** -/
theorem exists_restricted {model : Model} {output : Int} {limit : Option Nat} {full : Analysis}
    (hstart : start model output limit = .ok full) (hops : ∀ n ∈ model.nodes, n.op.Respects)
    (hports : ∀ i ∈ full.plan, OnePort (full.edgesFrom i)) :
    ∃ part, start (model.restricted full.usedNodes) (newIndex full.usedNodes output.toNat) limit = .ok part ∧
      Beside part full := by
  obtain ⟨hw, hvalid, hunknown, hnodes, hout, -⟩ := start_spec hstart
  have hl := hw.toLinked
  have hp := hw.toPlanned
  have hlp := pruned_linked hl hp
  have hnodes' : (model.restricted full.usedNodes).nodes = full.pruned.nodes := by
    rw [Model.restricted, ← hnodes]
    rfl
  have hfull : Plan.ofNodes full.nodes [full.output] = .ok full.plan ∧
      full.edges = freshEdges 0 (links full.nodes full.output.toNat) := by
    obtain ⟨-, -, -, -, plan, hplan, rfl⟩ := start_eq_ok hstart
    exact ⟨hplan, rfl⟩
  have hplan : Plan.ofNodes (model.restricted full.usedNodes).nodes [(newIndex full.usedNodes output.toNat : Int)] =
      .ok full.pruned.plan := by
    rw [hnodes', ← hout]
    exact pruned_plan hw hfull.1
  obtain ⟨part, hpart⟩ : ∃ part,
      start (model.restricted full.usedNodes) (newIndex full.usedNodes output.toNat) limit = .ok part := by
    refine exists_start ?_ (hnodes' ▸ hlp.ids) (hnodes' ▸ hlp.resolved) hplan
    rw [hnodes', ← hout]
    exact hlp.output_lt
  obtain ⟨hwp, -, -, hnodesp, -, -⟩ := start_spec hpart
  have hedges : List.Forall₂ (Edge.Matches full.usedNodes full.liveEdges) part.edges
      (kept full.liveEdges full.edges) := by
    have hrestricted := freshEdges_restricted hl hp hfull.2
    obtain ⟨-, -, -, -, -, -, rfl⟩ := start_eq_ok hpart
    rw [hnodes, hout] at hrestricted
    exact hrestricted
  have hplace {b : Analysis} {m : Model} {o : Int} (hb : start m o limit = .ok b) :
      b.passIndex = 0 ∧ b.stepIndex = 0 ∧ b.forward = true := by
    obtain ⟨-, -, -, -, -, -, rfl⟩ := start_eq_ok hb
    exact ⟨rfl, rfl, rfl⟩
  obtain ⟨hpass, hstep, hforward⟩ := hplace hstart
  obtain ⟨hpass', hstep', hforward'⟩ := hplace hpart
  refine ⟨part, hpart, ?_, ⟨hwp, hw⟩, hpass'.trans hpass.symm, hstep'.trans hstep.symm, hforward'.trans hforward.symm⟩
  refine ⟨⟨hwp.toLinked, hl⟩, ⟨hwp.toPlanned, hp⟩, hnodesp.trans hnodes', ?_, hedges, ?_, hports,
    fun i hi => exists_live_of_valid hl hvalid hi, hnodes ▸ hops⟩
  · obtain ⟨-, -, -, -, plan, hplanp, rfl⟩ := start_eq_ok hpart
    exact Except.ok.inj (hplanp.symm.trans hplan)
  · intro e he d hd _ _ _
    rw [hunknown e he, hunknown d hd]
    exact .refl _

/-! ### Runs beside each other -/

/-- Hints for nodes, one after the other. -/
def hintEach (a : Analysis) (hints : List (Nat × TensorFact)) : Except Failure Analysis :=
  hints.foldlM (fun a h => a.hint h.1 h.2) a

/-- Whether analyses know the same of what is needed: of the edges between nodes
that are needed and the edge out of the graph, and of the outputs of those nodes. -/
structure AgreesOn (used : List Bool) (part full : Analysis) : Prop where
  edges : List.Forall₂ (fun d e => d.source = e.source.bind (keptIndex? used) ∧ d.port = e.port ∧
    d.target = e.target.bind (keptIndex? used) ∧ SameFact d.fact e.fact) part.edges (full.edges.filter full.isLive)
  outputs : ∀ i ∈ full.plan, ∃ f g, part.outputFact (newIndex used i) = .ok f ∧ full.outputFact i = .ok g ∧
    SameFact f g

theorem Thins.agreesOn {part full : Analysis} (h : Thins part full) (hs : part.Stable) :
    AgreesOn full.usedNodes part full where
  edges := by
    have hedges := h.edges
    rw [liveEdges, kept_map_self] at hedges
    refine hedges.imp fun d e hde => ?_
    obtain ⟨-, hsource, hport, htarget⟩ := Edge.ends_eq_iff.1 hde.1
    exact ⟨hsource, hport, htarget, hde.2⟩
  outputs i hi := by
    have hlt' : newIndex full.usedNodes i < part.nodes.length := h.nodes ▸ pruned_lt h.planned.2 hi
    have hstable : part.StableAt (newIndex full.usedNodes i) := hs _ (h.plan ▸ List.mem_map_of_mem hi)
    obtain ⟨n, -, ins, out, hinfers, -⟩ := (stableAt_iff h.linked.1).1 hstable
    obtain ⟨f, hf, -⟩ := hinfers.refine_eq
    obtain ⟨g, hg, hfg⟩ := (h.around hi).meetAll hf
    exact ⟨f, g, (outputFact_eq h.linked.1 hlt').trans hf,
      (outputFact_eq h.linked.2 (h.planned.2.lt i hi)).trans hg, hfg⟩

namespace Beside

theorem hint {part full : Analysis} (h : Beside part full) {i : Nat} (hi : i ∈ full.plan) {f : TensorFact} :
    ResultsRelated (fun p q => Beside p q ∧ q.usedNodes = full.usedNodes) (fun _ _ => True)
      (part.hint (newIndex full.usedNodes i) f) (full.hint i f) := by
  have hplace {a b : Analysis} {node : Int} (hb : a.hint node f = .ok b) (hw : WellFormed a) :
      WellFormed b ∧ b.passIndex = a.passIndex ∧ b.stepIndex = a.stepIndex ∧ b.forward = a.forward := by
    have hwb := hint_wellFormed hw hb
    obtain ⟨k, js, r, -, -, -, rfl⟩ := hint_eq_ok_iff.1 hb
    exact ⟨hwb, rfl, rfl, rfl⟩
  obtain ⟨hthins, ⟨hwp, hwf⟩, hpass, hstep, hforward⟩ := h
  rcases (hthins.hint hi (f := f)).cases with ⟨e, e', hp, hf, -⟩ | ⟨p, q, hp, hf, hpq⟩
  · rw [hp, hf]
    exact trivial
  · rw [hp, hf]
    obtain ⟨hwp', hpass₁, hstep₁, hforward₁⟩ := hplace hp hwp
    obtain ⟨hwf', hpass₂, hstep₂, hforward₂⟩ := hplace hf hwf
    refine ⟨⟨hpq, ⟨hwp', hwf'⟩, ?_, ?_, ?_⟩, (hint_sameGraph hf).1.usedNodes_eq⟩
    · rw [hpass₁, hpass₂, hpass]
    · rw [hstep₁, hstep₂, hstep]
    · rw [hforward₁, hforward₂, hforward]

theorem hintEach {used : List Bool} : ∀ {hints : List (Nat × TensorFact)} {part full : Analysis},
    Beside part full → full.usedNodes = used → (∀ x ∈ hints, used[x.1]? = some true) →
    ResultsRelated (fun p q => Beside p q ∧ q.usedNodes = used) (fun _ _ => True)
      (part.hintEach (hints.map (Prod.map (newIndex used) id))) (full.hintEach hints)
  | [], _, _, h, hused, _ => ⟨h, hused⟩
  | (i, f) :: hints, part, full, h, hused, hhints => by
    have hi : i ∈ full.plan := (usedNodes_getElem? h.1.planned.2).1 (hused ▸ hhints _ (.head _))
    have hone := h.hint hi (f := f)
    rw [hused] at hone
    unfold Analysis.hintEach
    rw [List.map_cons, List.foldlM_cons, List.foldlM_cons]
    rcases hone.cases with ⟨e, e', hp, hf, -⟩ | ⟨p, q, hp, hf, hpq, hq⟩
    · simp only [Prod.map, id, hp, hf]
      exact trivial
    · simp only [Prod.map, id, hp, hf, ok_bind]
      exact hintEach hpq hq fun x hx => hhints x (.tail _ hx)

theorem changing : ∀ {n : Nat} {part full p : Analysis}, Beside part full → Changing n part p →
    ∃ f, Changing n full f ∧ Beside p f ∧ f.usedNodes = full.usedNodes
  | 0, part, full, p, h, hp => by
    obtain rfl : p = part := hp
    exact ⟨full, rfl, h, rfl⟩
  | n + 1, part, full, p, h, hp => by
    obtain ⟨b, hb, hp⟩ := hp
    have hround := lockstep_beside.round h
    have hgraph := ((runInvariant_refines full).round h.2.1.2 (.refl full)).2.toSameGraph
    rcases hround.cases with ⟨e, e', b', c, hb', hc, -⟩ | ⟨c₁, c₂, b', c, hb', hc, hle, hbc⟩
    · cases hb.symm.trans hb'
    · cases hb.symm.trans hb'
      rw [hc] at hgraph
      rw [hle rfl] at hc
      obtain ⟨f, hf, hpf, hused⟩ := changing hbc hp
      exact ⟨f, ⟨c, hc, hf⟩, hpf, hused.trans hgraph.usedNodes_eq⟩

variable {part full : Analysis} (h : Beside part full)
include h

theorem reset : Beside { part with passIndex := 0 } { full with passIndex := 0 } := by
  have hlt := h.2.1.1.stepIndex_lt
  obtain ⟨-, hstep, hforward⟩ := lockstep_beside.place_eq h
  have hmoved := lockstep_beside.movedTo 0 part.forward h hlt
  have hfull : full.movedTo 0 part.stepIndex part.forward = { full with passIndex := 0 } := by
    rw [movedTo, hstep, hforward]
  rw [hfull] at hmoved
  exact hmoved

/-- **Where the run without dead edges settles so does the run with them**, and
both know the same. -/
theorem runEnds_ok {p : Analysis} (hp : RunEnds part (.ok (), p)) :
    ∃ f, RunEnds full (.ok (), f) ∧ AgreesOn full.usedNodes p f := by
  obtain ⟨n, b, hb, hend⟩ := hp
  rw [endsWith_ok_iff] at hend
  obtain ⟨c, hc, hbc, hused⟩ := h.reset.changing hb
  obtain ⟨⟨p', s, d, rfl⟩, hstable⟩ := round_unchanged hend
  have hused : c.usedNodes = full.usedNodes := hused
  rcases (lockstep_beside.round hbc).cases with ⟨e, e', b', f, hb', -⟩ | ⟨c₁, c₂, b', f, hb', hf, -, hpf⟩
  · cases hend.symm.trans hb'
  · cases hend.symm.trans hb'
    have hgraph := ((runInvariant_refines c).round hbc.2.1.2 (.refl c)).2.toSameGraph
    rw [hf] at hgraph
    have hagrees := hpf.1.agreesOn (stable_movedTo hstable)
    rw [hgraph.usedNodes_eq, hused] at hagrees
    cases c₂ with
    | false => exact ⟨f, ⟨n, c, hc, endsWith_ok_iff.2 hf⟩, hagrees⟩
    | true =>
      -- dead edges were told something in this round, and are told nothing in the next one
      obtain ⟨-, hsettled⟩ := hbc.1.catch_up hstable hbc.2.1 hf
      obtain ⟨q, t, g, hnext⟩ := round_of_stable hpf.2.1.2 hsettled
      refine ⟨f.movedTo q t g, ⟨n + 1, f, changing_succ hc hf, endsWith_ok_iff.2 hnext⟩, hagrees.edges, hagrees.outputs⟩

/-- **Where the run without dead edges fails so does the run with them.** -/
theorem runEnds_error {p : Analysis} {e : Failure} (hp : RunEnds part (.error e, p)) :
    ∃ e' f, RunEnds full (.error e', f) := by
  obtain ⟨n, b, hb, hend⟩ := hp
  rw [endsWith_error_iff] at hend
  obtain ⟨c, hc, hbc, -⟩ := h.reset.changing hb
  rcases (lockstep_beside.round hbc).cases with ⟨e₁, e', b', f, hb', hf, -⟩ | ⟨c₁, c₂, b', f, hb', -⟩
  · exact ⟨e', f, n, c, hc, endsWith_error_iff.2 hf⟩
  · cases hend.symm.trans hb'

end Beside

/-- What an output needs is what the analysis of it plans. -/
theorem usedNodes_of_required {model : Model} {output : Int} {limit : Option Nat} {full : Analysis}
    (hstart : start model output limit = .ok full) {used : List Bool} (hlen : used.length = model.nodes.length)
    (hused : ∀ i, used[i]? = some true ↔ Plan.Required model.nodes output.toNat i) : full.usedNodes = used := by
  obtain ⟨hw, hvalid, -, hnodes, hout, -⟩ := start_spec hstart
  have hmarked (i : Nat) : full.usedNodes[i]? = some true ↔ used[i]? = some true := by
    rw [usedNodes_getElem? hw.toPlanned, hvalid.mem_iff, hnodes, hout, hused]
  have hlens : full.usedNodes.length = used.length := by
    rw [length_usedNodes, hnodes, hlen]
  refine List.ext_getElem hlens fun i hi hi' => ?_
  have h := hmarked i
  rw [List.getElem?_eq_getElem hi, List.getElem?_eq_getElem hi', Option.some.injEq, Option.some.injEq] at h
  exact Bool.eq_iff_iff.2 h

/-- **Dead code does not influence inference.** Take a model whose operators cannot
tell equal facts apart, and restrict it to the nodes that an output needs. If the
edges out of each of these, the edge out of the graph among them, are of one port, then
hints for these nodes do the same to the analyses of both models, and then if the
analysis of the restricted one settles so does the other, with the same facts; and if
it fails so does the other. -/
theorem runEnds_restricted {model : Model} {output : Int} {full : Analysis} {used : List Bool}
    (hops : ∀ n ∈ model.nodes, n.op.Respects) (hstart : start model output none = .ok full)
    (hlen : used.length = model.nodes.length)
    (hused : ∀ i, used[i]? = some true ↔ Plan.Required model.nodes output.toNat i)
    (hports : ∀ i, Plan.Required model.nodes output.toNat i → OnePort (full.edgesFrom i)) :
    ∃ part, start (model.restricted used) (newIndex used output.toNat) none = .ok part ∧
      ∀ hints : List (Nat × TensorFact), (∀ x ∈ hints, Plan.Required model.nodes output.toNat x.1) →
        ResultsRelated
          (fun p f => (∀ p', RunEnds p (.ok (), p') → ∃ f', RunEnds f (.ok (), f') ∧ AgreesOn used p' f') ∧
            ∀ e p', RunEnds p (.error e, p') → ∃ e' f', RunEnds f (.error e', f'))
          (fun _ _ => True) (part.hintEach (hints.map (Prod.map (newIndex used) id))) (full.hintEach hints) := by
  obtain rfl := usedNodes_of_required hstart hlen hused
  obtain ⟨-, hvalid, -, hnodes, hout, -⟩ := start_spec hstart
  have hplanned {i : Nat} (hi : i ∈ full.plan) : Plan.Required model.nodes output.toNat i := by
    rw [← hnodes, ← hout]
    exact (hvalid.mem_iff i).1 hi
  obtain ⟨part, hpart, hbeside⟩ := exists_restricted hstart hops fun i hi => hports i (hplanned hi)
  refine ⟨part, hpart, fun hints hhints => ?_⟩
  rcases (hbeside.hintEach rfl fun x hx => (hused x.1).2 (hhints x hx)).cases with
    ⟨e, e', hp, hf, -⟩ | ⟨p, f, hp, hf, hpf, hsame⟩
  · rw [hp, hf]
    exact trivial
  · rw [hp, hf]
    exact ⟨fun p' hrun => hsame ▸ hpf.runEnds_ok hrun, fun e p' hrun => hpf.runEnds_error hrun⟩

/-- When the copy of an input is wanted its positive part does not matter: told the
shape of the input, the runs with it and without it settle with the same facts. -/
theorem branching_restricted : ∃ part full, start (branching.restricted [true, false, true]) 1 none = .ok part ∧
    start branching 2 none = .ok full ∧
    ∃ p f, part.hintEach [(0, .ofShape none (.closed [.known 2]))] = .ok p ∧
      full.hintEach [(0, .ofShape none (.closed [.known 2]))] = .ok f ∧
      ∃ p' f', RunEnds p (.ok (), p') ∧ RunEnds f (.ok (), f') ∧ AgreesOn [true, false, true] p' f' := by
  have hstart : start branching 2 none = .ok _ := rfl
  have hops : ∀ n ∈ branching.nodes, n.op.Respects := by
    intro n hn
    simp only [branching, List.mem_cons, List.not_mem_nil, or_false] at hn
    rcases hn with rfl | rfl | rfl
    · exact Operator.respects_of_library rfl
    · exact Operator.respects_of_library trivial
    · exact Operator.respects_of_library trivial
  obtain ⟨-, hvalid, -⟩ := start_spec hstart
  have hplan : ∀ i, i ∈ [0, 2] ↔ Plan.Required branching.nodes 2 i := hvalid.mem_iff
  have hused : ∀ i, [true, false, true][i]? = some true ↔ Plan.Required branching.nodes 2 i := by
    intro i
    rw [← hplan]
    match i with
    | 0 | 1 | 2 => simp
    | i + 3 => simp
  obtain ⟨part, hpart, hruns⟩ := runEnds_restricted hops hstart rfl hused fun i hi => by
    rcases List.mem_pair.1 ((hplan i).2 hi) with rfl | rfl
    · unfold OnePort; decide
    · unfold OnePort; decide
  have hone := hruns [(0, .ofShape none (.closed [.known 2]))] (by
    intro x hx
    obtain rfl := List.mem_singleton.1 hx
    exact (hplan 0).1 (by decide))
  have hpart' : start (branching.restricted [true, false, true]) 1 none = .ok _ := rfl
  obtain rfl := Except.ok.inj (hpart'.symm.trans hpart)
  refine ⟨_, _, hpart', hstart, _, _, rfl, rfl, ?_⟩
  refine Exists.elim ?_ fun p' hrun => (hone.1 p' hrun).elim fun f' h => ⟨p', f', hrun, h⟩
  exact ⟨_, 1, _, ⟨_, rfl, rfl⟩, endsWith_ok_iff.2 rfl⟩

end Analysis

end EdgeFacts
