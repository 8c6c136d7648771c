/-
# Folding and pruning leave the report as it is

Take a valid model of operators of the library and hints without values, as they
are read from text. With and without folding and pruning the analysis comes to
the same settled facts first. Folding then turns into constants what is known and
leaves a settled analysis, so the run after it changes nothing, and pruning never
fails: the whole analysis succeeds with both if it does with neither, and reports
the same facts about the nodes that are left (`Analysis.report_folded`).

Key theorems: `Hints.value_of_items`, `Analysis.report_spec`, `Analysis.report_folded`.
-/
import EdgeFacts.Proofs.Consistent
import EdgeFacts.Proofs.Settled

namespace EdgeFacts

/-! ### Hints that are read -/

theorem TensorFact.value_of_parse {text : String} {f : TensorFact} (h : TensorFact.parse text = .ok f) :
    f.value = none := by
  unfold parse at h
  split at h
  · cases h
  · cases h
  · simp only [bind_eq_ok_iff] at h
    obtain ⟨dtype, -, h⟩ := h
    split at h
    · cases h
      rfl
    · simp only [bind_eq_ok_iff, pure_eq_ok] at h
      obtain ⟨s, -, h⟩ := h
      cases h
      rfl

theorem Hints.value_of_parseItem {item : String} {h : String × TensorFact} (hread : Hints.parseItem item = .ok h) :
    h.2.value = none := by
  simp only [parseItem] at hread
  split at hread
  · cases hread
  · split at hread
    · cases hread
    · simp only [bind_eq_ok_iff, pure_eq_ok] at hread
      obtain ⟨f, hf, heq⟩ := hread
      rw [← Except.ok.inj heq]
      exact TensorFact.value_of_parse hf

theorem Hints.value_of_items {items : List String} {told : List (String × TensorFact)}
    (hread : items.mapM Hints.parseItem = .ok told) : ∀ h ∈ told, h.2.value = none := by
  rw [mapM_eq_ok_iff] at hread
  exact forall_of_forall₂ hread fun _ _ hitem => Hints.value_of_parseItem hitem

theorem Hints.value_of_parse {items : List String} {hints : Hints} (h : Hints.parse items = .ok hints) :
    ∀ x ∈ hints, x.2.value = none := by
  simp only [parse, bind_eq_ok_iff, pure_eq_ok] at h
  obtain ⟨told, hread, h⟩ := h
  cases h
  exact fun x hx => value_of_items hread x (Table.mem_of_mem_ofList hx)

namespace Analysis

/-! ### Reports -/

/-- **A report** gives each node what is known about its output, by its name. -/
theorem report_spec {a : Analysis} (hl : Linked a) (hnames : (a.nodes.map Node.name).Nodup)
    (hfacts : ∀ i < a.nodes.length, ∃ f, a.outputFact i = .ok f) : ∃ t, a.report = .ok t ∧
      ∀ (i : Nat) n f, a.nodes[i]? = some n → a.outputFact i = .ok f → t.find? n.name = some f.text := by
  let entry (n : Node) : Except Failure (String × String) := do
    return (n.name, (← a.outputFact n.id).text)
  obtain ⟨entries, hentries⟩ : ∃ entries, List.Forall₂ (fun n e => entry n = .ok e) a.nodes entries := by
    refine exists_forall₂_of_forall fun n hn => ?_
    obtain ⟨i, hi⟩ := List.mem_iff_getElem?.1 hn
    obtain ⟨f, hf⟩ := hfacts i (List.getElem?_eq_some_iff.1 hi).1
    refine ⟨(n.name, f.text), ?_⟩
    simp only [entry, hl.ids i n hi, hf]
    rfl
  have hentry {n : Node} {e : String × String} (h : entry n = .ok e) :
      ∃ f, a.outputFact n.id = .ok f ∧ e = (n.name, f.text) := by
    simp only [entry, bind_eq_ok_iff, pure_eq_ok] at h
    obtain ⟨f, hf, heq⟩ := h
    exact ⟨f, hf, (Except.ok.inj heq).symm⟩
  have hfst : entries.map Prod.fst = a.nodes.map Node.name := by
    symm
    rw [← List.forall₂_eq_eq_eq, List.forall₂_map_left_iff, List.forall₂_map_right_iff]
    refine hentries.imp fun n e h => ?_
    obtain ⟨f, -, rfl⟩ := hentry h
    rfl
  refine ⟨Table.ofList entries, ?_, fun i n f hn hf => ?_⟩
  · have hall : a.nodes.mapM entry = .ok entries := mapM_eq_ok_iff.2 hentries
    change (a.nodes.mapM entry >>= _) = _
    rw [hall]
    rfl
  · obtain ⟨hi, rfl⟩ := List.getElem?_eq_some_iff.1 hn
    obtain ⟨g, hg, he⟩ := hentry (hentries.get hi (hentries.length_eq ▸ hi))
    rw [List.get_eq_getElem, hl.ids i _ hn, hf] at hg
    cases hg
    refine Table.find?_ofList (hfst ▸ hnames) ?_
    simp only [List.get_eq_getElem] at he
    rw [← he]
    exact List.getElem_mem _

/-! ### The whole analysis -/

theorem completed_eq_ok_iff {α : Type} {x : Outcome α} {a : Analysis} :
    completed x = .ok a ↔ ∃ v, x = (.ok v, a) := by
  obtain ⟨_ | v, b⟩ := x <;> simp [completed]

/-- What an analysis comes to without folding and pruning. -/
theorem ofModel_eq_ok_iff {model : Model} {output : String} {hints : Hints} {limit : Option Nat} {r : Analysis} :
    ofModel model output hints false false limit = .ok r ↔ ∃ id a b, model.index.find? output = some id ∧
      start model id limit = .ok a ∧ a.hintAll hints = .ok b ∧ b.run = (.ok (), r) := by
  unfold ofModel
  cases model.index.find? output with
  | none => simp [throw, throwThe, MonadExceptOf.throw]
  | some id =>
    simp only [bind_eq_ok_iff, completed_eq_ok_iff, pure_eq_ok, Bool.false_eq_true, if_false,
      Option.some.injEq, exists_eq_left', exists_and_left, Except.ok.injEq]
    constructor
    · rintro ⟨a, ha, b, hb, c, ⟨_, hc⟩, rfl⟩
      exact ⟨a, ha, b, hb, hc⟩
    · rintro ⟨a, ha, b, hb, hr⟩
      exact ⟨a, ha, b, hb, r, ⟨(), hr⟩, rfl⟩

/-- Folding and pruning, if they are asked for, come after that. -/
theorem ofModel_stages (model : Model) (output : String) (hints : Hints) (fold prune : Bool) (limit : Option Nat) :
    ofModel model output hints fold prune limit = (do
      let r ← ofModel model output hints false false limit
      let d ← (if fold then r.foldAndRun else pure r)
      if prune then completed d.prune else pure d) := by
  unfold ofModel
  cases model.index.find? output with
  | none => rfl
  | some id => cases fold <;> cases prune <;> simp

theorem ofModel_folded (model : Model) (output : String) (hints : Hints) (limit : Option Nat) :
    ofModel model output hints true true limit = (do
      let r ← ofModel model output hints false false limit
      completed (← r.foldAndRun).prune) :=
  ofModel_stages model output hints true true limit

theorem roundLimit_of_run {a b : Analysis} (h : a.run = (.ok (), b)) : a.roundLimit ≠ some 0 := by
  intro hl
  rw [run, hl] at h
  cases h

theorem settled_of_ofModel {model : Model} {output : String} {hints : Hints} {limit : Option Nat} {r : Analysis}
    (hlib : ∀ n ∈ model.nodes, n.op.IsLibrary) (hnone : ∀ h ∈ hints, h.2.value = none)
    (hr : ofModel model output hints false false limit = .ok r) :
    Settled r ∧ r.roundLimit ≠ some 0 ∧ r.nodes = model.nodes := by
  obtain ⟨id, a, b, -, ha, hb, hrun⟩ := ofModel_eq_ok_iff.1 hr
  obtain ⟨hw, hvalid, -, hnodes, -, -⟩ := start_spec ha
  obtain ⟨hwb, hun, hsame⟩ := (Unvalued.start hlib ha).hintAll hw hnone hb
  obtain ⟨hwr, hdown⟩ := run_refines hwb
  obtain ⟨-, hforward⟩ := runInvariant_forward.run hwb hun.forward
  rw [hrun] at hwr hdown hforward
  have hgraph : SameGraph r a := hdown.toSameGraph.trans hsame
  refine ⟨{ hwr, hforward with valid := ?_, stable := stable_of_run hrun }, ?_, hgraph.nodes.trans hnodes⟩
  · rw [hgraph.nodes, hgraph.output, hgraph.plan]
    exact hvalid
  · rw [hdown.roundLimit]
    exact roundLimit_of_run hrun

theorem Settled.exists_pruned {r : Analysis} (h : Settled r) (hlimit : r.roundLimit ≠ some 0) :
    ∃ b d, r.foldConstants = (.ok (r.plan.filter r.isKnown), b) ∧ b.run = (.ok (), d) ∧ d.edges = b.edges ∧
      (∃ mapping, d.prune = (.ok mapping, d.pruned)) ∧ Linked d.pruned ∧
      ∀ (k : Nat) n, d.pruned.nodes[k]? = some n → ∃ (i : Nat) (m : Node),
        r.nodes[i]? = some m ∧ n.name = m.name ∧ d.pruned.outputFact k = r.outputFact i := by
  obtain ⟨b, hb, hfold, hvalid, hstable⟩ := h.foldConstants
  obtain ⟨p, s, f, hrun⟩ := run_of_stable hfold.toWellFormed hstable (hfold.roundLimit_eq ▸ hlimit)
  have hwd : WellFormed (b.movedTo p s f) := by
    have hafter := (run_refines hfold.toWellFormed).1
    rw [hrun] at hafter
    exact hafter
  have hpruned := pruned_linked hwd.toLinked hwd.toPlanned
  refine ⟨b, _, hb, hrun, rfl, ⟨_, prune_eq hwd.toLinked hwd.toPlanned⟩, hpruned, fun k n hn => ?_⟩
  obtain ⟨i, m, hi, hm, rfl, rfl⟩ := pruned_node hwd.toPlanned hn
  have hname : ∃ m', r.nodes[i]? = some m' ∧ m.name = m'.name := by
    by_cases hid : i ∈ (r.plan.filter r.isKnown).reverse
    · obtain ⟨m', v, hm', -, hnode⟩ := hfold.folded i hid
      cases hnode.symm.trans hm
      exact ⟨m', hm', rfl⟩
    · exact ⟨m, (hfold.others i hid).symm.trans hm, rfl⟩
  obtain ⟨m', hm', hname⟩ := hname
  refine ⟨i, m', hm', hname, ?_⟩
  have hfacts : (((b.movedTo p s f).edgesFrom i).map
      (renumberEdge (b.movedTo p s f).usedNodes (b.movedTo p s f).usedEdges)).map Edge.fact =
      (b.edgesFrom i).map Edge.fact := by
    rw [List.map_map]
    rfl
  rw [outputFact_eq hpruned (pruned_lt hwd.toPlanned hi), pruned_from hwd.toLinked hwd.toPlanned hi, hfacts,
    ← outputFact_eq hfold.toLinked (hfold.lt i hi)]
  exact hfold.outputFact_eq h (fun _ => mem_known) hvalid hi

/-- Where the analysis without folding and pruning comes to an end, so does that
with both, and what is left is reported as before. -/
theorem exists_folded {model : Model} {hints : Hints} (hlib : ∀ n ∈ model.nodes, n.op.IsLibrary)
    (hvalid : model.validate = .ok ()) (hnone : ∀ h ∈ hints, h.2.value = none) {output : String}
    {limit : Option Nat} {r : Analysis} (hr : ofModel model output hints false false limit = .ok r) :
    ∃ b d c, r.foldConstants = (.ok (r.plan.filter r.isKnown), b) ∧ b.run = (.ok (), d) ∧
      d.edges = b.edges ∧ ofModel model output hints true true limit = .ok c ∧
      ∃ t u, r.report = .ok t ∧ c.report = .ok u ∧
        ∀ n ∈ c.nodes, ∃ text, t.find? n.name = some text ∧ u.find? n.name = some text := by
  obtain ⟨hsettled, hlimit, hnodes⟩ := settled_of_ofModel hlib hnone hr
  obtain ⟨b, d, hb, hd, hedges, ⟨mapping, hprune⟩, hlinked, hkept⟩ := hsettled.exists_pruned hlimit
  have hnames : (r.nodes.map Node.name).Nodup := by
    rw [hnodes]
    exact (Model.validate_eq_ok_iff.1 hvalid).2.1
  have hnames' : (d.pruned.nodes.map Node.name).Nodup := by
    have hafter := graphInvariant_names.foldInvariant.foldConstants hsettled.toWellFormed hnames
    rw [hb] at hafter
    have hrun := graphInvariant_names.runInvariant.run hafter.1 hafter.2
    rw [hd] at hrun
    exact graphInvariant_names.pruned hrun.1 hrun.2
  have hfacts : ∀ i < r.nodes.length, ∃ f, r.outputFact i = .ok f := fun i hi => hsettled.exists_outputFact hi
  have hfacts' : ∀ k < d.pruned.nodes.length, ∃ f, d.pruned.outputFact k = .ok f := by
    intro k hk
    obtain ⟨i, m, hm, -, heq⟩ := hkept k _ (List.getElem?_eq_getElem hk)
    rw [heq]
    exact hfacts i (List.getElem?_eq_some_iff.1 hm).1
  obtain ⟨t, ht, htext⟩ := report_spec hsettled.toLinked hnames hfacts
  obtain ⟨u, hu, hutext⟩ := report_spec hlinked hnames' hfacts'
  refine ⟨b, d, d.pruned, hb, hd, hedges, ?_, t, u, ht, hu, fun n hn => ?_⟩
  · rw [ofModel_folded, hr]
    simp only [foldAndRun, hb, completed, bind, Except.bind, hd, hprune]
  · obtain ⟨k, hk⟩ := List.mem_iff_getElem?.1 hn
    obtain ⟨i, m, hm, hname, heq⟩ := hkept k n hk
    obtain ⟨f, hf⟩ := hfacts i (List.getElem?_eq_some_iff.1 hm).1
    refine ⟨f.text, ?_, hutext k n f hk (heq.trans hf)⟩
    rw [hname]
    exact htext i m f hm hf

/-- **Folding and pruning do not change what is reported.** For a valid model of
operators of the library, any output, hints without values and any limit, the
analysis succeeds with folding and pruning if and only if it does without. Then
folding gives the planned nodes that are no constants and know their outputs, the
run after it changes no edge, and both reports have the same facts about the nodes
that are left. -/
theorem report_folded {model : Model} {hints : Hints} (hlib : ∀ n ∈ model.nodes, n.op.IsLibrary)
    (hvalid : model.validate = .ok ()) (hnone : ∀ h ∈ hints, h.2.value = none) (output : String)
    (limit : Option Nat) :
    ((∃ c, ofModel model output hints true true limit = .ok c) ↔
      ∃ r, ofModel model output hints false false limit = .ok r) ∧
    ∀ r, ofModel model output hints false false limit = .ok r → ∃ b d c,
      r.foldConstants = (.ok (r.plan.filter r.isKnown), b) ∧ b.run = (.ok (), d) ∧ d.edges = b.edges ∧
        ofModel model output hints true true limit = .ok c ∧
        ∃ t u, r.report = .ok t ∧ c.report = .ok u ∧
          ∀ n ∈ c.nodes, ∃ text, t.find? n.name = some text ∧ u.find? n.name = some text := by
  refine ⟨⟨fun ⟨c, hc⟩ => ?_, fun ⟨r, hr⟩ => ?_⟩, fun r hr => exists_folded hlib hvalid hnone hr⟩
  · rw [ofModel_folded, bind_eq_ok_iff] at hc
    obtain ⟨r, hr, -⟩ := hc
    exact ⟨r, hr⟩
  · obtain ⟨b, d, c, -, -, -, hc, -⟩ := exists_folded hlib hvalid hnone hr
    exact ⟨c, hc⟩

/-- A pair of integers shifted by the positive part of a constant. -/
def shiftedPair : Model := ⟨[
  ⟨0, "c", "Const", .const (integerPair 2 (-5)), []⟩,
  ⟨1, "shift", "Relu", .relu, [⟨0, none⟩]⟩,
  ⟨2, "x", "Placeholder", .placeholder integerPairs, []⟩,
  ⟨3, "y", "Add", .add, [⟨2, none⟩, ⟨1, none⟩]⟩]⟩

/-- Of the shifted pair the shift is folded, its constant is pruned, and the rest is
reported as before. -/
theorem shiftedPair_report : ∃ r b d c, ofModel shiftedPair "y" [("x", integerPairs)] false false none = .ok r ∧
    r.plan.filter r.isKnown = [1] ∧
    r.foldConstants = (.ok [1], b) ∧ b.run = (.ok (), d) ∧ d.edges = b.edges ∧
    ofModel shiftedPair "y" [("x", integerPairs)] true true none = .ok c ∧
    ∃ t u, r.report = .ok t ∧ c.report = .ok u ∧
      ∀ n ∈ c.nodes, ∃ text, t.find? n.name = some text ∧ u.find? n.name = some text := by
  have hlib : ∀ n ∈ shiftedPair.nodes, n.op.IsLibrary := by
    intro n hn
    simp only [shiftedPair, List.mem_cons, List.not_mem_nil, or_false] at hn
    rcases hn with rfl | rfl | rfl | rfl
    · trivial
    · trivial
    · rfl
    · trivial
  have hnone : ∀ h ∈ ([("x", integerPairs)] : Hints), h.2.value = none := by
    intro h hh
    cases List.mem_singleton.1 hh
    rfl
  obtain ⟨-, hfolded⟩ := report_folded hlib rfl hnone "y" none
  have hplan : (ofModel shiftedPair "y" [("x", integerPairs)] false false none).toOption.map
      (fun r => r.plan.filter r.isKnown) = some [1] := by decide +kernel
  cases hr : ofModel shiftedPair "y" [("x", integerPairs)] false false none with
  | error e =>
    rw [hr] at hplan
    cases hplan
  | ok r =>
    rw [hr] at hplan
    have hknown : r.plan.filter r.isKnown = [1] := Option.some.inj hplan
    obtain ⟨b, d, c, hb, hd, hedges, hc, hreport⟩ := hfolded r hr
    rw [hknown] at hb
    exact ⟨r, b, d, c, rfl, hknown, hb, hd, hedges, hc, hreport⟩

end Analysis

end EdgeFacts
