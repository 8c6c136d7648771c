/-
# Visits in terms of the edges around a node

What a node infers depends on its operator and on the edges into and out of it
alone (`Analysis.inferred_eq_ok_iff_around`), and so does whether it has anything
to add (`Analysis.stableAt_iff`). A commit puts what is inferred on these edges,
where it says something new, and leaves the others (`Analysis.commit_met`); on an
edge about which all is known it never says anything new. Where no node has
anything to add, a run settles at once (`Analysis.run_of_stable`).

Key definitions: `Compatible`, `Infers`, `Met`, `Content`.
Key theorems: `compatible_iff`, `Analysis.stableAt_iff`, `Analysis.commit_met`,
`Analysis.visit_edges`, `Analysis.run_of_stable`.
-/
import EdgeFacts.Proofs.Foldable

namespace EdgeFacts

/-! ### What a node infers -/

/-- Whether some edges leave their node at one port. -/
def OnePort (es : List Edge) : Prop := ∀ e ∈ es, ∀ d ∈ es, e.port = d.port

theorem OnePort.of_subset {es ds : List Edge} (h : OnePort es) (hsub : ds ⊆ es) : OnePort ds :=
  fun e he d hd => h e (hsub he) d (hsub hd)

theorem OnePort.nil : OnePort [] :=
  fun _ he => absurd he List.not_mem_nil

theorem onePort_cons_iff {e : Edge} {es : List Edge} :
    OnePort (e :: es) ↔ ∀ d ∈ es, d.port = e.port := by
  refine ⟨fun h d hd => h d (.tail _ hd) e (.head _), fun h => ?_⟩
  have hports : ∀ d ∈ e :: es, d.port = e.port := List.forall_mem_cons.2 ⟨rfl, h⟩
  exact fun c hc d hd => (hports c hc).trans (hports d hd).symm

/-- Whether some fact says all that is known on some edges. -/
def Compatible (es : List Edge) : Prop := ∃ d : TensorFact, ∀ e ∈ es, d.Refines e.fact

theorem Compatible.of_subset {es ds : List Edge} (h : Compatible es) (hsub : ds ⊆ es) : Compatible ds :=
  h.imp fun _ hd _ he => hd _ (hsub he)

theorem compatible_of_forall_eq {es : List Edge} {g : TensorFact} (h : ∀ e ∈ es, e.fact = g) : Compatible es := by
  refine ⟨g, fun e he => ?_⟩
  rw [h e he]
  exact .refl g

/-- Facts that one fact says can be combined, and those that can be combined, their meet says. -/
theorem compatible_iff {es : List Edge} :
    Compatible es ↔ ∃ y, TensorFact.meetAll .unknown (es.map Edge.fact) = .ok y := by
  constructor
  · rintro ⟨d, hd⟩
    obtain ⟨y, hy, -⟩ := TensorFact.meetAll_greatest (TensorFact.refines_unknown d)
      fun g (hg : g ∈ es.map Edge.fact) => by
        obtain ⟨e, he, rfl⟩ := List.mem_map.1 hg
        exact hd e he
    exact ⟨y, hy⟩
  · rintro ⟨y, hy⟩
    exact ⟨y, fun e he => (TensorFact.meetAll_lower hy).2 _ (List.mem_map_of_mem he)⟩

/-- Whether an operator infers some facts from the edges into and out of its node. -/
structure Infers (op : Operator) (before after : List Edge) (ins : List TensorFact) (out : TensorFact) :
    Prop where
  onePort : OnePort after
  refine_eq : ∃ y, TensorFact.meetAll .unknown (after.map Edge.fact) = .ok y ∧
    op.refine (before.map Edge.fact) y = .ok (ins, some out)
  length_eq : ins.length = before.length

/-- The inferred facts with the edges that they are for. -/
def pairsFor (before after : List Edge) (ins : List TensorFact) (out : TensorFact) :
    List (TensorFact × Edge) :=
  (ins ++ after.map fun _ => out).zip (before ++ after)

/-- A fact for an edge, and the fact to put there. -/
def Met (x : TensorFact × Edge) (p : Nat × TensorFact) : Prop :=
  p.1 = x.2.id ∧ x.1.meet x.2.fact = .ok p.2

/-- Whether an operator has nothing to add to the facts on the edges around its node. -/
def Content (op : Operator) (before after : List Edge) : Prop :=
  ∃ ins out, Infers op before after ins out ∧
    ∀ x ∈ pairsFor before after ins out, ∃ m, x.1.meet x.2.fact = .ok m ∧ m.same x.2.fact = true

theorem zip_const {α β : Type} (b : β) : ∀ xs : List α, (xs.map fun _ => b).zip xs = xs.map fun x => (b, x)
  | [] => rfl
  | x :: xs => by
    simp only [List.map_cons, List.zip_cons_cons, zip_const b xs]

theorem mem_pairsFor {before after : List Edge} {ins : List TensorFact} {out : TensorFact}
    (hl : ins.length = before.length) {x : TensorFact × Edge} :
    x ∈ pairsFor before after ins out ↔ x ∈ ins.zip before ∨ ∃ e ∈ after, x = (out, e) := by
  rw [pairsFor, List.zip_append hl, List.mem_append, zip_const, List.mem_map]
  simp only [eq_comm]

theorem Infers.map_snd {op : Operator} {before after : List Edge} {ins : List TensorFact} {out : TensorFact}
    (h : Infers op before after ins out) :
    (pairsFor before after ins out).map Prod.snd = before ++ after :=
  List.map_snd_zip (by simp [h.length_eq])

theorem forall₂_congr_left {α β : Type} {R S : α → β → Prop} : ∀ {xs : List α} {ys : List β},
    (∀ x ∈ xs, ∀ y, R x y ↔ S x y) → (List.Forall₂ R xs ys ↔ List.Forall₂ S xs ys)
  | [], ys, _ => by cases ys <;> simp
  | x :: xs, [], _ => by simp
  | x :: xs, y :: ys, h => by
    rw [List.forall₂_cons, List.forall₂_cons, h x (.head _) y,
      forall₂_congr_left fun z hz => h z (.tail _ hz)]

namespace Analysis

variable {a : Analysis} {i : Nat} {n : Node}

theorem haveOnePort_eq_ok_true_iff (hl : Linked a) {es : List Edge} (hes : ∀ e ∈ es, e ∈ a.edges) :
    a.haveOnePort (es.map Edge.id) = .ok true ↔ OnePort es := by
  have hlook : List.Forall₂ (fun j e => a.edges[j]? = some e) (es.map Edge.id) es := by
    rw [List.forall₂_map_left_iff]
    exact List.forall₂_same.2 fun e he => hl.getElem?_id (hes e he)
  have hunique {ds : List Edge} (hds : List.Forall₂ (fun j e => a.edges[j]? = some e) (es.map Edge.id) ds) :
      ds = es := by
    have heq : List.Forall₂ (fun d e => d = e) ds es :=
      (forall₂_comp hds.flip hlook).imp fun d e ⟨j, hd, he⟩ => Option.some.inj (hd.symm.trans he)
    exact List.forall₂_eq_eq_eq ▸ heq
  rw [haveOnePort_eq_ok_iff]
  constructor
  · rintro ⟨ds, hds, h⟩
    rw [hunique hds] at h
    cases es with
    | nil => exact .nil
    | cons e es => exact onePort_cons_iff.2 (by simpa using h)
  · refine fun h => ⟨es, hlook, ?_⟩
    cases es with
    | nil => rfl
    | cons e es => simpa using onePort_cons_iff.1 h

theorem combined_iff_met (hl : Linked a) {x : TensorFact × Edge} (hx : x.2 ∈ a.edges)
    {p : Nat × TensorFact} : Combined a (x.1, x.2.id) p ↔ Met x p := by
  simp only [Combined, Met, factOf_of_getElem? (hl.getElem?_id hx), Except.ok.injEq, exists_eq_left']

theorem forall₂_combined_iff (hl : Linked a) {fs : List TensorFact} {es : List Edge}
    (hes : ∀ e ∈ es, e ∈ a.edges) {r : List (Nat × TensorFact)} :
    List.Forall₂ (Combined a) (fs.zip (es.map Edge.id)) r ↔ List.Forall₂ Met (fs.zip es) r := by
  rw [List.zip_map_right, List.forall₂_map_left_iff]
  exact forall₂_congr_left fun x hx p => combined_iff_met hl (hes _ (List.of_mem_zip hx).2)

theorem mem_around {e : Edge} (he : e ∈ a.edgesInto i ++ a.edgesFrom i) : e ∈ a.edges := by
  rcases List.mem_append.1 he with he | he
  · exact (mem_edgesInto.1 he).1
  · exact (mem_edgesFrom.1 he).1

/-- **What a node infers depends on the edges around it alone.** -/
theorem inferred_eq_ok_iff_around (hl : Linked a) (hn : a.nodes[i]? = some n) {r : List (Nat × TensorFact)} :
    a.inferred n = .ok r ↔ ∃ ins out, Infers n.op (a.edgesInto i) (a.edgesFrom i) ins out ∧
      List.Forall₂ Met (pairsFor (a.edgesInto i) (a.edgesFrom i) ins out) r := by
  have hlt := (List.getElem?_eq_some_iff.1 hn).1
  have hid : n.id.toNat = i := by
    rw [hl.ids i n hn]
    rfl
  have hinto : ∀ e ∈ a.edgesInto i, e ∈ a.edges := fun e he => (mem_edgesInto.1 he).1
  have hfrom : ∀ e ∈ a.edgesFrom i, e ∈ a.edges := fun e he => (mem_edgesFrom.1 he).1
  have hzip (ins : List TensorFact) (out : TensorFact) :
      (ins ++ ((a.edgesFrom i).map Edge.id).map fun _ => out).zip
        ((a.edgesInto i).map Edge.id ++ (a.edgesFrom i).map Edge.id) =
      (ins ++ (a.edgesFrom i).map fun _ => out).zip ((a.edgesInto i ++ a.edgesFrom i).map Edge.id) := by
    rw [List.map_map, List.map_append]
    rfl
  rw [inferred_eq_ok_iff]
  constructor
  · rintro ⟨before, after, inputs, outputs, y, ins, out, hb, ha, hp, hi, ho, hy, href, hlen, hr⟩
    rw [hid] at hb ha
    cases hb.symm.trans (hl.incoming_getElem? hlt)
    cases ha.symm.trans (hl.outgoing_getElem? hlt)
    cases hi.symm.trans (factsOf_edges hl hinto)
    cases ho.symm.trans (factsOf_edges hl hfrom)
    rw [hzip, forall₂_combined_iff hl fun _ => mem_around] at hr
    exact ⟨ins, out, ⟨(haveOnePort_eq_ok_true_iff hl hfrom).1 hp, ⟨y, hy, href⟩, by simpa using hlen⟩, hr⟩
  · rintro ⟨ins, out, ⟨hp, ⟨y, hy, href⟩, hlen⟩, hr⟩
    have hb : a.incoming[n.id.toNat]? = some ((a.edgesInto i).map Edge.id) := by
      rw [hid]
      exact hl.incoming_getElem? hlt
    have ha : a.outgoing[n.id.toNat]? = some ((a.edgesFrom i).map Edge.id) := by
      rw [hid]
      exact hl.outgoing_getElem? hlt
    refine ⟨⟨_, _, _, _, y, ins, out, hb, ha, (haveOnePort_eq_ok_true_iff hl hfrom).2 hp,
      factsOf_edges hl hinto, factsOf_edges hl hfrom, hy, href, by simpa using hlen, ?_⟩⟩
    rw [hzip, forall₂_combined_iff hl fun _ => mem_around]
    exact hr

/-- **Whether a node has anything to add depends on the edges around it alone.** -/
theorem stableAt_iff (hl : Linked a) :
    a.StableAt i ↔ ∃ n, a.nodes[i]? = some n ∧ Content n.op (a.edgesInto i) (a.edgesFrom i) := by
  have hsame {xs : List (TensorFact × Edge)} {r : List (Nat × TensorFact)} (hxs : ∀ x ∈ xs, x.2 ∈ a.edges)
      (hr : List.Forall₂ Met xs r) : (a.commit r).1 = false ↔
        ∀ x ∈ xs, ∃ m, x.1.meet x.2.fact = .ok m ∧ m.same x.2.fact = true := by
    have hcommit : (a.commit r).1 = false ↔ _ := commitEdges_eq_false_iff
    rw [hcommit]
    constructor
    · intro h x hx
      obtain ⟨k, hk, rfl⟩ := List.mem_iff_getElem.1 hx
      have hkr := hr.length_eq ▸ hk
      obtain ⟨hid, hm⟩ := hr.get hk hkr
      exact ⟨_, hm, h _ (List.getElem_mem hkr) _ (hid ▸ hl.getElem?_id (hxs _ hx))⟩
    · intro h p hp e he
      obtain ⟨k, hk, rfl⟩ := List.mem_iff_getElem.1 hp
      have hkx := hr.length_eq.symm ▸ hk
      obtain ⟨hid, hm⟩ := hr.get hkx hk
      have hx := List.getElem_mem hkx
      obtain ⟨m, hm', hs⟩ := h _ hx
      cases hm.symm.trans hm'
      simp only [List.get_eq_getElem] at hid
      rw [hid, hl.getElem?_id (hxs _ hx)] at he
      cases he
      exact hs
  have hmem {ins : List TensorFact} {out : TensorFact} :
      ∀ x ∈ pairsFor (a.edgesInto i) (a.edgesFrom i) ins out, x.2 ∈ a.edges :=
    fun x hx => mem_around (List.of_mem_zip hx).2
  constructor
  · rintro ⟨a', hv⟩
    obtain ⟨n, r, hn, hr, hc⟩ := visit_eq_ok_iff.1 hv
    obtain ⟨ins, out, hinfers, hr⟩ := (inferred_eq_ok_iff_around hl hn).1 hr
    exact ⟨n, hn, ins, out, hinfers, (hsame hmem hr).1 (congrArg Prod.fst hc)⟩
  · rintro ⟨n, hn, ins, out, hinfers, hall⟩
    obtain ⟨r, hr⟩ : ∃ r, List.Forall₂ Met (pairsFor (a.edgesInto i) (a.edgesFrom i) ins out) r :=
      exists_forall₂_of_forall fun x hx => by
        obtain ⟨m, hm, -⟩ := hall x hx
        exact ⟨(x.2.id, m), rfl, hm⟩
    have hunchanged := (hsame hmem hr).2 hall
    exact ⟨_, visit_eq_ok_iff.2 ⟨n, r, hn, (inferred_eq_ok_iff_around hl hn).2 ⟨ins, out, hinfers, hr⟩,
      Prod.ext hunchanged rfl⟩⟩

theorem compatible_of_stableAt (hl : Linked a) (h : a.StableAt i) : Compatible (a.edgesFrom i) := by
  obtain ⟨n, -, ins, out, hinfers, -⟩ := (stableAt_iff hl).1 h
  obtain ⟨y, hy, -⟩ := hinfers.refine_eq
  exact compatible_iff.2 ⟨y, hy⟩

/-! ### What a commit changes -/

theorem commitEdges_getElem? {r : List (Nat × TensorFact)} {edges : List Edge} {j : Nat} {f : TensorFact}
    {e : Edge} (hn : (r.map Prod.fst).Nodup) (hjf : (j, f) ∈ r) (he : edges[j]? = some e) :
    (commitEdges edges r).2[j]? = some (if f.same e.fact = true then e else { e with fact := f }) := by
  induction r generalizing edges with
  | nil => cases hjf
  | cons p r ih =>
    obtain ⟨k, g⟩ := p
    rw [List.map_cons, List.nodup_cons] at hn
    rcases List.mem_cons.1 hjf with heq | hjf
    · cases heq
      simp only [commitEdges, he]
      split
      · rw [commitEdges_getElem?_of_notMem hn.1, he]
      · simp only [commitEdges_getElem?_of_notMem hn.1]
        exact List.getElem?_set_self (List.getElem?_eq_some_iff.1 he).1
    · have hkj : k ≠ j := by
        rintro rfl
        exact hn.1 (List.mem_map.2 ⟨(k, f), hjf, rfl⟩)
      simp only [commitEdges]
      split
      · exact ih hn.2 hjf he
      · split
        · exact ih hn.2 hjf he
        · exact ih hn.2 hjf ((List.getElem?_set_ne hkj).trans he)

/-- **What a commit does to edges**: those that facts were met for take them where
they say something new, and the others stay. -/
theorem commit_met (hl : Linked a) {xs : List (TensorFact × Edge)} {r : List (Nat × TensorFact)}
    (hxs : ∀ x ∈ xs, x.2 ∈ a.edges) (hn : (xs.map fun x => x.2.id).Nodup) (hr : List.Forall₂ Met xs r) :
    (∀ x ∈ xs, ∃ m, x.1.meet x.2.fact = .ok m ∧ (a.commit r).2.edges[x.2.id]? =
      some (if m.same x.2.fact = true then x.2 else { x.2 with fact := m })) ∧
    ∀ j, j ∉ xs.map (fun x => x.2.id) → (a.commit r).2.edges[j]? = a.edges[j]? := by
  have hkeys : r.map Prod.fst = xs.map fun x => x.2.id := by
    refine (List.forall₂_eq_eq_eq ▸ ?_ : xs.map (fun x => x.2.id) = r.map Prod.fst).symm
    rw [List.forall₂_map_left_iff, List.forall₂_map_right_iff]
    exact hr.imp fun x p h => h.1.symm
  refine ⟨fun x hx => ?_, fun j hj => commitEdges_getElem?_of_notMem (hkeys ▸ hj)⟩
  obtain ⟨k, hk, rfl⟩ := List.mem_iff_getElem.1 hx
  have hkr := hr.length_eq ▸ hk
  obtain ⟨hid, hm⟩ := hr.get hk hkr
  simp only [List.get_eq_getElem] at hid hm
  refine ⟨_, hm, commitEdges_getElem? (hkeys ▸ hn) ?_ (hl.getElem?_id (hxs _ hx))⟩
  rw [← hid]
  exact List.getElem_mem hkr

/-- **What a visit does to edges**, those around the node and the others. -/
theorem visit_edges (hw : WellFormed a) (hi : i ∈ a.plan) {a' : Analysis} {changed : Bool}
    (hv : a.visit i = .ok (changed, a')) : ∃ n ins out, a.nodes[i]? = some n ∧
      Infers n.op (a.edgesInto i) (a.edgesFrom i) ins out ∧
      (∀ x ∈ pairsFor (a.edgesInto i) (a.edgesFrom i) ins out, ∃ m, x.1.meet x.2.fact = .ok m ∧
        a'.edges[x.2.id]? = some (if m.same x.2.fact = true then x.2 else { x.2 with fact := m })) ∧
      ∀ e ∈ a.edges, e.target ≠ some i → e.source ≠ some i → a'.edges[e.id]? = some e := by
  obtain ⟨n, r, hn, hr, hc⟩ := visit_eq_ok_iff.1 hv
  obtain ⟨ins, out, hinfers, hr⟩ := (inferred_eq_ok_iff_around hw.toLinked hn).1 hr
  have hids : ((pairsFor (a.edgesInto i) (a.edgesFrom i) ins out).map fun x => x.2.id) =
      (a.edgesInto i).map Edge.id ++ (a.edgesFrom i).map Edge.id := by
    have hsnd := congrArg (List.map Edge.id) hinfers.map_snd
    rw [List.map_map, List.map_append] at hsnd
    exact hsnd
  obtain ⟨hmet, hrest⟩ := commit_met hw.toLinked (fun x hx => mem_around (List.of_mem_zip hx).2)
    (hids ▸ hw.nodup_around hw.toLinked hi) hr
  rw [hc] at hmet hrest
  refine ⟨n, ins, out, hn, hinfers, hmet, fun e he ht hs => ?_⟩
  have hout : e.id ∉ (pairsFor (a.edgesInto i) (a.edgesFrom i) ins out).map fun x => x.2.id := by
    rw [hids, List.mem_append, hw.id_mem_edgesInto he, hw.id_mem_edgesFrom he]
    exact fun h => h.elim ht hs
  rw [hrest _ hout]
  exact hw.getElem?_id he

end Analysis

/-! ### Edges about which all is known -/

theorem TensorFact.same_of_refines_ofTensor {f : TensorFact} {t : Tensor} (h : f.Refines (.ofTensor t)) :
    f.same (.ofTensor t) = true := by
  refine same_iff_refines.2 ⟨h, fun d hd => ?_, ?_, fun v hv => ?_⟩
  · rw [← hd]
    exact (h.dtype _ rfl).symm
  · have hshape : f.shape = .ofExtents t.shape := ShapeFact.Refines.eq_ofExtents h.shape
    rw [hshape]
    exact .refl _
  · obtain ⟨u, hu, hut⟩ := h.value t rfl
    cases hu.symm.trans hv
    exact ⟨t, rfl, Tensor.same_symm hut⟩

theorem TensorFact.Refines.eq_ofTensor {f : TensorFact} {t : Tensor} (h : f.Refines (.ofTensor t))
    (hv : f.value = some t) : f = .ofTensor t := by
  have hdtype := h.dtype _ rfl
  have hshape : f.shape = .ofExtents t.shape := ShapeFact.Refines.eq_ofExtents h.shape
  rcases f with ⟨d, s, v⟩
  cases hdtype
  cases hshape
  cases hv
  rfl

namespace Analysis

variable {a : Analysis} {i : Nat}

/-- A visit leaves an edge about which all is known as it is. -/
theorem visit_exact (hw : WellFormed a) (hi : i ∈ a.plan) {a' : Analysis} {changed : Bool}
    (hv : a.visit i = .ok (changed, a')) {e : Edge} (he : e ∈ a.edges) {t : Tensor}
    (ht : e.fact = .ofTensor t) : a'.edges[e.id]? = some e := by
  obtain ⟨n, ins, out, -, hinfers, hmet, hrest⟩ := visit_edges hw hi hv
  have hmem : e ∈ a.edgesInto i ++ a.edgesFrom i → a'.edges[e.id]? = some e := by
    intro hmem
    rw [← hinfers.map_snd] at hmem
    obtain ⟨x, hx, rfl⟩ := List.mem_map.1 hmem
    obtain ⟨m, hm, hedge⟩ := hmet x hx
    have hle := (TensorFact.isMeet.lower hm).2
    rw [ht] at hle hedge
    rw [hedge, if_pos (TensorFact.same_of_refines_ofTensor hle)]
  by_cases hin : e.target = some i
  · exact hmem (List.mem_append.2 (.inl (mem_edgesInto.2 ⟨he, hin⟩)))
  · by_cases hout : e.source = some i
    · exact hmem (List.mem_append.2 (.inr (mem_edgesFrom.2 ⟨he, hout⟩)))
    · exact hrest e he hin hout

/-! ### Runs from stable facts -/

theorem step_of_stable (hw : WellFormed a) (h : a.Stable) : a.step = .ok (false, a.moveOn) := by
  have hlt := place_lt hw.stepIndex_lt
  obtain ⟨b, hb⟩ := h _ (List.getElem_mem hlt)
  obtain rfl := visit_unchanged hb
  exact (step_eq_ok_iff (List.ne_nil_of_mem hw.output_mem)).2 ⟨_, _, List.getElem?_eq_getElem hlt, hb, rfl⟩

theorem steps_of_stable : ∀ {k : Nat} {a : Analysis}, WellFormed a → a.Stable →
    ∃ p s f, s < a.plan.length ∧ steps k a = (.ok false, a.movedTo p s f)
  | 0, a, hw, _ => ⟨_, _, _, hw.stepIndex_lt, rfl⟩
  | k + 1, a, hw, h => by
    have hlt := moveOn_stepIndex_lt hw.stepIndex_lt
    obtain ⟨p, s, f, hm⟩ := a.moveOn_eq
    have hwm := moveOn_wellFormed hw
    rw [hm] at hwm
    obtain ⟨p', s', f', hs', hrest⟩ := steps_of_stable (k := k) hwm (stable_movedTo h)
    refine ⟨p', s', f', hs', ?_⟩
    simp only [steps, step_of_stable hw h, hm, hrest]
    rfl

theorem round_of_stable (hw : WellFormed a) (h : a.Stable) :
    ∃ p s f, a.round = (.ok false, a.movedTo p s f) := by
  have hpos : 0 < a.plan.length := Nat.lt_of_le_of_lt (Nat.zero_le _) hw.stepIndex_lt
  obtain ⟨p, s, f, -, hfirst⟩ := steps_of_stable (k := a.plan.length)
    (movedTo_wellFormed (p := a.passIndex) (f := true) hw hpos) (stable_movedTo h)
  obtain ⟨p', s', f', -, hsecond⟩ := steps_of_stable (k := a.plan.length)
    (movedTo_wellFormed (p := p) (f := f) hw hpos) (stable_movedTo h)
  have hfirst' : pass { a with forward := true } = (.ok false, a.movedTo p s f) := hfirst
  have hsecond' : pass (a.movedTo p s f) = (.ok false, a.movedTo p' s' f') := hsecond
  exact ⟨p', s', f', by simp only [round, hfirst', hsecond', Bool.or_self]⟩

/-- **Where no node has anything to add, a run settles at once.** -/
theorem run_of_stable (hw : WellFormed a) (h : a.Stable) (hlimit : a.roundLimit ≠ some 0) :
    ∃ p s f, a.run = (.ok (), a.movedTo p s f) := by
  obtain ⟨fuel, hfuel⟩ : ∃ fuel, a.roundLimit.getD a.roundBound = fuel + 1 := by
    cases hl : a.roundLimit with
    | none => exact ⟨_, rfl⟩
    | some limit =>
      cases limit with
      | zero => exact absurd hl hlimit
      | succ limit => exact ⟨limit, rfl⟩
  obtain ⟨p, s, f, hround⟩ := round_of_stable
    (movedTo_wellFormed (p := 0) (f := a.forward) hw hw.stepIndex_lt) (stable_movedTo h)
  have hround' : round { a with passIndex := 0 } = (.ok false, a.movedTo p s f) := hround
  exact ⟨p, s, f, by rw [run, hfuel, rounds, hround']⟩

end Analysis

end EdgeFacts
