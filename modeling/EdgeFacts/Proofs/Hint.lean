/-
# A hint takes effect or fails

A hint is met with the fact on each edge out of its node, one edge after the other,
while what is known of the output is the meet of all of these facts. The two come
to the same, since facts that meet in pairs meet together (`Helly`): a hint fails
exactly if it contradicts what is known of the output, and otherwise it is met with
that (`Analysis.hint_effective`). No other edge changes.

A node without edges out of it has no place for a fact. A hint for it is accepted
whatever it tells, changes nothing, and nothing is known of the output afterwards
(`Analysis.sink_forgets`).

Key definitions: `Helly`, `TensorFact.Meets`.
Key theorems: `ShapeFact.meetDims?_helly`, `TensorFact.helly`, `Analysis.exists_hint_iff`,
`Analysis.hint_effective`.
-/
import EdgeFacts.Proofs.Classification
import EdgeFacts.Proofs.Consistent
import EdgeFacts.Proofs.Exhaustion
import EdgeFacts.Proofs.HintOrder
import EdgeFacts.Proofs.SameFacts

namespace EdgeFacts

/-! ### Facts that meet in pairs -/

/-- Whether an operation gives a result for a third argument with the result for two
others as soon as it does with each of the two. -/
def Helly {α : Type} (meet : α → α → Except Failure α) : Prop :=
  ∀ {a b c d}, meet b c = .ok d → (∃ x, meet a b = .ok x) → (∃ y, meet a c = .ok y) → ∃ z, meet a d = .ok z

theorem DimFact.meet?_helly {a b c d : DimFact} (hd : b.meet? c = some d) (hb : (a.meet? b).isSome)
    (hc : (a.meet? c).isSome) : (a.meet? d).isSome := by
  cases a <;> cases b <;> cases c <;> grind [meet?]

namespace ShapeFact

theorem meetDims?_cons_isSome {p q : Bool} {a b : DimFact} {as bs : List DimFact} :
    (meetDims? p q (a :: as) (b :: bs)).isSome ↔ (a.meet? b).isSome ∧ (meetDims? p q as bs).isSome := by
  rw [meetDims?]
  cases a.meet? b <;> cases meetDims? p q as bs <;> simp

/-- Place by place, and where one list ends it may go on with both of the others or
they end as well. -/
theorem meetDims?_helly {p q r : Bool} : ∀ {as bs cs ds : List DimFact}, meetDims? q r bs cs = some ds →
    (meetDims? p q as bs).isSome → (meetDims? p r as cs).isSome → (meetDims? p (q && r) as ds).isSome
  | as, [], [], ds, hd, hb, hc => by
    cases hd
    cases as <;> cases q <;> cases r <;> simp_all [meetDims?]
  | as, b :: bs, [], ds, hd, hb, _ => by
    cases r with
    | false => cases hd
    | true =>
      cases hd
      rwa [Bool.and_true]
  | as, [], c :: cs, ds, hd, _, hc => by
    cases q with
    | false => cases hd
    | true =>
      cases hd
      rwa [Bool.true_and]
  | [], b :: bs, c :: cs, ds, hd, hb, _ => by
    cases p with
    | false => cases hb
    | true => cases ds <;> rfl
  | a :: as, b :: bs, c :: cs, ds, hd, hb, hc => by
    rw [meetDims?_cons_isSome] at hb hc
    simp only [meetDims?] at hd
    split at hd
    · rename_i d rest hhead hrest
      cases hd
      exact meetDims?_cons_isSome.2
        ⟨DimFact.meet?_helly hhead hb.1 hc.1, meetDims?_helly hrest hb.2 hc.2⟩
    · cases hd

theorem exists_meet_iff {a b : ShapeFact} :
    (∃ c, a.meet b = .ok c) ↔ (meetDims? a.isOpen b.isOpen a.dims b.dims).isSome := by
  simp only [meet, orFail_eq_ok_iff, meet?, ← Option.isSome_iff_exists, Option.isSome_map]

theorem helly : Helly ShapeFact.meet := by
  intro a b c d hd hb hc
  obtain ⟨ds, hds, rfl⟩ := Option.map_eq_some_iff.1 (orFail_eq_ok_iff.1 hd)
  rw [exists_meet_iff] at hb hc ⊢
  exact meetDims?_helly hds hb hc

end ShapeFact

theorem helly_dtype : Helly meetDType := by
  intro a b c d hd hb hc
  cases a <;> cases b <;> cases c <;> grind [meetDType]

theorem helly_value : Helly meetValue := by
  intro a b c d hd hb hc
  rcases b with _ | t
  · cases hd
    exact hc
  · rcases c with _ | u
    · cases hd
      exact hb
    · simp only [meetValue] at hd
      split at hd
      · cases hd
        exact hb
      · cases hd

namespace TensorFact

/-- Whether two facts do not contradict each other. -/
def Meets (f g : TensorFact) : Prop := ∃ m, f.meet g = .ok m

theorem meets_iff {f g : TensorFact} : f.Meets g ↔ (∃ d, meetDType f.dtype g.dtype = .ok d) ∧
    (∃ s, f.shape.meet g.shape = .ok s) ∧ ∃ v, meetValue f.value g.value = .ok v := by
  constructor
  · rintro ⟨m, hm⟩
    obtain ⟨hd, hs, hv⟩ := meet_eq_ok hm
    exact ⟨⟨_, hd⟩, ⟨_, hs⟩, _, hv⟩
  · rintro ⟨⟨d, hd⟩, ⟨s, hs⟩, v, hv⟩
    exact ⟨⟨d, s, v⟩, by simp only [meet, hd, hs, hv, ok_bind, pure_eq_ok]⟩

/-- **Facts that meet in pairs meet together**: what meets each of two facts meets what
the two say together. -/
theorem helly : Helly TensorFact.meet := by
  intro a b c d hd hb hc
  obtain ⟨hdt, hds, hdv⟩ := meet_eq_ok hd
  obtain ⟨hbt, hbs, hbv⟩ := meets_iff.1 hb
  obtain ⟨hct, hcs, hcv⟩ := meets_iff.1 hc
  exact meets_iff.2 ⟨helly_dtype hdt hbt hct, ShapeFact.helly hds hbs hcs, helly_value hdv hbv hcv⟩

theorem meets_unknown (f : TensorFact) : f.Meets unknown :=
  (isMeet.greatest (.refl f) (refines_unknown f)).imp fun _ h => h.1

theorem Meets.symm {f g : TensorFact} (h : f.Meets g) : g.Meets f := by
  obtain ⟨m, hm⟩ := h
  obtain ⟨hf, hg⟩ := isMeet.lower hm
  exact (isMeet.greatest hg hf).imp fun _ h => h.1

theorem Meets.mono {f g h : TensorFact} (hfg : f.Meets g) (hgh : g.Refines h) : f.Meets h := by
  obtain ⟨m, hm⟩ := hfg
  exact (isMeet.mono (.refl f) hgh hm).imp fun _ h => h.1

theorem meets_meetAll {f : TensorFact} : ∀ {fs : List TensorFact} {start y : TensorFact},
    meetAll start fs = .ok y → f.Meets start → (∀ g ∈ fs, f.Meets g) → f.Meets y
  | [], _, _, hy, hs, _ => by
    cases hy
    exact hs
  | g :: fs, start, y, hy, hs, hall => by
    obtain ⟨h, hg, hy⟩ := meetAll_cons.1 hy
    exact meets_meetAll hy (helly hg hs (hall g (.head _))) fun k hk => hall k (.tail _ hk)

end TensorFact

namespace Analysis

theorem lt_of_outputFact {a : Analysis} {i : Nat} {y : TensorFact} (hy : a.outputFact i = .ok y) :
    i < a.nodes.length := by
  simp only [outputFact, bind_eq_ok_iff] at hy
  obtain ⟨k, hk, -⟩ := hy
  obtain ⟨hik, hlt⟩ := nodeIndex_eq_ok_iff.1 hk
  rwa [Int.natCast_inj.1 hik]

/-! ### What a hint does -/

section

variable {a : Analysis} (hl : Linked a) {i : Nat} (hi : i < a.nodes.length) {f y : TensorFact}
include hl hi

theorem exists_hint_iff : (∃ b, a.hint i f = .ok b) ↔ ∀ e ∈ a.edgesFrom i, f.Meets e.fact := by
  constructor
  · rintro ⟨b, hb⟩ e he
    obtain ⟨k, hk, -, hmet, -⟩ := hint_edges hl hb
    obtain rfl : i = k := Int.natCast_inj.1 (nodeIndex_eq_ok_iff.1 hk).1
    obtain ⟨m, hm, -⟩ := hmet e he
    exact ⟨m, hm⟩
  · intro h
    obtain ⟨r, hr⟩ : ∃ r, List.Forall₂ (fun (e : Edge) p => Combined a (f, e.id) p) (a.edgesFrom i) r := by
      refine exists_forall₂_of_forall fun e he => ?_
      obtain ⟨m, hm⟩ := h e he
      exact ⟨(e.id, m), rfl, e.fact, factOf_of_getElem? (hl.getElem?_id (mem_edgesFrom.1 he).1), hm⟩
    refine ⟨_, hint_eq_ok_iff.2 ⟨i, _, r, nodeIndex_eq_ok_iff.2 ⟨rfl, hi⟩, hl.outgoing_getElem? hi, ?_, rfl⟩⟩
    rwa [zip_const, List.map_map, List.forall₂_map_left_iff]

theorem hint_error {e : Failure} (h : a.hint i f = .error e) : e.IsClash := by
  simp only [hint, nodeIndex_eq_ok_iff.2 ⟨rfl, hi⟩, itemAt_eq_ok_iff.2 (hl.outgoing_getElem? hi), ok_bind,
    bind_eq_error_iff, pure_eq_ok, reduceCtorEq, and_false, exists_false, or_false] at h
  refine refineEdges_error (fun j hj => ?_) h
  obtain ⟨d, hd, rfl⟩ := List.mem_map.1 hj
  exact ⟨d.fact, factOf_of_getElem? (hl.getElem?_id (mem_edgesFrom.1 hd).1)⟩

/-- **A hint is accepted exactly if it does not contradict what is known of the output**:
it is met with each edge out of the node, but that is the same. -/
theorem exists_hint_iff_meets (hy : a.outputFact i = .ok y) : (∃ b, a.hint i f = .ok b) ↔ f.Meets y := by
  rw [exists_hint_iff hl hi]
  constructor
  · intro h
    rw [outputFact_eq hl hi] at hy
    exact TensorFact.meets_meetAll hy f.meets_unknown (List.forall_mem_map.2 h)
  · exact fun h e he => h.mono (outputFact_lower hl hi hy e he)

/-- After a hint for a node with edges out of it, what is known of the output is the hint
met with what was known. -/
theorem outputFact_of_hint (hy : a.outputFact i = .ok y) (hne : a.edgesFrom i ≠ []) {b : Analysis}
    (hb : a.hint i f = .ok b) : ∃ z m, b.outputFact i = .ok z ∧ f.meet y = .ok m ∧ SameFact z m := by
  obtain ⟨hdown, htold⟩ := hint_lower hl hb
  obtain ⟨k, hk, hsay⟩ := htold
  obtain rfl : i = k := Int.natCast_inj.1 (nodeIndex_eq_ok_iff.1 hk).1
  have hlb := hdown.toSameGraph.linked hl
  have hib : i < b.nodes.length := hdown.nodes ▸ hi
  obtain ⟨m, hm⟩ := (exists_hint_iff_meets hl hi hy).1 ⟨b, hb⟩
  obtain ⟨hmf, hmy⟩ := TensorFact.isMeet.lower hm
  -- the meet says all that is on the edges now
  have hmb : ∀ d ∈ b.edgesFrom i, m.Refines d.fact := by
    obtain ⟨k, hk, hsame, hmet, -⟩ := hint_edges hl hb
    obtain rfl : i = k := Int.natCast_inj.1 (nodeIndex_eq_ok_iff.1 hk).1
    intro d hd
    obtain ⟨e, he, hde⟩ := hsame.exists_edgeFrom hl hd
    have hme : m.Refines e.fact := hmy.trans (outputFact_lower hl hi hy e he)
    obtain ⟨x, hx, hedge⟩ := hmet e he
    cases hde.symm.trans hedge
    split
    · exact hme
    · obtain ⟨x', hx', hmx⟩ := TensorFact.isMeet.greatest hmf hme
      cases hx.symm.trans hx'
      exact hmx
  obtain ⟨z, hz⟩ := (exists_outputFact_iff hlb hib).2 ⟨m, hmb⟩
  refine ⟨z, m, hz, hm, SameFact.iff_refines.2 ⟨?_, outputFact_greatest hlb hib hz hmb⟩⟩
  -- an edge says the hint, and each edge says what it said before
  obtain ⟨e, he⟩ := List.exists_mem_of_ne_nil _ hne
  have hedges : ∀ e ∈ a.edgesFrom i, ∃ d ∈ b.edgesFrom i, d.fact.Refines e.fact := by
    intro e he
    obtain ⟨hmem, hs⟩ := mem_edgesFrom.1 he
    obtain ⟨d, hd, hends, hle⟩ := hdown.exists_finer (hl.getElem?_id hmem)
    exact ⟨d, mem_edgesFrom.2 ⟨List.mem_of_getElem? hd, (Edge.ends_eq_iff.1 hends).2.1.trans hs⟩, hle⟩
  have hzf : z.Refines f := by
    obtain ⟨d, hd, -⟩ := hedges e he
    exact (outputFact_lower hlb hib hz d hd).trans (hsay d hd)
  have hzy : z.Refines y := outputFact_greatest hl hi hy fun e he => by
    obtain ⟨d, hd, hle⟩ := hedges e he
    exact (outputFact_lower hlb hib hz d hd).trans hle
  obtain ⟨m', hm', hzm⟩ := TensorFact.isMeet.greatest hzf hzy
  cases hm.symm.trans hm'
  exact hzm

/-- A hint for a node without edges out of it changes nothing, and nothing is known of
the output. -/
theorem hint_of_no_edges (hnone : a.edgesFrom i = []) : a.hint i f = .ok a ∧ a.outputFact i = .ok .unknown := by
  constructor
  · refine hint_eq_ok_iff.2 ⟨i, _, [], nodeIndex_eq_ok_iff.2 ⟨rfl, hi⟩, hl.outgoing_getElem? hi, ?_, rfl⟩
    rw [hnone]
    exact .nil
  · rw [outputFact_eq hl hi, hnone]
    rfl

omit hi in
theorem hint_frame {b : Analysis} (hb : a.hint i f = .ok b) : b = { a with edges := b.edges } ∧
    SameGraph b a ∧ ∀ (j : Nat) (e : Edge), a.edges[j]? = some e → e.source ≠ some i → b.edges[j]? = some e := by
  obtain ⟨k, hk, hsame, -, hothers⟩ := hint_edges hl hb
  obtain rfl : i = k := Int.natCast_inj.1 (nodeIndex_eq_ok_iff.1 hk).1
  refine ⟨?_, hsame, fun j e he hs => ?_⟩
  · obtain ⟨-, -, r, -, -, -, rfl⟩ := hint_eq_ok_iff.1 hb
    rfl
  · rw [← hothers e (List.mem_of_getElem? he) hs, hl.edgeIds j e he]

end

/-! ### What stays of a hint -/

/-- What each edge out of a node says, each that is left says through all that does not
move nodes. -/
theorem actionInvariant_told (k : Nat) (f : TensorFact) :
    ActionInvariant (fun _ => True) fun a => ∀ e ∈ a.edgesFrom k, e.fact.Refines f where
  movedTo _ _ _ h := h
  visit hw h _ hv := (visit_refines hv).told hw.toLinked h
  hint hw h _ hb := (hint_lower hw.toLinked hb).1.told hw.toLinked h
  foldNode hw h hb := by
    obtain ⟨i, r, -, hr, rfl⟩ := (foldNode_eq_ok_iff hw.toLinked).1 hb
    rw [asFolded_from]
    intro d hd
    exact (commit_refines (combined_refines_edge hr)).told hw.toLinked h d (List.mem_of_mem_filter hd)
  replan h _ := h

/-- Where a node is after a call, if it survives: pruning drops nodes and moves the
others together. -/
def nodeAfter (a : Analysis) : Call → Nat → Option Nat
  | .act .prune, i => keptIndex? a.usedNodes i
  | _, i => some i

/-- Where a node is after calls, if it survives them. -/
def nodeAfterCalls (a : Analysis) : List Call → Nat → Option Nat
  | [], i => some i
  | x :: xs, i => (a.nodeAfter x i).bind ((a.afterCall x).nodeAfterCalls xs)

theorem nodeAfter_of_ne {a : Analysis} {x : Call} (hx : x ≠ .act .prune) (i : Nat) :
    a.nodeAfter x i = some i := by
  unfold nodeAfter
  split
  · exact absurd rfl hx
  · rfl

theorem told_afterCall {a : Analysis} (hw : WellFormed a) {x : Call} {i k : Nat} {f : TensorFact}
    (hk : a.nodeAfter x i = some k) (h : ∀ e ∈ a.edgesFrom i, e.fact.Refines f) :
    ∀ e ∈ (a.afterCall x).edgesFrom k, e.fact.Refines f := by
  by_cases hx : x = .act .prune
  · subst hx
    obtain ⟨hused, rfl⟩ := keptIndex?_eq_some_iff.1 hk
    have hpruned : a.afterCall (.act .prune) = a.pruned := congrArg Prod.snd (prune_eq hw.toLinked hw.toPlanned)
    rw [hpruned, pruned_from hw.toLinked hw.toPlanned ((usedNodes_getElem? hw.toPlanned).1 hused)]
    exact List.forall_mem_map.2 h
  · rw [nodeAfter_of_ne hx] at hk
    cases hk
    exact ((actionInvariant_told i f).afterCall hw h x.tells_true fun heq => absurd heq hx).2

/-- **What each edge out of a node says stays told** through all calls. -/
theorem told_afterCalls : ∀ {xs : List Call} {a : Analysis} {i k : Nat} {f : TensorFact}, WellFormed a →
    a.nodeAfterCalls xs i = some k → (∀ e ∈ a.edgesFrom i, e.fact.Refines f) →
    ∀ e ∈ (a.afterCalls xs).edgesFrom k, e.fact.Refines f
  | [], _, _, _, _, _, hk, h => by
    cases hk
    exact h
  | x :: xs, a, i, k, f, hw, hk, h => by
    obtain ⟨j, hj, hk⟩ := Option.bind_eq_some_iff.1 hk
    have hwx : WellFormed (a.afterCall x) := afterCalls_wellFormed hw [x]
    have tail : ∀ e ∈ ((a.afterCall x).afterCalls xs).edgesFrom k, e.fact.Refines f :=
      told_afterCalls hwx hk (told_afterCall hw hj h)
    exact tail

theorem exists_hint_clash {a : Analysis} (hl : Linked a) {i : Nat} {f g : TensorFact}
    (htold : ∀ e ∈ a.edgesFrom i, e.fact.Refines f) (hne : a.edgesFrom i ≠ []) (hfg : ¬ f.Meets g) :
    ∃ e, a.hint i g = .error e ∧ e.IsClash := by
  obtain ⟨d, hd⟩ := List.exists_mem_of_ne_nil _ hne
  have hi : i < a.nodes.length := hl.source_lt d (mem_edgesFrom.1 hd).1 i (mem_edgesFrom.1 hd).2
  cases hb : a.hint i g with
  | error e => exact ⟨e, rfl, hint_error hl hi hb⟩
  | ok b =>
    have hgf : g.Meets f := ((exists_hint_iff hl hi).1 ⟨b, hb⟩ d hd).mono (htold d hd)
    exact absurd hgf.symm hfg

/-- **A hint takes effect or fails.** Take an analysis of a model of any operators after
any calls, and a node of whose output the facts can be combined. A hint for it fails
exactly if it contradicts what is known of the output, and then for this reason. If it
is accepted, the facts on the edges that do not leave the node stay, and so does
everything else. If an edge leaves the node, what is known of the output is then the
hint met with what was known, and, whatever is called later, a hint for this node that
contradicts the first one fails for as long as an edge leaves it. If none does, any hint
is accepted and changes nothing, and nothing is known of the output. -/
theorem hint_effective {model : Model} {output : Int} {limit : Option Nat} {start : Analysis}
    (hstart : Analysis.start model output limit = .ok start) (xs : List Call) {i : Nat} {y : TensorFact}
    (hy : (start.afterCalls xs).outputFact i = .ok y) (f : TensorFact) :
    ((∃ e, (start.afterCalls xs).hint i f = .error e) ↔ ¬ f.Meets y) ∧
    (∀ e, (start.afterCalls xs).hint i f = .error e → e.IsClash) ∧
    ∀ b, (start.afterCalls xs).hint i f = .ok b →
      b = { start.afterCalls xs with edges := b.edges } ∧ SameGraph b (start.afterCalls xs) ∧
      (∀ (j : Nat) (e : Edge), (start.afterCalls xs).edges[j]? = some e → e.source ≠ some i →
        b.edges[j]? = some e) ∧
      ((start.afterCalls xs).edgesFrom i ≠ [] →
        (∃ z m, b.outputFact i = .ok z ∧ f.meet y = .ok m ∧ SameFact z m) ∧
        ∀ (ys : List Call) (k : Nat) (g : TensorFact), b.nodeAfterCalls ys i = some k →
          (b.afterCalls ys).edgesFrom k ≠ [] → ¬ f.Meets g →
          ∃ e, (b.afterCalls ys).hint k g = .error e ∧ e.IsClash) ∧
      ((start.afterCalls xs).edgesFrom i = [] → b = start.afterCalls xs ∧ y = .unknown) := by
  have hw : WellFormed (start.afterCalls xs) := afterCalls_wellFormed (start_spec hstart).1 xs
  generalize start.afterCalls xs = a at hw hy ⊢
  have hl := hw.toLinked
  have hi := lt_of_outputFact hy
  refine ⟨?_, fun e he => hint_error hl hi he, fun b hb => ?_⟩
  · rw [← exists_hint_iff_meets hl hi hy]
    cases a.hint i f <;> simp
  obtain ⟨hrest, hsame, hothers⟩ := hint_frame hl hb
  refine ⟨hrest, hsame, hothers, fun hne => ⟨outputFact_of_hint hl hi hy hne hb, ?_⟩, fun hnone => ?_⟩
  · intro ys k g hk hleft hfg
    have hwb := hint_wellFormed hw hb
    obtain ⟨-, j, hj, htold⟩ := hint_lower hl hb
    obtain rfl : i = j := Int.natCast_inj.1 (nodeIndex_eq_ok_iff.1 hj).1
    exact exists_hint_clash (afterCalls_wellFormed hwb ys).toLinked (told_afterCalls hwb hk htold) hleft hfg
  · obtain ⟨hstay, hunknown⟩ := hint_of_no_edges (f := f) hl hi hnone
    cases hb.symm.trans hstay
    cases hy.symm.trans hunknown
    exact ⟨rfl, rfl⟩

/-- Of an input that is added to its positive part, what is known on the two edges out of
it differs after a run: that it is a pair is known towards the positive part alone. A
hint that it has floating-point elements fails, one that it is a list is met with both. -/
theorem fork_hint : ∃ a, start (fork .unknown) 2 none = .ok a ∧
    (a.afterCalls [.act (.hint 1 integerPairs), .runWithin 3]).outputFact 0 = .ok integerPairs ∧
    (∃ e, (a.afterCalls [.act (.hint 1 integerPairs), .runWithin 3]).hint 0
      (.ofShape (some (.elem (.float .w32))) .unknown) = .error e ∧ e.IsClash) ∧
    ∃ b z m, (a.afterCalls [.act (.hint 1 integerPairs), .runWithin 3]).hint 0
        (.ofShape none (.closed [.any])) = .ok b ∧
      b.outputFact 0 = .ok z ∧ (TensorFact.ofShape none (.closed [.any])).meet integerPairs = .ok m ∧
      SameFact z m := by
  obtain ⟨a, hstart, hy, hne, b, hb⟩ : ∃ a, start (fork .unknown) 2 none = .ok a ∧
      (a.afterCalls [.act (.hint 1 integerPairs), .runWithin 3]).outputFact 0 = .ok integerPairs ∧
      (a.afterCalls [.act (.hint 1 integerPairs), .runWithin 3]).edgesFrom 0 ≠ [] ∧
      ∃ b, (a.afterCalls [.act (.hint 1 integerPairs), .runWithin 3]).hint 0
        (.ofShape none (.closed [.any])) = .ok b :=
    ⟨_, rfl, rfl, List.cons_ne_nil _ _, _, rfl⟩
  obtain ⟨hiff, hclash, -⟩ := hint_effective hstart _ hy (.ofShape (some (.elem (.float .w32))) .unknown)
  obtain ⟨e, he⟩ := hiff.2 fun ⟨_, h⟩ => nomatch h
  obtain ⟨-, -, haccepted⟩ := hint_effective hstart _ hy (.ofShape none (.closed [.any]))
  obtain ⟨-, -, -, htaken, -⟩ := haccepted b hb
  obtain ⟨z, m, hz, hm, hsame⟩ := (htaken hne).1
  exact ⟨a, hstart, hy, ⟨e, he, hclash e he⟩, b, z, m, hb, hz, hm, hsame⟩

/-- An input and its positive part. -/
def chain : Model := ⟨[
  ⟨0, "x", "Placeholder", .placeholder .unknown, []⟩,
  ⟨1, "y", "Relu", .relu, [⟨0, none⟩]⟩]⟩

/-- Two hints that contradict each other, for a node that no edge leaves, are both
accepted, and afterwards nothing is known of its output. -/
theorem sink_forgets : ∃ a b c, start chain 0 none = .ok a ∧ a.outputFact 1 = .ok .unknown ∧
    a.hint 1 (.ofShape (some (.elem (.float .w32))) .unknown) = .ok b ∧ b.outputFact 1 = .ok .unknown ∧
    b.hint 1 (.ofShape (some (.elem (.int .w32))) .unknown) = .ok c ∧
    ¬ (TensorFact.ofShape (some (.elem (.float .w32))) .unknown).Meets (.ofShape (some (.elem (.int .w32))) .unknown) :=
  ⟨_, _, _, rfl, rfl, rfl, rfl, rfl, fun ⟨_, h⟩ => nomatch h⟩

end Analysis

end EdgeFacts
