/-
# The order and the time of hints do not matter

A hint meets its fact with the facts out of its node, so it comes to the greatest
facts below those that were known which say what it tells (`Analysis.hint_lower`,
`Analysis.hint_greatest`), and a run without a limit comes to the greatest stable
ones. A schedule of hints and runs that ends with a run therefore comes to the
greatest stable facts that say what all of its hints tell, and it fails where
there are none. Neither depends on the order of the hints or on what is run
between them (`Analysis.follow_perm`).

Key definitions: `Analysis.follow`, `Analysis.Told`, `Action.Scheduled`.
Key theorems: `Analysis.follow_lower`, `Analysis.follow_greatest`, `Analysis.follow_perm`.
-/
import EdgeFacts.Proofs.Forward
import EdgeFacts.Proofs.Greatest

namespace EdgeFacts

/-- The hint that an action is. -/
def Action.hint? : Action → Option (Int × TensorFact)
  | .hint node fact => some (node, fact)
  | _ => none

/-- Whether an action can stand in a schedule: it is a hint or only lets nodes infer. -/
def Action.Scheduled : Action → Prop
  | .hint _ _ => True
  | x => x.LetsInfer

namespace Analysis

/-- The analysis that actions come to, one after the other, or the first failure. -/
def follow (a : Analysis) : List Action → Except Failure Analysis
  | [] => .ok a
  | x :: xs =>
    match a.outcome x with
    | (.ok _, b) => b.follow xs
    | (.error e, _) => .error e

theorem follow_cons_eq_ok_iff {a b : Analysis} {x : Action} {xs : List Action} :
    a.follow (x :: xs) = .ok b ↔ ∃ c, a.outcome x = (.ok (), c) ∧ c.follow xs = .ok b := by
  rw [follow]
  rcases a.outcome x with ⟨e | _, c⟩
  · simp
  · simp

/-! ### What a hint comes to -/

/-- Whether what is known on all edges out of a node says what a hint tells. -/
def Told (a : Analysis) (hint : Int × TensorFact) : Prop :=
  ∃ i, a.nodeIndex hint.1 = .ok i ∧ ∀ e ∈ a.edgesFrom i, e.fact.Refines hint.2

variable {a b s : Analysis} {node : Int} {f : TensorFact}

theorem SameGraph.nodeIndex_eq (h : SameGraph b a) : b.nodeIndex node = a.nodeIndex node := by
  rw [nodeIndex, nodeIndex, h.nodes]

theorem Refines.told (h : Refines b a) (hl : Linked a) {k : Nat}
    (htold : ∀ e ∈ a.edgesFrom k, e.fact.Refines f) : ∀ d ∈ b.edgesFrom k, d.fact.Refines f := by
  intro d hd
  obtain ⟨e, he, hde⟩ := h.exists_edgeFrom hl hd
  exact (h.facts e.id d e hde (hl.getElem?_id (mem_edgesFrom.1 he).1)).trans (htold e he)

theorem Told.of_refines {hint : Int × TensorFact} (h : a.Told hint) (hl : Linked a) (hba : Refines b a) :
    b.Told hint := by
  obtain ⟨i, hi, hall⟩ := h
  exact ⟨i, hba.nodeIndex_eq.trans hi, hba.told hl hall⟩

/-- A hint refines what is known, and after it this says what it tells. -/
theorem hint_lower (hl : Linked a) (h : a.hint node f = .ok b) : Refines b a ∧ b.Told (node, f) := by
  constructor
  · obtain ⟨i, js, r, -, -, hr, rfl⟩ := hint_eq_ok_iff.1 h
    exact commit_refines (combined_refines_edge hr)
  · obtain ⟨i, hi, hsame, hmet, -⟩ := hint_edges hl h
    refine ⟨i, hsame.nodeIndex_eq.trans hi, fun d hd => ?_⟩
    obtain ⟨e, he, hde⟩ := hsame.exists_edgeFrom hl hd
    obtain ⟨m, hm, hedge⟩ := hmet e he
    have hle := (TensorFact.isMeet.lower hm).1
    cases hde.symm.trans hedge
    split
    · rename_i hs
      exact (TensorFact.same_iff_refines.1 hs).2.trans hle
    · exact hle

theorem hint_greatest (hl : Linked a) (h : Refines s a) (ht : s.Told (node, f)) :
    ∃ b, a.hint node f = .ok b ∧ Refines s b := by
  obtain ⟨i, hi, hall⟩ := ht
  have hindex := h.nodeIndex_eq.symm.trans hi
  have hlt := (nodeIndex_eq_ok_iff.1 hindex).2
  obtain ⟨r, hr⟩ : ∃ r, List.Forall₂ (fun (e : Edge) (p : Nat × TensorFact) => Combined a (f, e.id) p ∧
      ∀ d, s.edges[p.1]? = some d → d.fact.Refines p.2) (a.edgesFrom i) r := by
    refine exists_forall₂_of_forall fun e he => ?_
    obtain ⟨hmem, hs⟩ := mem_edgesFrom.1 he
    have hget := hl.getElem?_id hmem
    obtain ⟨d, hd, hends, hle⟩ := h.exists_finer hget
    have hsd : d.source = some i := (Edge.ends_eq_iff.1 hends).2.1.trans hs
    have hdf := hall d (mem_edgesFrom.2 ⟨List.mem_of_getElem? hd, hsd⟩)
    obtain ⟨m, hm, hdm⟩ := TensorFact.isMeet.greatest hdf hle
    refine ⟨(e.id, m), ⟨rfl, e.fact, factOf_of_getElem? hget, hm⟩, fun d' hd' => ?_⟩
    cases hd.symm.trans hd'
    exact hdm
  have hcombined : List.Forall₂ (Combined a)
      ((((a.edgesFrom i).map Edge.id).map fun _ => f).zip ((a.edgesFrom i).map Edge.id)) r := by
    rw [zip_const, List.map_map, List.forall₂_map_left_iff]
    exact hr.imp fun _ _ h => h.1
  exact ⟨_, hint_eq_ok_iff.2 ⟨i, _, r, hindex, hl.outgoing_getElem? hlt, hcombined, rfl⟩,
    refines_commit h (forall_of_forall₂ hr fun _ _ h => h.2)⟩

/-! ### What a schedule comes to -/

theorem outcome_hint_eq_ok_iff : a.outcome (.hint node f) = (.ok (), b) ↔ a.hint node f = .ok b := by
  have hout : a.outcome (.hint node f) = a.orStay (a.hint node f) := rfl
  rw [hout]
  cases a.hint node f with
  | ok c => simp [orStay]
  | error e => simp [orStay]

/-- What an action of a schedule comes to refines what was known and says what it
tells if it is a hint. -/
theorem outcome_lower {x : Action} (hw : WellFormed a) (hx : x.Scheduled) (h : a.outcome x = (.ok (), b)) :
    WellFormed b ∧ Refines b a ∧ ∀ t, x.hint? = some t → b.Told t := by
  have hinfer (hi : x.LetsInfer) (hno : x.hint? = none) :
      WellFormed b ∧ Refines b a ∧ ∀ t, x.hint? = some t → b.Told t := by
    have hafter := (runInvariant_refines a).after hw (.refl a) hi
    rw [after, h] at hafter
    refine ⟨hafter.1, hafter.2, fun t ht => ?_⟩
    rw [hno] at ht
    cases ht
  cases x with
  | hint node f =>
    have hhint := outcome_hint_eq_ok_iff.1 h
    obtain ⟨hba, htold⟩ := hint_lower hw.toLinked hhint
    exact ⟨hint_wellFormed hw hhint, hba, fun t ht => Option.some.inj ht ▸ htold⟩
  | _ => exact hinfer hx rfl

theorem outcome_greatest {x : Action} (hw : WellFormed a) (hlib : OfLibrary a) (hlimit : a.roundLimit = none)
    (hs : s.Stable) (hsa : Refines s a) (hx : x.Scheduled) (ht : ∀ t, x.hint? = some t → s.Told t) :
    ∃ b, a.outcome x = (.ok (), b) ∧ Refines s b := by
  have hlibs := hlib.of_refines hsa
  have hI := runInvariant_above hlibs hs
  have hvisit {a : Analysis} {i : Nat} (_ : WellFormed a) (h : Refines s a) (hi : i ∈ a.plan) :
      ∃ changed a', a.visit i = .ok (changed, a') := exists_visit_above hlibs hs h hi
  have hinfer (hi : x.LetsInfer) (hok : ∃ b, a.outcome x = (.ok (), b)) :
      ∃ b, a.outcome x = (.ok (), b) ∧ Refines s b := by
    obtain ⟨b, hb⟩ := hok
    have hafter := (hI.after hw hsa hi).2
    rw [after, hb] at hafter
    exact ⟨b, hb, hafter⟩
  cases x with
  | hint node f =>
    obtain ⟨b, hb, hsb⟩ := hint_greatest hw.toLinked hsa (ht _ rfl)
    exact ⟨b, outcome_hint_eq_ok_iff.2 hb, hsb⟩
  | step =>
    obtain ⟨changed, b, hb⟩ := exists_step hvisit hw hsa
    exact hinfer hx ⟨b, by simp only [outcome, hb, Except.map, orStay]⟩
  | round =>
    obtain ⟨changed, b, hb⟩ := exists_round hvisit hI hw hsa
    exact hinfer hx ⟨b, by simp only [outcome, hb, withoutResult, Except.map]⟩
  | run => exact hinfer hx (exists_run hvisit hI hw hsa hlib hlimit)
  | _ => exact hx.elim

/-- What a schedule that succeeds comes to refines what was known and says what its
hints tell. -/
theorem follow_lower : ∀ {xs : List Action} {a b : Analysis}, WellFormed a → (∀ x ∈ xs, x.Scheduled) →
    a.follow xs = .ok b → WellFormed b ∧ Refines b a ∧ ∀ t ∈ xs.filterMap Action.hint?, b.Told t
  | [], a, b, hw, _, hb => by
    cases hb
    exact ⟨hw, .refl a, fun t ht => absurd ht List.not_mem_nil⟩
  | x :: xs, a, b, hw, hx, hb => by
    obtain ⟨c, hc, hb⟩ := follow_cons_eq_ok_iff.1 hb
    obtain ⟨hwc, hca, htold⟩ := outcome_lower hw (hx x (.head _)) hc
    obtain ⟨hwb, hbc, hall⟩ := follow_lower hwc (fun y hy => hx y (.tail _ hy)) hb
    refine ⟨hwb, hbc.trans hca, fun t ht => ?_⟩
    obtain ⟨y, hy, hyt⟩ := List.mem_filterMap.1 ht
    rcases List.mem_cons.1 hy with rfl | hy
    · exact (htold t hyt).of_refines hwc.toLinked hbc
    · exact hall t (List.mem_filterMap.2 ⟨y, hy, hyt⟩)

theorem follow_greatest : ∀ {xs : List Action} {a : Analysis}, WellFormed a → OfLibrary a →
    a.roundLimit = none → s.Stable → Refines s a → (∀ x ∈ xs, x.Scheduled) →
    (∀ t ∈ xs.filterMap Action.hint?, s.Told t) → ∃ b, a.follow xs = .ok b ∧ Refines s b
  | [], a, _, _, _, _, hsa, _, _ => ⟨a, rfl, hsa⟩
  | x :: xs, a, hw, hlib, hlimit, hs, hsa, hx, ht => by
    obtain ⟨c, hc, hsc⟩ := outcome_greatest hw hlib hlimit hs hsa (hx x (.head _)) fun t hxt =>
      ht t (List.mem_filterMap.2 ⟨x, .head _, hxt⟩)
    obtain ⟨hwc, hca, -⟩ := outcome_lower hw (hx x (.head _)) hc
    obtain ⟨b, hb, hsb⟩ := follow_greatest hwc (hlib.of_refines hca) (hca.roundLimit.trans hlimit) hs hsc
      (fun y hy => hx y (.tail _ hy)) fun t htt => by
        obtain ⟨y, hy, hyt⟩ := List.mem_filterMap.1 htt
        exact ht t (List.mem_filterMap.2 ⟨y, .tail _ hy, hyt⟩)
    exact ⟨b, follow_cons_eq_ok_iff.2 ⟨c, hc, hb⟩, hsb⟩

theorem stable_of_follow : ∀ {xs : List Action} {a b : Analysis},
    a.follow (xs ++ [.run]) = .ok b → b.Stable
  | [], a, b, hb => by
    obtain ⟨c, hc, hb⟩ := follow_cons_eq_ok_iff.1 hb
    cases hb
    exact stable_of_run hc
  | x :: xs, a, b, hb => by
    obtain ⟨c, -, hb⟩ := follow_cons_eq_ok_iff.1 hb
    exact stable_of_follow hb

/-- **The order and the time of hints do not matter.** Take an analysis of a model of
operators of the library without a limit, after any actions. Take two schedules of
hints, steps, rounds and runs with the same hints in some order, and a run at the
end of each. Either both fail somewhere, or both succeed and come to the same facts
on all edges. -/
theorem follow_perm {model : Model} {output : Int} {start : Analysis}
    (hlib : ∀ n ∈ model.nodes, n.op.IsLibrary) (hstart : Analysis.start model output none = .ok start)
    (zs : List Action) {xs ys : List Action} (hxs : ∀ x ∈ xs, x.Scheduled) (hys : ∀ y ∈ ys, y.Scheduled)
    (hhints : (xs.filterMap Action.hint?).Perm (ys.filterMap Action.hint?)) :
    ((∃ e, (start.afterAll zs).follow (xs ++ [.run]) = .error e) ∧
      ∃ e, (start.afterAll zs).follow (ys ++ [.run]) = .error e) ∨
    ∃ b c, (start.afterAll zs).follow (xs ++ [.run]) = .ok b ∧
      (start.afterAll zs).follow (ys ++ [.run]) = .ok c ∧ SameGraph b c ∧ SameFacts b c := by
  obtain ⟨hw₀, -, -, hnodes, -, hlimit₀⟩ := start_spec hstart
  have hlib₀ : OfLibrary start := by
    rw [OfLibrary, hnodes]
    exact hlib
  obtain ⟨hw, hlib', hlimit⟩ := (graphInvariant_library none).afterAll hw₀ ⟨hlib₀, hlimit₀⟩ zs
  generalize start.afterAll zs = a at hw hlib' hlimit ⊢
  have hrun {us : List Action} (hus : ∀ x ∈ us, x.Scheduled) : ∀ x ∈ us ++ [.run], x.Scheduled := by
    intro x hx
    rcases List.mem_append.1 hx with hx | hx
    · exact hus x hx
    · rw [List.mem_singleton.1 hx]
      trivial
  have hhints_run (us : List Action) :
      (us ++ [Action.run]).filterMap Action.hint? = us.filterMap Action.hint? := by
    rw [List.filterMap_append]
    exact List.append_nil _
  -- what one schedule comes to is stable and says what the hints of the other tell
  have hother {us vs : List Action} {b : Analysis} (hus : ∀ x ∈ us, x.Scheduled) (hvs : ∀ x ∈ vs, x.Scheduled)
      (hsub : vs.filterMap Action.hint? ⊆ us.filterMap Action.hint?) (hb : a.follow (us ++ [.run]) = .ok b) :
      ∃ c, a.follow (vs ++ [.run]) = .ok c ∧ Refines b c := by
    obtain ⟨-, hba, htold⟩ := follow_lower hw (hrun hus) hb
    rw [hhints_run] at htold
    refine follow_greatest hw hlib' hlimit (stable_of_follow hb) hba (hrun hvs) fun t ht => ?_
    rw [hhints_run] at ht
    exact htold t (hsub ht)
  cases hb : a.follow (xs ++ [.run]) with
  | error e =>
    refine .inl ⟨⟨e, rfl⟩, ?_⟩
    cases hc : a.follow (ys ++ [.run]) with
    | error e' => exact ⟨e', rfl⟩
    | ok c =>
      obtain ⟨b, hb', -⟩ := hother hys hxs hhints.subset hc
      cases hb.symm.trans hb'
  | ok b =>
    obtain ⟨c, hc, hbc⟩ := hother hxs hys hhints.symm.subset hb
    obtain ⟨b', hb', hcb⟩ := hother hys hxs hhints.subset hc
    cases hb.symm.trans hb'
    exact .inr ⟨b, c, rfl, hc, hbc.toSameGraph, hbc.sameFacts hcb⟩

/-- Towards the positive part of two integers, a hint that gives them and one about
the result come to the same facts, also the other way round and with a run between. -/
theorem positivePart_reordered : ∃ a, start positivePart 1 none = .ok a ∧
    ∃ b c, a.follow [.hint 0 (.ofTensor (integerPair 3 (-1))), .hint 1 integerPairs, .run] = .ok b ∧
      a.follow [.hint 1 integerPairs, .run, .hint 0 (.ofTensor (integerPair 3 (-1))), .run] = .ok c ∧
      SameFacts b c := by
  have hruns : (start positivePart 1 none >>= fun a => a.follow
      [.hint 0 (.ofTensor (integerPair 3 (-1))), .hint 1 integerPairs, .run]).isOk = true := by
    decide +kernel
  obtain ⟨a, hstart⟩ : ∃ a, start positivePart 1 none = .ok a := ⟨_, rfl⟩
  rw [hstart] at hruns
  have hxs : ∀ x ∈ [Action.hint 0 (.ofTensor (integerPair 3 (-1))), .hint 1 integerPairs], x.Scheduled := by
    simp [Action.Scheduled]
  have hys : ∀ y ∈ [Action.hint 1 integerPairs, .run, .hint 0 (.ofTensor (integerPair 3 (-1)))],
      y.Scheduled := by
    simp [Action.Scheduled, Action.LetsInfer]
  rcases follow_perm positivePart_library hstart [] hxs hys (.swap ..) with ⟨⟨e, he⟩, -⟩ | ⟨b, c, hb, hc, -, hsame⟩
  · have hfails : (Except.ok a >>= fun a => a.follow
        [.hint 0 (.ofTensor (integerPair 3 (-1))), .hint 1 integerPairs, .run]) = .error e := he
    rw [hfails] at hruns
    cases hruns
  · exact ⟨a, hstart, b, c, hb, hc, hsame⟩

end Analysis

end EdgeFacts
