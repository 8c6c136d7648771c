/-
# A run comes to the greatest stable facts

Facts are stable if no planned node has anything to add to them. Stable facts
below those at the start of a run stay below them through every visit, and they
keep every visit from failing (`Analysis.runInvariant_above`). So a run without
a limit comes to the greatest stable facts, and fails only if there are none;
and so does every fair order of visits: it makes the facts more precise until
nothing changes, and then they are stable (`Analysis.visits_settle`).

Key definitions: `Analysis.visits`, `Analysis.Fair`, `Analysis.SameFacts`.
Key theorems: `Analysis.run_below`, `Analysis.visits_settle`, `Analysis.run_greatest`.
-/
import Mathlib.Order.Lattice.Nat
import EdgeFacts.Proofs.Reachable
import EdgeFacts.Proofs.Sound

namespace EdgeFacts.Analysis

/-- Whether two analyses know the same on every edge. -/
def SameFacts (a b : Analysis) : Prop :=
  ∀ (j : Nat) (e d : Edge), a.edges[j]? = some e → b.edges[j]? = some d → e.fact.same d.fact = true

theorem Refines.sameFacts {a b : Analysis} (h : Refines a b) (k : Refines b a) : SameFacts a b :=
  fun j e d he hd => TensorFact.same_iff_refines.2 ⟨h.facts j e d he hd, k.facts j d e hd he⟩

/-! ### Runs above stable facts -/

theorem runInvariant_above {b : Analysis} (hlib : OfLibrary b) (hb : b.Stable) : RunInvariant (Refines b) where
  movedTo p s f h := h.of_movedTo p s f
  visit {a a' i changed} _ h hi hv := by
    have hop : ∀ n, a.nodes[i]? = some n → n.op.IsLibrary := fun n hn =>
      hlib n (h.nodes ▸ List.mem_of_getElem? hn)
    obtain ⟨c, a'', hv', hbelow⟩ := visit_of_stableAt hop h (hb i (h.plan ▸ hi))
    cases hv.symm.trans hv'
    exact hbelow

theorem exists_visit_above {a b : Analysis} {i : Nat} (hlib : OfLibrary b) (hb : b.Stable) (h : Refines b a)
    (hi : i ∈ a.plan) : ∃ changed a', a.visit i = .ok (changed, a') := by
  have hop : ∀ n, a.nodes[i]? = some n → n.op.IsLibrary := fun n hn =>
    hlib n (h.nodes ▸ List.mem_of_getElem? hn)
  obtain ⟨c, a', hv, -⟩ := visit_of_stableAt hop h (hb i (h.plan ▸ hi))
  exact ⟨c, a', hv⟩

theorem OfLibrary.of_refines {a b : Analysis} (hlib : OfLibrary a) (h : Refines b a) : OfLibrary b := by
  rw [OfLibrary, h.nodes]
  exact hlib

theorem run_below {a r : Analysis} (hw : WellFormed a) (hlib : OfLibrary a) (hr : a.run = (.ok (), r)) :
    r.Stable ∧ Refines r a ∧ ∀ b : Analysis, b.Stable → Refines b a → Refines b r := by
  have hdown := (run_refines hw).2
  rw [hr] at hdown
  refine ⟨stable_of_run hr, hdown, fun b hb hba => ?_⟩
  have habove := ((runInvariant_above (hlib.of_refines hba) hb).run hw hba).2
  rwa [hr] at habove

/-- A run without a limit that fails started above no stable facts. -/
theorem not_stable_of_run {a r : Analysis} {e : Failure} (hw : WellFormed a) (hlib : OfLibrary a)
    (hlimit : a.roundLimit = none) (hr : a.run = (.error e, r)) (b : Analysis) (h : Refines b a) : ¬ b.Stable := by
  intro hb
  have hlibb := hlib.of_refines h
  obtain ⟨r', hr'⟩ := exists_run (P := Refines b) (fun _ hba hi => exists_visit_above hlibb hb hba hi)
    (runInvariant_above hlibb hb) hw h hlib hlimit
  cases hr.symm.trans hr'

/-! ### Other orders -/

/-- The analysis after visits in some order, as many as given, if all succeed. -/
def visits (order : Nat → Nat) : Nat → Analysis → Except Failure Analysis
  | 0, a => .ok a
  | k + 1, a => do
    let b ← visits order k a
    let c ← b.visit (order k)
    return c.2

/-- Whether an order visits planned nodes, each of them again and again. -/
structure Fair (plan : List Nat) (order : Nat → Nat) : Prop where
  planned : ∀ k, order k ∈ plan
  again : ∀ i ∈ plan, ∀ k, ∃ m, k ≤ m ∧ order m = i

theorem visits_succ {order : Nat → Nat} {k : Nat} {a c : Analysis} :
    visits order (k + 1) a = .ok c ↔
      ∃ b changed, visits order k a = .ok b ∧ b.visit (order k) = .ok (changed, c) := by
  simp only [visits, bind_eq_ok_iff, pure_eq_ok, Except.ok.injEq, Prod.exists]
  constructor
  · rintro ⟨b, hb, changed, c', hv, rfl⟩
    exact ⟨b, changed, hb, hv⟩
  · rintro ⟨b, changed, hb, hv⟩
    exact ⟨b, hb, changed, c, hv, rfl⟩

/-- What a run preserves, visits in any order of planned nodes preserve. -/
theorem RunInvariant.visits {P : Analysis → Prop} (hP : RunInvariant P) {order : Nat → Nat} {a : Analysis}
    (hw : WellFormed a) (h : P a) (horder : ∀ k, order k ∈ a.plan) : ∀ {k : Nat} {c : Analysis},
    Analysis.visits order k a = .ok c → WellFormed c ∧ P c ∧ Refines c a
  | 0, c, hc => by
    cases hc
    exact ⟨hw, h, .refl a⟩
  | k + 1, c, hc => by
    obtain ⟨b, changed, hb, hv⟩ := visits_succ.1 hc
    obtain ⟨hwb, hPb, hba⟩ := hP.visits hw h horder hb
    have hi : order k ∈ b.plan := hba.plan ▸ horder k
    exact ⟨visit_wellFormed hwb hv, hP.visit hwb hPb hi hv, (visit_refines hv).trans hba⟩

theorem exists_settled {f : Nat → Nat} {bound : Nat} (hle : ∀ k, f k ≤ f (k + 1)) (hbound : ∀ k, f k ≤ bound) :
    ∃ K, ∀ k, K ≤ k → f k = f K := by
  have hmono : Monotone f := monotone_nat_of_le_succ hle
  have hbdd : BddAbove (Set.range f) := ⟨bound, by rintro _ ⟨k, rfl⟩; exact hbound k⟩
  obtain ⟨K, hK⟩ := Nat.sSup_mem (Set.range_nonempty f) hbdd
  refine ⟨K, fun k hk => Nat.le_antisymm ?_ (hmono hk)⟩
  rw [hK]
  exact le_csSup hbdd ⟨k, rfl⟩

/-- **Fair visits settle.** If none of them fails, they come to stable facts. -/
theorem visits_settle {a : Analysis} {order : Nat → Nat} (hw : WellFormed a) (hlib : OfLibrary a)
    (hfair : Fair a.plan order) (hok : ∀ k, ∃ c, visits order k a = .ok c) :
    ∃ K c, c.Stable ∧ Refines c a ∧ ∀ k, K ≤ k → visits order k a = .ok c := by
  choose c hc using hok
  have hI := runInvariant_bounded a.rankBound a.edges.length
  have hall (k : Nat) := hI.visits hw ⟨hlib, rankAtMost_rankBound a, rfl⟩ hfair.planned (hc k)
  have hnext (k : Nat) : ∃ changed, (c k).visit (order k) = .ok (changed, c (k + 1)) := by
    obtain ⟨b, changed, hb, hv⟩ := visits_succ.1 (hc (k + 1))
    cases (hc k).symm.trans hb
    exact ⟨changed, hv⟩
  have hgrow (k : Nat) : (c k).precision ≤ (c (k + 1)).precision := by
    obtain ⟨changed, hv⟩ := hnext k
    exact (visit_refines hv).precision_le
  have hbound (k : Nat) : (c k).precision ≤ a.edges.length * (2 * a.rankBound + 3) := by
    have hb := (hall k).2.1
    have := precision_le hb.rank
    rwa [hb.length_edges] at this
  obtain ⟨K, hK⟩ := exists_settled hgrow hbound
  have hstill (k : Nat) (hk : K ≤ k) : (c k).visit (order k) = .ok (false, c (k + 1)) := by
    obtain ⟨changed, hv⟩ := hnext k
    cases changed with
    | false => exact hv
    | true =>
      have hplan : order k ∈ (c k).plan := (hall k).2.2.plan ▸ hfair.planned k
      have hlt := precision_lt_of_visit (hall k).1.toLinked (hall k).1.toPlanned hplan hv
      rw [hK k hk, hK (k + 1) (Nat.le_succ_of_le hk)] at hlt
      exact absurd hlt (Nat.lt_irrefl _)
  have hconst (k : Nat) (hk : K ≤ k) : c k = c K := by
    induction k, hk using Nat.le_induction with
    | base => rfl
    | succ k hk ih => exact (visit_unchanged (hstill k hk)).trans ih
  refine ⟨K, c K, fun i hi => ?_, (hall K).2.2, fun k hk => hconst k hk ▸ hc k⟩
  obtain ⟨m, hm, rfl⟩ := hfair.again i ((hall K).2.2.plan ▸ hi) K
  have hv := hstill m hm
  rw [hconst m hm] at hv
  exact ⟨_, hv⟩

theorem exists_visits {a b : Analysis} {order : Nat → Nat} (hw : WellFormed a) (hlib : OfLibrary a)
    (hfair : Fair a.plan order) (hb : b.Stable) (h : Refines b a) :
    ∀ k, ∃ c, visits order k a = .ok c
  | 0 => ⟨a, rfl⟩
  | k + 1 => by
    obtain ⟨c, hc⟩ := exists_visits hw hlib hfair hb h k
    have hlibb := hlib.of_refines h
    obtain ⟨-, hbc, hca⟩ := (runInvariant_above hlibb hb).visits hw h hfair.planned hc
    obtain ⟨changed, d, hv⟩ := exists_visit_above hlibb hb hbc (hca.plan ▸ hfair.planned k)
    exact ⟨d, visits_succ.2 ⟨c, changed, hc, hv⟩⟩

/-- **A run comes to the greatest stable facts, whatever the order.** Take an
analysis of a model of operators of the library without a limit, after any
actions. If a run settles, its facts are stable, refine those at its start, and
are refined by all stable facts that do; any fair order of visits comes to the
same facts. If it fails, no stable facts refine those at its start, and any fair
order of visits fails. -/
theorem run_greatest {model : Model} {output : Int} {start : Analysis}
    (hlib : ∀ n ∈ model.nodes, n.op.IsLibrary) (hstart : Analysis.start model output none = .ok start)
    (xs : List Action) :
    (∀ r, (start.afterAll xs).run = (.ok (), r) →
      r.Stable ∧ Refines r (start.afterAll xs) ∧
      (∀ b : Analysis, b.Stable → Refines b (start.afterAll xs) → Refines b r) ∧
      ∀ order, Fair (start.afterAll xs).plan order →
        ∃ K c, SameFacts c r ∧ ∀ k, K ≤ k → visits order k (start.afterAll xs) = .ok c) ∧
    ∀ e r, (start.afterAll xs).run = (.error e, r) →
      (∀ b : Analysis, Refines b (start.afterAll xs) → ¬ b.Stable) ∧
      ∀ order, Fair (start.afterAll xs).plan order →
        ∃ K failure, visits order K (start.afterAll xs) = .error failure := by
  obtain ⟨hw₀, -, -, hnodes, -, hlimit⟩ := start_spec hstart
  have hlib₀ : OfLibrary start := by
    rw [OfLibrary, hnodes]
    exact hlib
  obtain ⟨hw, hlib', hl⟩ := (graphInvariant_library none).afterAll hw₀ ⟨hlib₀, hlimit⟩ xs
  generalize start.afterAll xs = a at hw hlib' hl ⊢
  refine ⟨fun r hr => ?_, fun e r hr => ?_⟩
  · obtain ⟨hstable, hdown, hgreatest⟩ := run_below hw hlib' hr
    refine ⟨hstable, hdown, hgreatest, fun order hfair => ?_⟩
    obtain ⟨K, c, hc, hca, hk⟩ :=
      visits_settle hw hlib' hfair (exists_visits hw hlib' hfair hstable hdown)
    have habove := (runInvariant_above (hlib'.of_refines hdown) hstable).visits hw hdown hfair.planned
      (hk K (Nat.le_refl K))
    exact ⟨K, c, (hgreatest c hc hca).sameFacts habove.2.1, hk⟩
  · have hnone := not_stable_of_run hw hlib' hl hr
    refine ⟨hnone, fun order hfair => ?_⟩
    by_contra hok
    simp only [not_exists] at hok
    have hall (k : Nat) : ∃ c, visits order k a = .ok c := by
      cases hc : visits order k a with
      | ok c => exact ⟨c, rfl⟩
      | error e => exact absurd hc (hok k e)
    obtain ⟨K, c, hc, hca, -⟩ := visits_settle hw hlib' hfair hall
    exact hnone c hca hc

/-- After a step towards the positive part of two integers, a run settles on the
greatest stable facts, and visiting the two nodes in turns comes to them too. -/
theorem positivePart_greatest : ∃ a, start positivePart 1 none = .ok a ∧
    ∃ r, (a.afterAll [.step]).run = (.ok (), r) ∧ r.Stable ∧
      ∃ K c, SameFacts c r ∧ ∀ k, K ≤ k → visits (· % 2) k (a.afterAll [.step]) = .ok c := by
  have hstart : start positivePart 1 none = .ok _ := rfl
  obtain ⟨hok, -⟩ := run_greatest positivePart_library hstart [.step]
  refine ⟨_, hstart, ?_⟩
  generalize hr : Analysis.run _ = x at hok ⊢
  have hfirst : x.1 = .ok () := by
    rw [← hr]
    rfl
  obtain ⟨y, r⟩ := x
  cases hfirst
  obtain ⟨hstable, -, -, horder⟩ := hok r rfl
  have hplan : ∀ {i : Nat}, i ∈ [0, 1] ↔ i < 2 := by simp; omega
  refine ⟨r, rfl, hstable, horder (· % 2) ⟨fun k => ?_, fun i hi k => ?_⟩⟩
  · exact hplan.2 (Nat.mod_lt k (by decide))
  · have hlt : i < 2 := hplan.1 hi
    exact ⟨2 * k + i, by omega, by omega⟩

end EdgeFacts.Analysis
