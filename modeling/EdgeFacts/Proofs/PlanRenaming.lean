/-
# Plans of renumbered graphs

The plan of an output is found by looking for the first node that is ready, again
and again. If the nodes that the output needs are renumbered in order, with their
producers, then the same nodes are ready at each time, so the plan of the
renumbered graph is the plan with the new numbers (`Plan.ofNodes_renamed`). So a plan
that is up to date is so after pruning (`Analysis.pruned_plan`).

Key definitions: `Plan.Renumbers`.
Key theorems: `Plan.arrange_renamed`, `Plan.ofNodes_renamed`, `Analysis.pruned_plan`.
-/
import Mathlib.Data.List.Find
import Mathlib.Data.List.Sort
import EdgeFacts.Proofs.Prune

namespace EdgeFacts

namespace Plan

theorem map_erase_of_inj {f : Nat → Nat} {i : Nat} : ∀ {xs : List Nat}, (∀ x ∈ xs, f x = f i → x = i) →
    (xs.erase i).map f = (xs.map f).erase (f i)
  | [], _ => rfl
  | x :: xs, h => by
    have tail := map_erase_of_inj fun y hy => h y (.tail _ hy)
    by_cases hx : x = i
    · rw [hx, List.erase_cons_head, List.map_cons, List.erase_cons_head]
    · have hfx : f x ≠ f i := fun heq => hx (h x (.head _) heq)
      rw [List.erase_cons_tail (by simpa using hx), List.map_cons, List.map_cons, tail,
        List.erase_cons_tail (by simpa using hfx)]

section

variable {producers producers' : Nat → List Nat} {f : Nat → Nat} {P : Nat → Prop}
  (hinj : ∀ i j, P i → P j → f i = f j → i = j)
  (hproducers : ∀ i, P i → producers' (f i) = (producers i).map f ∧ ∀ p ∈ producers i, P p)
include hinj hproducers

theorem ready_renamed {i : Nat} {done : List Nat} (hi : P i) (hdone : ∀ j ∈ done, P j) :
    (producers' (f i)).all (done.map f).contains = (producers i).all done.contains := by
  obtain ⟨heq, hp⟩ := hproducers i hi
  rw [heq, Bool.eq_iff_iff, List.all_eq_true, List.all_eq_true]
  simp only [List.contains_iff_mem, List.forall_mem_map]
  refine forall₂_congr fun p hpi => ?_
  constructor
  · intro hmem
    obtain ⟨j, hj, hjp⟩ := List.mem_map.1 hmem
    exact hinj j p (hdone j hj) (hp p hpi) hjp ▸ hj
  · exact List.mem_map_of_mem

/-- **Renamed nodes are arranged in the same order.** -/
theorem arrange_renamed : ∀ {fuel : Nat} {remaining done : List Nat}, (∀ i ∈ remaining, P i) →
    (∀ i ∈ done, P i) → arrange producers' fuel (remaining.map f) (done.map f) =
      ((arrange producers fuel remaining done).1.map f, (arrange producers fuel remaining done).2.map f)
  | 0, _, _, _, _ => rfl
  | fuel + 1, remaining, done, hr, hd => by
    have hfind : (remaining.map f).find? (fun i => (producers' i).all (done.map f).contains) =
        (remaining.find? fun i => (producers i).all done.contains).map f := by
      rw [List.find?_map]
      congr 1
      exact List.find?_congr fun i hi => ready_renamed hinj hproducers (hr i hi) hd
    simp only [arrange, hfind]
    cases hnext : remaining.find? fun i => (producers i).all done.contains with
    | none => rfl
    | some i =>
      have hi := hr i (List.mem_of_find?_eq_some hnext)
      have herase := map_erase_of_inj fun x hx => hinj x i (hr x hx) hi
      have hdone : (done ++ [i]).map f = done.map f ++ [f i] := List.map_append
      simp only [Option.map_some, ← herase, ← hdone]
      refine arrange_renamed (fun j hj => hr j (List.mem_of_mem_erase hj)) fun j hj => ?_
      rcases List.mem_append.1 hj with hj | hj
      · exact hd j hj
      · rw [List.mem_singleton.1 hj]
        exact hi

end

theorem exists_arranged {nodes : List Node} {output : Int} {plan : List Nat}
    (h : ofNodes nodes [output] = .ok plan) : ∃ required : List Nat, required.Pairwise (· < ·) ∧
      (∀ i, i ∈ required ↔ Required nodes output.toNat i) ∧
      arrange (producersAt nodes) required.length required [] = (plan, []) := by
  obtain ⟨-, seen, hmet, harr⟩ := ofNodes_eq_ok_iff.1 h
  exact ⟨inOrder nodes seen, sorted_inOrder nodes seen,
    fun i => hmet.mem_inOrder.trans (hmet.mem_iff i), harr⟩

/-- Whether new numbers keep the planned nodes in order, with their producers. -/
structure Renumbers (f : Nat → Nat) (nodes nodes' : List Node) (plan : List Nat) : Prop where
  mono : ∀ i ∈ plan, ∀ j ∈ plan, i < j → f i < f j
  producers : ∀ i ∈ plan, producersAt nodes' (f i) = (producersAt nodes i).map f
  lt : ∀ i ∈ plan, f i < nodes'.length
  resolved : ∀ i ∈ plan, Resolved nodes' (f i)

namespace Renumbers

variable {f : Nat → Nat} {nodes nodes' : List Node} {plan : List Nat} (h : Renumbers f nodes nodes' plan)
include h

theorem inj (i j : Nat) (hi : i ∈ plan) (hj : j ∈ plan) (heq : f i = f j) : i = j := by
  rcases Nat.lt_trichotomy i j with hlt | rfl | hlt
  · exact absurd heq (Nat.ne_of_lt (h.mono i hi j hj hlt))
  · rfl
  · exact absurd heq.symm (Nat.ne_of_lt (h.mono j hj i hi hlt))

variable {output : Int} (hv : Valid nodes output plan)
include hv

theorem required_iff {k : Nat} : Required nodes' (f output.toNat) k ↔ k ∈ plan.map f := by
  constructor
  · intro hk
    induction hk with
    | output => exact List.mem_map_of_mem ((hv.mem_iff _).2 .output)
    | producer _ hp ih =>
      obtain ⟨i, hi, rfl⟩ := List.mem_map.1 ih
      rw [h.producers i hi] at hp
      obtain ⟨p, hpi, rfl⟩ := List.mem_map.1 hp
      exact List.mem_map_of_mem (hv.ordered.idxOf_lt hi hpi).1
  · intro hk
    obtain ⟨i, hi, rfl⟩ := List.mem_map.1 hk
    have hneeded := (hv.mem_iff i).1 hi
    clear hi hk
    induction hneeded with
    | output => exact .output
    | producer hi hp ih =>
      refine .producer ih ?_
      rw [h.producers _ ((hv.mem_iff _).2 hi)]
      exact List.mem_map_of_mem hp

/-- A renumbered output has a plan: the renumbered plan tells what comes before what. -/
theorem exists_plan : ∃ plan', ofNodes nodes' [(f output.toNat : Int)] = .ok plan' := by
  have hordered : Ordered (producersAt nodes') [] (plan.map f) :=
    hv.ordered.map h.producers fun i hi j hj => h.inj i j hi (by simpa using hj)
  have hlevel : ∀ k, Required nodes' (f output.toNat) k → ∀ p ∈ producersAt nodes' k,
      (plan.map f).idxOf p < (plan.map f).idxOf k :=
    fun k hk p hp => (hordered.idxOf_lt ((h.required_iff hv).1 hk) hp).2
  have hlt := h.lt _ ((hv.mem_iff _).2 .output)
  refine exists_ofNodes ⟨Int.natCast_nonneg _, Int.ofNat_lt.2 hlt⟩ (fun k hk => ?_) hlevel
  obtain ⟨i, hi, rfl⟩ := List.mem_map.1 ((h.required_iff hv).1 hk)
  exact h.resolved i hi

end Renumbers

/-- **The plan of a renumbered graph is the plan, renumbered.** -/
theorem ofNodes_renamed {f : Nat → Nat} {nodes nodes' : List Node} {output : Int} {plan : List Nat}
    (h : Renumbers f nodes nodes' plan) (hplan : ofNodes nodes [output] = .ok plan) :
    ofNodes nodes' [(f output.toNat : Int)] = .ok (plan.map f) := by
  have hv := ofNodes_spec hplan
  obtain ⟨plan', hplan'⟩ := h.exists_plan hv
  obtain ⟨required, hsorted, hmem, harr⟩ := exists_arranged hplan
  obtain ⟨required', hsorted', hmem', harr'⟩ := exists_arranged hplan'
  have hplanned : ∀ i ∈ required, i ∈ plan := fun i hi => (hv.mem_iff i).2 ((hmem i).1 hi)
  have hsortedMap : (required.map f).Pairwise (· < ·) := List.pairwise_map.2 (hsorted.imp_of_mem fun hi hj hlt =>
    h.mono _ (hplanned _ hi) _ (hplanned _ hj) hlt)
  have heq : required' = required.map f := by
    refine hsorted'.eq_of_mem_iff hsortedMap fun k => ?_
    rw [hmem', Int.toNat_natCast, h.required_iff hv, List.mem_map, List.mem_map]
    exact exists_congr fun i => and_congr_left fun _ => (hv.mem_iff i).trans (hmem i).symm
  have hrenamed : arrange (producersAt nodes') required.length (required.map f) [] = _ :=
    arrange_renamed h.inj (fun i hi => ⟨h.producers i hi, fun p hp => (hv.ordered.idxOf_lt hi hp).1⟩) hplanned
      fun i hi => absurd hi List.not_mem_nil
  rw [heq, List.length_map] at harr'
  rw [harr] at hrenamed
  rw [hplan']
  exact congrArg Except.ok (congrArg Prod.fst (harr'.symm.trans hrenamed))

end Plan

/-- **A plan that is up to date is so after pruning.** -/
theorem Analysis.pruned_plan {a : Analysis} (hw : a.WellFormed) (h : Plan.ofNodes a.nodes [a.output] = .ok a.plan) :
    Plan.ofNodes a.pruned.nodes [a.pruned.output] = .ok a.pruned.plan := by
  have hp := hw.toPlanned
  have hrenumbers : Plan.Renumbers (newIndex a.usedNodes) a.nodes a.pruned.nodes a.plan :=
    ⟨fun i hi _ _ hij => newIndex_lt ((Analysis.usedNodes_getElem? hp).2 hi) hij,
      fun i hi => Analysis.pruned_producersAt hp hi, fun i hi => Analysis.pruned_lt hp hi,
      fun i _ => (Analysis.pruned_linked hw.toLinked hp).resolved _⟩
  exact Plan.ofNodes_renamed hrenumbers h

end EdgeFacts
