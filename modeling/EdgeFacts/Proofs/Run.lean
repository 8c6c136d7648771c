/-
# Steps, rounds and runs are visits

A step visits the planned node at which the analysis stands, and a run does
nothing but steps. So what every visit of a planned node preserves holds after a
run, however it ends (`Analysis.RunInvariant.run`); where no visit fails, a run
can only end by settling or by its limit; and a run that settles has visited
every planned node without a change (`Analysis.stable_of_run`).

Key definitions: `Analysis.place`, `Analysis.RunInvariant`.
Key theorems: `Analysis.step_eq_ok_iff`, `Analysis.RunInvariant.run`,
`Analysis.round_unchanged`, `Analysis.stable_of_run`.
-/
import EdgeFacts.Proofs.Inference

namespace EdgeFacts.Analysis

/-! ### Steps -/

/-- The position in the plan of the node at which the analysis stands. -/
def place (a : Analysis) : Nat := if a.forward then a.stepIndex else a.plan.length - 1 - a.stepIndex

theorem currentNode_eq_ok_iff {a : Analysis} {n : Node} :
    a.currentNode = .ok n ↔ ∃ i, a.plan[a.place]? = some i ∧ a.nodes[i]? = some n := by
  simp only [currentNode, bind_eq_ok_iff, itemAt_eq_ok_iff, place]

theorem refineNode_eq_ok_iff {a a' : Analysis} {changed : Bool} :
    a.refineNode = .ok (changed, a') ↔
      ∃ i, a.plan[a.place]? = some i ∧ a.visit i = .ok (changed, a') := by
  simp only [refineNode, bind_eq_ok_iff, pure_eq_ok, currentNode_eq_ok_iff, visit_eq_ok_iff,
    Except.ok.injEq]
  constructor
  · rintro ⟨n, ⟨i, hi, hn⟩, r, hr, hc⟩
    exact ⟨i, hi, n, r, hn, hr, hc⟩
  · rintro ⟨i, hi, n, r, hn, hr, hc⟩
    exact ⟨n, ⟨i, hi, hn⟩, r, hr, hc⟩

theorem step_eq_ok_iff {a a' : Analysis} {changed : Bool} (h : a.plan ≠ []) :
    a.step = .ok (changed, a') ↔
      ∃ i b, a.plan[a.place]? = some i ∧ a.visit i = .ok (changed, b) ∧ b.moveOn = a' := by
  have hne : a.plan.isEmpty = false := by simpa using h
  simp only [step, hne, Bool.false_eq_true, if_false, bind_eq_ok_iff, pure_eq_ok, Except.ok.injEq,
    Prod.mk.injEq, Prod.exists, refineNode_eq_ok_iff]
  constructor
  · rintro ⟨c, b, ⟨i, hi, hv⟩, rfl, hm⟩
    exact ⟨i, b, hi, hv, hm⟩
  · rintro ⟨i, b, hi, hv, hm⟩
    exact ⟨changed, b, ⟨i, hi, hv⟩, rfl, hm⟩

theorem place_lt {a : Analysis} (h : a.stepIndex < a.plan.length) : a.place < a.plan.length := by
  unfold place
  split <;> omega

/-- The analysis at another place. -/
def movedTo (a : Analysis) (passIndex stepIndex : Nat) (forward : Bool) : Analysis :=
  { a with passIndex, stepIndex, forward }

theorem moveOn_eq (a : Analysis) : ∃ p s f, a.moveOn = a.movedTo p s f := by
  unfold moveOn
  split
  · exact ⟨_, _, _, rfl⟩
  · exact ⟨_, _, _, rfl⟩

theorem moveOn_stepIndex_lt {a : Analysis} (h : a.stepIndex < a.plan.length) :
    a.moveOn.stepIndex < a.moveOn.plan.length := by
  unfold moveOn
  split
  · simp only
    omega
  · simp only
    omega

theorem movedTo_sameGraph (a : Analysis) (p s : Nat) (f : Bool) : SameGraph (a.movedTo p s f) a :=
  ⟨rfl, rfl, rfl, rfl, rfl, rfl, rfl⟩

theorem Refines.movedTo {a b : Analysis} (h : Refines a b) (p s : Nat) (f : Bool) :
    Refines (a.movedTo p s f) b :=
  ⟨(movedTo_sameGraph a p s f).trans h.toSameGraph, h.facts⟩

theorem Refines.of_movedTo {a b : Analysis} (h : Refines a b) (p s : Nat) (f : Bool) :
    Refines a (b.movedTo p s f) :=
  ⟨h.toSameGraph.trans (movedTo_sameGraph b p s f).symm, h.facts⟩

theorem refinePairs_congr {a b : Analysis} (h : a.edges = b.edges) :
    ∀ (fs : List TensorFact) (js : List Nat), a.refinePairs fs js = b.refinePairs fs js
  | [], _ => rfl
  | _ :: _, [] => rfl
  | f :: fs, j :: js => by
    have hj : a.factOf j = b.factOf j := by rw [factOf, factOf, h]
    simp only [refinePairs, hj, refinePairs_congr h fs js]

/-- What is inferred does not depend on the place of the analysis. -/
theorem inferred_movedTo (a : Analysis) (p s : Nat) (f : Bool) (n : Node) :
    (a.movedTo p s f).inferred n = a.inferred n := by
  simp only [inferred, refineEdges_eq, refinePairs_congr (a := a.movedTo p s f) (b := a) rfl]
  rfl

theorem stableAt_movedTo {a : Analysis} {p s : Nat} {f : Bool} {i : Nat} :
    (a.movedTo p s f).StableAt i ↔ a.StableAt i := by
  simp only [StableAt, visit_eq_ok_iff, inferred_movedTo]
  constructor
  · rintro ⟨a', n, r, hn, hr, hc⟩
    have hc' : (a.commit r).1 = false := congrArg Prod.fst hc
    exact ⟨_, n, r, hn, hr, Prod.ext hc' rfl⟩
  · rintro ⟨a', n, r, hn, hr, hc⟩
    have hc' : ((a.movedTo p s f).commit r).1 = false := congrArg Prod.fst hc
    exact ⟨_, n, r, hn, hr, Prod.ext hc' rfl⟩

/-! ### What a run preserves -/

theorem visit_place {a a' : Analysis} {i : Nat} {changed : Bool} (h : a.visit i = .ok (changed, a')) :
    a'.plan = a.plan ∧ a'.stepIndex = a.stepIndex ∧ a'.forward = a.forward ∧ a'.passIndex = a.passIndex := by
  obtain ⟨n, r, -, -, hc⟩ := visit_eq_ok_iff.1 h
  cases hc
  exact ⟨rfl, rfl, rfl, rfl⟩

theorem visit_wellFormed {a a' : Analysis} {i : Nat} {changed : Bool} (hw : WellFormed a)
    (h : a.visit i = .ok (changed, a')) : WellFormed a' := by
  obtain ⟨hplan, hstep, -⟩ := visit_place h
  exact (visit_refines h).toSameGraph.wellFormed hw (by rw [hplan, hstep]; exact hw.stepIndex_lt)

theorem movedTo_wellFormed {a : Analysis} {p s : Nat} {f : Bool} (hw : WellFormed a)
    (hs : s < a.plan.length) : WellFormed (a.movedTo p s f) :=
  (movedTo_sameGraph a p s f).wellFormed hw hs

theorem moveOn_wellFormed {a : Analysis} (hw : WellFormed a) : WellFormed a.moveOn := by
  have hlt := moveOn_stepIndex_lt hw.stepIndex_lt
  obtain ⟨p, s, f, hm⟩ := a.moveOn_eq
  rw [hm] at hlt ⊢
  exact movedTo_wellFormed hw hlt

/-- What holds of well-formed analyses at all places of the plan or at none, and
after every visit of a planned node. -/
structure RunInvariant (P : Analysis → Prop) : Prop where
  movedTo : ∀ {a : Analysis} (p s : Nat) (f : Bool), P a → P (a.movedTo p s f)
  visit : ∀ {a a' : Analysis} {i : Nat} {changed : Bool}, WellFormed a → P a → i ∈ a.plan →
    a.visit i = .ok (changed, a') → P a'

namespace RunInvariant

variable {P : Analysis → Prop} (hP : RunInvariant P)
include hP

theorem step {a a' : Analysis} {changed : Bool} (hw : WellFormed a) (h : P a)
    (hs : a.step = .ok (changed, a')) : WellFormed a' ∧ P a' := by
  have hne : a.plan ≠ [] := List.ne_nil_of_mem hw.output_mem
  obtain ⟨i, b, hi, hv, rfl⟩ := (step_eq_ok_iff hne).1 hs
  refine ⟨moveOn_wellFormed (visit_wellFormed hw hv), ?_⟩
  obtain ⟨p, s, f, hm⟩ := b.moveOn_eq
  rw [hm]
  exact hP.movedTo p s f (hP.visit hw h (List.mem_of_getElem? hi) hv)

theorem steps : ∀ {n : Nat} {a : Analysis}, WellFormed a → P a →
    WellFormed (Analysis.steps n a).2 ∧ P (Analysis.steps n a).2
  | 0, _, hw, h => ⟨hw, h⟩
  | n + 1, a, hw, h => by
    simp only [Analysis.steps]
    split
    · exact ⟨hw, h⟩
    · rename_i changed b hs
      obtain ⟨hwb, hb⟩ := hP.step hw h hs
      have tail := steps (n := n) hwb hb
      split
      · rename_i hr
        rwa [hr] at tail
      · rename_i hr
        rwa [hr] at tail

theorem pass {a : Analysis} (hw : WellFormed a) (h : P a) : WellFormed a.pass.2 ∧ P a.pass.2 :=
  hP.steps (movedTo_wellFormed hw (Nat.lt_of_le_of_lt (Nat.zero_le _) hw.stepIndex_lt))
    (hP.movedTo a.passIndex 0 a.forward h)

theorem round {a : Analysis} (hw : WellFormed a) (h : P a) : WellFormed a.round.2 ∧ P a.round.2 := by
  have first : WellFormed (Analysis.pass { a with forward := true }).2 ∧
      P (Analysis.pass { a with forward := true }).2 :=
    hP.pass (movedTo_wellFormed hw hw.stepIndex_lt) (hP.movedTo a.passIndex a.stepIndex true h)
  unfold Analysis.round
  split
  · rename_i hr
    rw [hr] at first
    exact first
  · rename_i b hr
    rw [hr] at first
    have second := hP.pass first.1 first.2
    split
    · rename_i hr'
      rw [hr'] at second
      exact second
    · rename_i hr'
      rw [hr'] at second
      exact second

theorem rounds {limit : Option Nat} : ∀ {fuel done : Nat} {a : Analysis}, WellFormed a → P a →
    WellFormed (Analysis.rounds limit fuel done a).2 ∧ P (Analysis.rounds limit fuel done a).2
  | 0, _, _, hw, h => ⟨hw, h⟩
  | fuel + 1, done, a, hw, h => by
    have one := hP.round hw h
    simp only [Analysis.rounds]
    split
    · rename_i hr
      rw [hr] at one
      exact one
    · rename_i hr
      rw [hr] at one
      exact one
    · rename_i b hr
      rw [hr] at one
      split
      · exact one
      · exact rounds one.1 one.2

theorem run {a : Analysis} (hw : WellFormed a) (h : P a) : WellFormed a.run.2 ∧ P a.run.2 :=
  hP.rounds (movedTo_wellFormed hw hw.stepIndex_lt) (hP.movedTo 0 a.stepIndex a.forward h)

end RunInvariant

theorem RunInvariant.and {P Q : Analysis → Prop} (hP : RunInvariant P) (hQ : RunInvariant Q) :
    RunInvariant fun a => P a ∧ Q a where
  movedTo p s f h := ⟨hP.movedTo p s f h.1, hQ.movedTo p s f h.2⟩
  visit hw h hi hv := ⟨hP.visit hw h.1 hi hv, hQ.visit hw h.2 hi hv⟩

theorem runInvariant_refines (b : Analysis) : RunInvariant fun a => Refines a b where
  movedTo p s f h := h.movedTo p s f
  visit _ h _ hv := (visit_refines hv).trans h

/-- A run only refines facts. -/
theorem run_refines {a : Analysis} (hw : WellFormed a) : WellFormed a.run.2 ∧ Refines a.run.2 a :=
  (runInvariant_refines a).run hw (.refl a)

/-! ### Rounds that change nothing -/

theorem step_unchanged {a a' : Analysis} (hne : a.plan ≠ []) (h : a.step = .ok (false, a')) :
    a' = a.moveOn ∧ ∃ i, a.plan[a.place]? = some i ∧ a.StableAt i := by
  obtain ⟨i, b, hi, hv, rfl⟩ := (step_eq_ok_iff hne).1 h
  exact ⟨congrArg Analysis.moveOn (visit_unchanged hv), i, hi, b, hv⟩

/-- The positions in the plan that steps from some step on come to. -/
def placeOf (forward : Bool) (length stepIndex : Nat) : Nat :=
  if forward then stepIndex else length - 1 - stepIndex

/-- Steps that change nothing, within one pass, only move on, and the nodes that
they visit have nothing to add. -/
theorem steps_unchanged : ∀ {n : Nat} {a a' : Analysis}, steps n a = (.ok false, a') →
    a.stepIndex + n ≤ a.plan.length →
    (∃ p s f, a' = a.movedTo p s f) ∧ ∀ k < n, ∀ i,
      a.plan[placeOf a.forward a.plan.length (a.stepIndex + k)]? = some i → a.StableAt i
  | 0, a, a', h, _ => by
    cases h
    exact ⟨⟨_, _, _, rfl⟩, fun k hk => absurd hk (Nat.not_lt_zero k)⟩
  | n + 1, a, a', h, hn => by
    have hne : a.plan ≠ [] := by
      intro he
      simp [he] at hn
    simp only [steps] at h
    split at h
    · cases h
    · rename_i changed b hs
      split at h
      · rename_i later c hr
        obtain ⟨rfl, rfl⟩ : changed = false ∧ later = false := by
          simpa using congrArg Prod.fst h
        cases h
        obtain ⟨rfl, i, hi, hstable⟩ := step_unchanged hne hs
        have first : ∀ i', a.plan[placeOf a.forward a.plan.length (a.stepIndex + 0)]? = some i' →
            a.StableAt i' := by
          intro i' hi'
          cases hi.symm.trans hi'
          exact hstable
        by_cases hlast : a.stepIndex + 1 = a.plan.length
        · obtain rfl : n = 0 := by omega
          cases hr
          refine ⟨a.moveOn_eq, fun k hk i' hi' => ?_⟩
          obtain rfl : k = 0 := by omega
          exact first i' hi'
        · have hm : a.moveOn = a.movedTo a.passIndex (a.stepIndex + 1) a.forward := by
            rw [moveOn, if_neg hlast, movedTo]
          rw [hm] at hr
          obtain ⟨⟨p, s, f, rfl⟩, tail⟩ := steps_unchanged hr (by simp only [movedTo]; omega)
          refine ⟨⟨p, s, f, rfl⟩, fun k hk i' hi' => ?_⟩
          cases k with
          | zero => exact first i' hi'
          | succ k =>
            refine stableAt_movedTo.1 (tail k (by omega) i' ?_)
            simp only [movedTo, Nat.add_assoc, Nat.add_comm 1 k]
            exact hi'
      · cases h

section Visits

variable {P : Analysis → Prop} {Q : Nat → Analysis → Prop} (hP : RunInvariant P)
  (hQ : ∀ i, RunInvariant fun a => P a ∧ Q i a)
  (hv : ∀ {a a' : Analysis} {i : Nat} {changed : Bool}, WellFormed a → P a → i ∈ a.plan →
    a.visit i = .ok (changed, a') → Q i a')
include hP hQ hv

/-- What a visit of a node brings about and every visit preserves holds of the nodes
that steps within one pass come to. -/
theorem steps_visits : ∀ {n : Nat} {a a' : Analysis} {changed : Bool}, WellFormed a → P a →
    steps n a = (.ok changed, a') → a.stepIndex + n ≤ a.plan.length → ∀ k < n, ∀ i,
      a.plan[placeOf a.forward a.plan.length (a.stepIndex + k)]? = some i → Q i a'
  | 0, _, _, _, _, _, _, _ => fun k hk => absurd hk (Nat.not_lt_zero k)
  | n + 1, a, a', changed, hw, h, hs, hn => by
    have hne : a.plan ≠ [] := List.ne_nil_of_mem hw.output_mem
    simp only [steps] at hs
    split at hs
    · cases hs
    · rename_i first b hb
      split at hs
      · rename_i later c hc
        cases hs
        obtain ⟨i₀, d, hi₀, hd, rfl⟩ := (step_eq_ok_iff hne).1 hb
        have hi₀mem := List.mem_of_getElem? hi₀
        have hwd := visit_wellFormed hw hd
        have hPd := hP.visit hw h hi₀mem hd
        have hhere : ∀ i, a.plan[placeOf a.forward a.plan.length (a.stepIndex + 0)]? = some i → Q i a' := by
          intro i hi
          cases hi₀.symm.trans hi
          obtain ⟨p, s, f, hm⟩ := d.moveOn_eq
          have hstart := (hQ i₀).movedTo p s f ⟨hPd, hv hw h hi₀mem hd⟩
          rw [← hm] at hstart
          have hafter := ((hQ i₀).steps (n := n) (moveOn_wellFormed hwd) hstart).2.2
          rwa [hc] at hafter
        by_cases hlast : a.stepIndex + 1 = a.plan.length
        · intro k hk i hi
          obtain rfl : k = 0 := by omega
          exact hhere i hi
        · obtain ⟨hplan, hstep, hforward, -⟩ := visit_place hd
          have hm : d.moveOn = d.movedTo d.passIndex (d.stepIndex + 1) d.forward := by
            rw [moveOn, if_neg (by rwa [hplan, hstep]), movedTo]
          have hPm := hP.movedTo d.passIndex (d.stepIndex + 1) d.forward hPd
          have hwm := moveOn_wellFormed hwd
          rw [hm] at hc hwm
          have tail := steps_visits hwm hPm hc (by simp only [movedTo, hplan, hstep]; omega)
          intro k hk i hi
          cases k with
          | zero => exact hhere i hi
          | succ k =>
            refine tail k (by omega) i ?_
            simp only [movedTo, hplan, hstep, hforward, Nat.add_assoc, Nat.add_comm 1 k]
            exact hi
      · cases hs

/-- What a visit of a node brings about and every visit preserves holds of all
planned nodes after a round. -/
theorem round_visits {a a' : Analysis} {changed : Bool} (hw : WellFormed a) (h : P a)
    (hr : a.round = (.ok changed, a')) : P a' ∧ ∀ i ∈ a.plan, Q i a' := by
  have hPa := (hP.round hw h).2
  rw [hr] at hPa
  refine ⟨hPa, fun i hi => ?_⟩
  have hstart : WellFormed (a.movedTo a.passIndex 0 true) :=
    movedTo_wellFormed hw (List.length_pos_of_mem hw.output_mem)
  have hPstart := hP.movedTo a.passIndex 0 true h
  unfold round at hr
  split at hr
  · cases hr
  · rename_i first b hb
    split at hr
    · cases hr
    · rename_i later c hc
      cases hr
      obtain ⟨k, hk, rfl⟩ := List.mem_iff_getElem.1 hi
      have hfirst : Q a.plan[k] b :=
        steps_visits hP hQ hv hstart hPstart hb (by simp [movedTo]) k hk _ (by simp [placeOf, movedTo])
      have hb' := hP.pass (movedTo_wellFormed (p := a.passIndex) (f := true) hw hw.stepIndex_lt)
        (hP.movedTo a.passIndex a.stepIndex true h)
      have hpass : pass (a.movedTo a.passIndex a.stepIndex true) = (.ok first, b) := hb
      rw [hpass] at hb'
      have hafter := ((hQ a.plan[k]).pass hb'.1 ⟨hb'.2, hfirst⟩).2.2
      rwa [hc] at hafter

end Visits

/-- A round that changes nothing has found that no planned node has anything to add. -/
theorem round_unchanged {a a' : Analysis} (h : a.round = (.ok false, a')) :
    (∃ p s f, a' = a.movedTo p s f) ∧ a.Stable := by
  unfold round at h
  split at h
  · cases h
  · rename_i changed b hr
    split at h
    · cases h
    · rename_i later c hr'
      obtain ⟨rfl, rfl⟩ : changed = false ∧ later = false := by
        simpa using congrArg Prod.fst h
      cases h
      obtain ⟨⟨p, s, f, rfl⟩, hstable⟩ := steps_unchanged hr (by simp)
      obtain ⟨⟨p', s', f', rfl⟩, -⟩ := steps_unchanged hr' (by simp)
      refine ⟨⟨p', s', f', rfl⟩, fun i hi => ?_⟩
      obtain ⟨k, hk, rfl⟩ := List.mem_iff_getElem.1 hi
      have := hstable k hk a.plan[k] (by simp [placeOf])
      exact stableAt_movedTo.1 (show (a.movedTo a.passIndex 0 true).StableAt _ from this)

theorem stable_movedTo {a : Analysis} {p s : Nat} {f : Bool} (h : a.Stable) :
    (a.movedTo p s f).Stable := fun i hi => stableAt_movedTo.2 (h i hi)

theorem rounds_stable {limit : Option Nat} : ∀ {fuel done : Nat} {a a' : Analysis},
    rounds limit fuel done a = (.ok (), a') → a'.Stable
  | 0, _, _, _, h => by cases h
  | fuel + 1, done, a, a', h => by
    simp only [rounds] at h
    split at h
    · cases h
    · rename_i b hr
      cases h
      obtain ⟨⟨p, s, f, rfl⟩, hstable⟩ := round_unchanged hr
      exact stable_movedTo hstable
    · split at h
      · cases h
      · exact rounds_stable h

/-- A run that settles leaves no planned node with anything to add. -/
theorem stable_of_run {a a' : Analysis} (h : a.run = (.ok (), a')) : a'.Stable := rounds_stable h

/-! ### Runs whose visits succeed -/

section Progress

variable {P : Analysis → Prop} (hv : ∀ {a : Analysis} {i : Nat}, WellFormed a → P a → i ∈ a.plan →
  ∃ changed a', a.visit i = .ok (changed, a'))
include hv

theorem exists_step {a : Analysis} (hw : WellFormed a) (h : P a) :
    ∃ changed a', a.step = .ok (changed, a') := by
  have hne : a.plan ≠ [] := List.ne_nil_of_mem hw.output_mem
  have hlt := place_lt hw.stepIndex_lt
  obtain ⟨changed, b, hb⟩ := hv hw h (List.getElem_mem hlt)
  exact ⟨changed, b.moveOn, (step_eq_ok_iff hne).2 ⟨_, b, List.getElem?_eq_getElem hlt, hb, rfl⟩⟩

variable (hP : RunInvariant P)
include hP

theorem exists_steps : ∀ {n : Nat} {a : Analysis}, WellFormed a → P a →
    ∃ changed a', steps n a = (.ok changed, a')
  | 0, a, _, _ => ⟨false, a, rfl⟩
  | n + 1, a, hw, h => by
    obtain ⟨changed, b, hb⟩ := exists_step hv hw h
    obtain ⟨hwb, hPb⟩ := hP.step hw h hb
    obtain ⟨later, c, hc⟩ := exists_steps (n := n) hwb hPb
    exact ⟨changed || later, c, by simp only [steps, hb, hc]⟩

theorem exists_pass {a : Analysis} (hw : WellFormed a) (h : P a) :
    ∃ changed a', a.pass = (.ok changed, a') :=
  exists_steps hv hP (movedTo_wellFormed hw (Nat.lt_of_le_of_lt (Nat.zero_le _) hw.stepIndex_lt))
    (hP.movedTo a.passIndex 0 a.forward h)

theorem exists_round {a : Analysis} (hw : WellFormed a) (h : P a) :
    ∃ changed a', a.round = (.ok changed, a') := by
  have hwstart : WellFormed (a.movedTo a.passIndex a.stepIndex true) :=
    movedTo_wellFormed hw hw.stepIndex_lt
  have hstart : P (a.movedTo a.passIndex a.stepIndex true) := hP.movedTo _ _ _ h
  obtain ⟨changed, b, hb⟩ := exists_pass hv hP hwstart hstart
  have hafter := hP.pass hwstart hstart
  rw [hb] at hafter
  obtain ⟨later, c, hc⟩ := exists_pass hv hP hafter.1 hafter.2
  refine ⟨changed || later, c, ?_⟩
  have hb' : pass { a with forward := true } = (.ok changed, b) := hb
  simp only [round, hb', hc]

/-- Where every visit succeeds, rounds under a limit settle or come to the limit. -/
theorem rounds_limited {fuel done : Nat} {a : Analysis} (hw : WellFormed a) (h : P a) :
    ∃ a', rounds (some (done + (fuel + 1))) (fuel + 1) done a = (.ok (), a') ∨
      rounds (some (done + (fuel + 1))) (fuel + 1) done a =
        (.error (.because (.notConverged (done + (fuel + 1)))), a') := by
  induction fuel generalizing done a with
  | zero =>
    obtain ⟨changed, b, hb⟩ := exists_round hv hP hw h
    cases changed with
    | false => exact ⟨b, .inl (by simp only [rounds, hb])⟩
    | true => exact ⟨b, .inr (by simp [rounds, hb])⟩
  | succ fuel ih =>
    obtain ⟨changed, b, hb⟩ := exists_round hv hP hw h
    have hafter := hP.round hw h
    rw [hb] at hafter
    cases changed with
    | false => exact ⟨b, .inl (by rw [rounds, hb])⟩
    | true =>
      have hgo : rounds (some (done + (fuel + 1 + 1))) (fuel + 1 + 1) done a =
          rounds (some (done + 1 + (fuel + 1))) (fuel + 1) (done + 1) b := by
        have hsum : done + (fuel + 1 + 1) = done + 1 + (fuel + 1) := by omega
        rw [rounds, hb, hsum]
        exact if_neg (by simp)
      rw [hgo, show done + (fuel + 1 + 1) = done + 1 + (fuel + 1) by omega]
      exact ih hafter.1 hafter.2

/-- Where every visit succeeds, a run under a positive limit settles or comes to the limit. -/
theorem run_limited {a : Analysis} {limit : Nat} (hw : WellFormed a) (h : P a)
    (hlimit : a.roundLimit = some limit) (hpos : 0 < limit) :
    ∃ a', a.run = (.ok (), a') ∨ a.run = (.error (.because (.notConverged limit)), a') := by
  obtain ⟨fuel, rfl⟩ := Nat.exists_eq_add_of_lt hpos
  rw [Nat.zero_add] at hlimit ⊢
  have hrun : ∃ a', rounds (some (0 + (fuel + 1))) (fuel + 1) 0 (a.movedTo 0 a.stepIndex a.forward) =
        (.ok (), a') ∨
      rounds (some (0 + (fuel + 1))) (fuel + 1) 0 (a.movedTo 0 a.stepIndex a.forward) =
        (.error (.because (.notConverged (0 + (fuel + 1)))), a') :=
    rounds_limited hv hP (movedTo_wellFormed hw hw.stepIndex_lt) (hP.movedTo 0 a.stepIndex a.forward h)
  rw [Nat.zero_add, movedTo, hlimit] at hrun
  simpa only [run, hlimit, Option.getD_some] using hrun

end Progress

end EdgeFacts.Analysis
