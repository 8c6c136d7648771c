/-
# Runs in lockstep

Let two analyses be related that stand at the same place of plans of the same
length. If visits of the nodes at one place of the plans keep them related, and
fail alike or tell changes alike, then so do steps, passes and rounds
(`Analysis.Lockstep.round`). If changes are told in the same visits, both settle
in the same round (`Analysis.Lockstep.rounds`).

Key definitions: `ResultsRelated`, `Analysis.Lockstep`.
Key theorems: `Analysis.step_eq`, `Analysis.Lockstep.step`, `Analysis.Lockstep.round`,
`Analysis.Lockstep.rounds`.
-/
import EdgeFacts.Proofs.Run

namespace EdgeFacts

/-- Whether two results are related: as values, or as failures. -/
def ResultsRelated {α β : Type} (rel : α → β → Prop) (alike : Failure → Failure → Prop) :
    Except Failure α → Except Failure β → Prop
  | .ok x, .ok y => rel x y
  | .error e, .error f => alike e f
  | _, _ => False

theorem ResultsRelated.cases {α β : Type} {rel : α → β → Prop} {alike : Failure → Failure → Prop}
    {x : Except Failure α} {y : Except Failure β} (h : ResultsRelated rel alike x y) :
    (∃ e f, x = .error e ∧ y = .error f ∧ alike e f) ∨ ∃ u v, x = .ok u ∧ y = .ok v ∧ rel u v := by
  rcases x with e | u
  · rcases y with f | v
    · exact .inl ⟨e, f, rfl, rfl, h⟩
    · exact h.elim
  · rcases y with f | v
    · exact h.elim
    · exact .inr ⟨u, v, rfl, rfl, h⟩

section

variable {α β γ δ : Type} {rel : β → γ → Prop} {alike : Failure → Failure → Prop} {x : Except Failure α}
  (hrefl : ∀ e, alike e e)
include hrefl

/-- Steps that go on in related ways from one result are related. -/
theorem ResultsRelated.bind_same {f : α → Except Failure β} {g : α → Except Failure γ}
    (h : ∀ u, ResultsRelated rel alike (f u) (g u)) : ResultsRelated rel alike (x >>= f) (x >>= g) := by
  cases x with
  | error e => exact hrefl e
  | ok u => exact h u

theorem ResultsRelated.bind_map {k : α → δ} {context : Failure → Failure} {f : α → Except Failure β}
    {g : δ → Except Failure γ} (h : ∀ u, ResultsRelated rel alike (f u) (g (k u))) :
    ResultsRelated rel alike (Analysis.inContext context x >>= f) (Analysis.inContext context (x.map k) >>= g) := by
  cases x with
  | error e => exact hrefl _
  | ok u => exact h u

end

namespace Analysis

theorem step_eq {a : Analysis} (hw : WellFormed a) :
    ∃ i, a.plan[a.place]? = some i ∧ a.step = (a.visit i).map fun x => (x.1, x.2.moveOn) := by
  have hlt := place_lt hw.stepIndex_lt
  have hi := List.getElem?_eq_getElem hlt
  have hmem := List.getElem_mem hlt
  have hn := List.getElem?_eq_getElem (hw.lt _ hmem)
  have hcurrent : a.currentNode = .ok _ := currentNode_eq_ok_iff.2 ⟨_, hi, hn⟩
  have hne : a.plan.isEmpty = false := by simpa using List.ne_nil_of_mem hw.output_mem
  refine ⟨_, hi, ?_⟩
  simp only [step, hne, Bool.false_eq_true, if_false, refineNode, visit, hcurrent, bind, Except.bind,
    itemAt_eq_ok_iff.2 hn]
  cases a.inferred _ with
  | error e => rfl
  | ok r => rfl

/-- What a relation of analyses needs to be kept by runs of both: `le` relates the
answers whether something changed, and `alike` the failures. -/
structure Lockstep (R : Analysis → Analysis → Prop) (le : Bool → Bool → Prop)
    (alike : Failure → Failure → Prop) : Prop where
  wellFormed : ∀ {a b : Analysis}, R a b → WellFormed a ∧ WellFormed b
  length_eq : ∀ {a b : Analysis}, R a b → a.plan.length = b.plan.length
  /-- Both stand at the same place, in the same pass. -/
  place_eq : ∀ {a b : Analysis}, R a b →
    a.passIndex = b.passIndex ∧ a.stepIndex = b.stepIndex ∧ a.forward = b.forward
  movedTo : ∀ {a b : Analysis} (p : Nat) {s : Nat} (f : Bool), R a b → s < a.plan.length →
    R (a.movedTo p s f) (b.movedTo p s f)
  visit : ∀ {a b : Analysis} {k i j : Nat}, R a b → a.plan[k]? = some i → b.plan[k]? = some j →
    ResultsRelated (fun x y => le x.1 y.1 ∧ R x.2 y.2) alike (a.visit i) (b.visit j)
  le_false : le false false
  le_or : ∀ {c c' d d' : Bool}, le c d → le c' d' → le (c || c') (d || d')

/-- Whether two outcomes are related, and so are the analyses that they leave. -/
def OutcomesRelated {α β : Type} (R : Analysis → Analysis → Prop) (rel : α → β → Prop)
    (alike : Failure → Failure → Prop) (x : Outcome α) (y : Outcome β) : Prop :=
  ResultsRelated rel alike x.1 y.1 ∧ R x.2 y.2

theorem OutcomesRelated.cases {α β : Type} {R : Analysis → Analysis → Prop} {rel : α → β → Prop}
    {alike : Failure → Failure → Prop} {x : Outcome α} {y : Outcome β} (h : OutcomesRelated R rel alike x y) :
    (∃ e f a b, x = (.error e, a) ∧ y = (.error f, b) ∧ alike e f ∧ R a b) ∨
      ∃ u v a b, x = (.ok u, a) ∧ y = (.ok v, b) ∧ rel u v ∧ R a b := by
  obtain ⟨x, a⟩ := x
  obtain ⟨y, b⟩ := y
  rcases h.1.cases with ⟨e, f, rfl, rfl, he⟩ | ⟨u, v, rfl, rfl, hu⟩
  · exact .inl ⟨e, f, a, b, rfl, rfl, he, h.2⟩
  · exact .inr ⟨u, v, a, b, rfl, rfl, hu, h.2⟩

namespace Lockstep

variable {R : Analysis → Analysis → Prop} {le : Bool → Bool → Prop} {alike : Failure → Failure → Prop}
  (h : Lockstep R le alike)
include h

theorem moveOn {a b : Analysis} (hab : R a b) : R a.moveOn b.moveOn := by
  obtain ⟨hpass, hstep, hforward⟩ := h.place_eq hab
  have hlt := (h.wellFormed hab).1.stepIndex_lt
  have hlen := h.length_eq hab
  unfold Analysis.moveOn
  rw [← hlen, ← hpass, ← hstep, ← hforward]
  split
  · exact h.movedTo _ _ hab (Nat.lt_of_le_of_lt (Nat.zero_le _) hlt)
  · exact h.movedTo _ _ hab (by omega)

/-- **Steps keep related analyses related.** -/
theorem step {a b : Analysis} (hab : R a b) :
    ResultsRelated (fun x y => le x.1 y.1 ∧ R x.2 y.2) alike a.step b.step := by
  obtain ⟨hwa, hwb⟩ := h.wellFormed hab
  obtain ⟨i, hi, ha⟩ := step_eq hwa
  obtain ⟨j, hj, hb⟩ := step_eq hwb
  have hplace : a.place = b.place := by
    obtain ⟨-, hstep, hforward⟩ := h.place_eq hab
    rw [place, place, hstep, hforward, h.length_eq hab]
  rcases (h.visit hab hi (hplace ▸ hj)).cases with ⟨e, f, hva, hvb, he⟩ | ⟨x, y, hva, hvb, hle, hR⟩
  · rw [ha, hb, hva, hvb]
    exact he
  · rw [ha, hb, hva, hvb]
    exact ⟨hle, h.moveOn hR⟩

theorem steps : ∀ {n : Nat} {a b : Analysis}, R a b →
    OutcomesRelated R le alike (Analysis.steps n a) (Analysis.steps n b)
  | 0, _, _, hab => ⟨h.le_false, hab⟩
  | n + 1, a, b, hab => by
    rcases (h.step hab).cases with ⟨e, f, ha, hb, he⟩ | ⟨⟨c, a'⟩, ⟨d, b'⟩, ha, hb, hle, hR⟩
    · simp only [Analysis.steps, ha, hb]
      exact ⟨he, hab⟩
    · rcases (steps (n := n) hR).cases with
        ⟨e, f, a'', b'', ha', hb', he, hR'⟩ | ⟨c', d', a'', b'', ha', hb', hle', hR'⟩
      · simp only [Analysis.steps, ha, hb, ha', hb']
        exact ⟨he, hR'⟩
      · simp only [Analysis.steps, ha, hb, ha', hb']
        exact ⟨h.le_or hle hle', hR'⟩

theorem pass {a b : Analysis} (hab : R a b) : OutcomesRelated R le alike a.pass b.pass := by
  obtain ⟨hpass, -, hforward⟩ := h.place_eq hab
  have hpos : 0 < a.plan.length := Nat.lt_of_le_of_lt (Nat.zero_le _) (h.wellFormed hab).1.stepIndex_lt
  have hstart : R (a.movedTo a.passIndex 0 a.forward) (b.movedTo b.passIndex 0 b.forward) := by
    rw [← hpass, ← hforward]
    exact h.movedTo _ _ hab hpos
  have hsteps := h.steps (n := a.plan.length) hstart
  unfold Analysis.pass
  rw [← h.length_eq hab]
  exact hsteps

/-- **Rounds keep related analyses related.** -/
theorem round {a b : Analysis} (hab : R a b) : OutcomesRelated R le alike a.round b.round := by
  obtain ⟨hpass, hstep, -⟩ := h.place_eq hab
  have hstart : R (a.movedTo a.passIndex a.stepIndex true) (b.movedTo b.passIndex b.stepIndex true) := by
    rw [← hpass, ← hstep]
    exact h.movedTo _ _ hab (h.wellFormed hab).1.stepIndex_lt
  have hfirst : OutcomesRelated R le alike (Analysis.pass { a with forward := true })
    (Analysis.pass { b with forward := true }) := h.pass hstart
  rcases hfirst.cases with ⟨e, f, a', b', ha, hb, he, hR⟩ | ⟨c, d, a', b', ha, hb, hle, hR⟩
  · simp only [Analysis.round, ha, hb]
    exact ⟨he, hR⟩
  · rcases (h.pass hR).cases with ⟨e, f, a'', b'', ha', hb', he, hR'⟩ | ⟨c', d', a'', b'', ha', hb', hle', hR'⟩
    · simp only [Analysis.round, ha, hb, ha', hb']
      exact ⟨he, hR'⟩
    · simp only [Analysis.round, ha, hb, ha', hb']
      exact ⟨h.le_or hle hle', hR'⟩

end Lockstep

/-- **Runs keep related analyses related** that tell changes in the same visits:
both settle, or fail, or come to the limit in the same round. -/
theorem Lockstep.rounds {R : Analysis → Analysis → Prop} {alike : Failure → Failure → Prop}
    (h : Lockstep R (fun c d => c = d) alike) (hrefl : ∀ e, alike e e) {limit : Option Nat} :
    ∀ {fuel done : Nat} {a b : Analysis}, R a b →
      OutcomesRelated R (fun _ _ => True) alike (Analysis.rounds limit fuel done a)
        (Analysis.rounds limit fuel done b)
  | 0, _, _, _, hab => ⟨hrefl _, hab⟩
  | fuel + 1, done, a, b, hab => by
    rcases (h.round hab).cases with ⟨e, f, a', b', ha, hb, he, hR⟩ | ⟨c, d, a', b', ha, hb, rfl, hR⟩
    · simp only [Analysis.rounds, ha, hb]
      exact ⟨he, hR⟩
    · cases c with
      | false =>
        simp only [Analysis.rounds, ha, hb]
        exact ⟨trivial, hR⟩
      | true =>
        simp only [Analysis.rounds, ha, hb]
        split
        · exact ⟨hrefl _, hR⟩
        · exact Lockstep.rounds h hrefl hR

end Analysis

end EdgeFacts
