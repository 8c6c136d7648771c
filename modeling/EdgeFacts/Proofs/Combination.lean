/-
# Facts combine alike in every way

Facts may be combined in any order and grouping, and each of them as often as one
likes (`Combination`). What comes of it is the greatest of the facts that refine all
of them, so it depends on which facts are combined alone: if some way to combine
them succeeds so does every other one, and the results are the same fact. Since a
meet of two values keeps the first of them, the results need not be identical: zeros
may differ in sign.

Key definitions: `Combination`, `Combination.combine`, `Combination.inTurn`, `CoveredBy`.
Key theorems: `Combination.combine_greatest`, `Combination.combine_mono`,
`Combination.combine_inTurn`, `Combination.combine_alike`.
-/
import EdgeFacts.Proofs.Exhaustion
import EdgeFacts.Proofs.SameFacts

namespace EdgeFacts

/-- A way to combine facts: their order, their grouping, and how often each of them is
told. It starts from nothing where nothing is known. -/
inductive Combination where
  | nothing
  | fact (f : TensorFact)
  | both (l r : Combination)

/-- Whether each of some facts is refined by one of others. Facts cover each other if
they differ in their order and their repetitions, or in facts that say nothing new. -/
def CoveredBy (fs gs : List TensorFact) : Prop := ∀ f ∈ fs, ∃ g ∈ gs, g.Refines f

theorem CoveredBy.of_subset {fs gs : List TensorFact} (h : fs ⊆ gs) : CoveredBy fs gs :=
  fun f hf => ⟨f, h hf, .refl f⟩

/-- Whether two failures tell that facts contradict each other. -/
def BothClash (e e' : Failure) : Prop := e.IsClash ∧ e'.IsClash

theorem sameFact_equivalence : Equivalence SameFact := ⟨SameFact.refl, SameFact.symm, SameFact.trans⟩

/-- Results are related if each way to succeed leads to the other, with a result that is
the same, and failures are contradictions. -/
theorem resultsRelated_of_clash {x y : Except Failure TensorFact}
    (hxy : ∀ r, x = .ok r → ∃ s, y = .ok s ∧ SameFact r s) (hyx : ∀ s, y = .ok s → ∃ r, x = .ok r)
    (hx : ∀ e, x = .error e → e.IsClash) (hy : ∀ e, y = .error e → e.IsClash) :
    ResultsRelated SameFact BothClash x y := by
  cases x with
  | ok r =>
    obtain ⟨s, rfl, hrs⟩ := hxy r rfl
    exact hrs
  | error e =>
    cases y with
    | ok s =>
      obtain ⟨r, hr⟩ := hyx s rfl
      cases hr
    | error e' => exact ⟨hx e rfl, hy e' rfl⟩

theorem TensorFact.meet_related {f g f' g' : TensorFact} (hf : SameFact f f') (hg : SameFact g g') :
    ResultsRelated SameFact BothClash (f.meet g) (f'.meet g') :=
  resultsRelated_of_clash (fun _ h => meet_same hf hg h)
    (fun _ h => (meet_same hf.symm hg.symm h).imp fun _ h => h.1) (fun _ h => meet_error h) fun _ h => meet_error h

namespace Combination

/-- The facts that are combined, from the left. -/
def facts : Combination → List TensorFact
  | nothing => []
  | fact f => [f]
  | both l r => l.facts ++ r.facts

/-- What the facts say together, if they do not contradict each other. -/
def combine : Combination → Except Failure TensorFact
  | nothing => .ok .unknown
  | fact f => .ok f
  | both l r => do (← l.combine).meet (← r.combine)

/-- Facts combined one after the other with what is known from those before. -/
def inTurn (fs : List TensorFact) : Combination := fs.foldl (fun c f => both c (fact f)) nothing

theorem combine_both {l r : Combination} {m : TensorFact} : (both l r).combine = .ok m ↔
    ∃ f g, l.combine = .ok f ∧ r.combine = .ok g ∧ f.meet g = .ok m := by
  simp only [combine, bind_eq_ok_iff, exists_and_left]

theorem combine_lower : ∀ {c : Combination} {m : TensorFact}, c.combine = .ok m → ∀ f ∈ c.facts, m.Refines f
  | nothing, _, _, _, hf => by cases hf
  | fact g, m, h, f, hf => by
    cases h
    cases List.mem_singleton.1 hf
    exact .refl _
  | both l r, m, h, f, hf => by
    obtain ⟨a, b, ha, hb, hm⟩ := combine_both.1 h
    obtain ⟨hma, hmb⟩ := TensorFact.isMeet.lower hm
    rcases List.mem_append.1 hf with hf | hf
    · exact hma.trans (combine_lower ha f hf)
    · exact hmb.trans (combine_lower hb f hf)

/-- **Facts that some fact refines can be combined**, and it refines what they say together. -/
theorem combine_greatest {d : TensorFact} : ∀ {c : Combination}, (∀ f ∈ c.facts, d.Refines f) →
    ∃ m, c.combine = .ok m ∧ d.Refines m
  | nothing, _ => ⟨_, rfl, TensorFact.refines_unknown d⟩
  | fact f, h => ⟨f, rfl, h f (.head _)⟩
  | both l r, h => by
    obtain ⟨a, ha, hda⟩ := combine_greatest (c := l) fun f hf => h f (List.mem_append_left _ hf)
    obtain ⟨b, hb, hdb⟩ := combine_greatest (c := r) fun f hf => h f (List.mem_append_right _ hf)
    obtain ⟨m, hm, hdm⟩ := TensorFact.isMeet.greatest hda hdb
    exact ⟨m, combine_both.2 ⟨a, b, ha, hb, hm⟩, hdm⟩

theorem combine_error : ∀ {c : Combination} {e : Failure}, c.combine = .error e → e.IsClash
  | nothing, _, h => by cases h
  | fact _, _, h => by cases h
  | both l r, e, h => by
    simp only [combine, bind_eq_error_iff] at h
    rcases h with h | ⟨f, -, h | ⟨g, -, h⟩⟩
    · exact combine_error h
    · exact combine_error h
    · exact TensorFact.meet_error h

theorem combine_mono {c d : Combination} (h : CoveredBy d.facts c.facts) {m : TensorFact}
    (hm : c.combine = .ok m) : ∃ k, d.combine = .ok k ∧ m.Refines k := by
  refine combine_greatest fun f hf => ?_
  obtain ⟨g, hg, hgf⟩ := h f hf
  exact (combine_lower hm g hg).trans hgf

theorem combine_related {c d : Combination} (hcd : CoveredBy c.facts d.facts) (hdc : CoveredBy d.facts c.facts) :
    ResultsRelated SameFact BothClash c.combine d.combine := by
  refine resultsRelated_of_clash (fun r hr => ?_) (fun s hs => (combine_mono hcd hs).imp fun _ h => h.1)
    (fun _ h => combine_error h) fun _ h => combine_error h
  obtain ⟨s, hs, hrs⟩ := combine_mono hdc hr
  obtain ⟨r', hr', hsr⟩ := combine_mono hcd hs
  cases hr.symm.trans hr'
  exact ⟨s, hs, SameFact.iff_refines.2 ⟨hrs, hsr⟩⟩

/-! ### Facts in turn -/

theorem facts_foldl : ∀ (fs : List TensorFact) (c : Combination),
    (fs.foldl (fun c f => both c (fact f)) c).facts = c.facts ++ fs
  | [], c => (List.append_nil _).symm
  | f :: fs, c => by
    rw [List.foldl_cons, facts_foldl fs, facts, facts, List.append_assoc, List.singleton_append]

theorem combine_foldl : ∀ (fs : List TensorFact) (c : Combination),
    (fs.foldl (fun c f => both c (fact f)) c).combine = do TensorFact.meetAll (← c.combine) fs
  | [], c => by
    cases h : c.combine <;> simp [h, TensorFact.meetAll, bind, Except.bind, pure, Except.pure]
  | f :: fs, c => by
    rw [List.foldl_cons, combine_foldl fs]
    cases h : c.combine <;> simp [combine, h, TensorFact.meetAll, bind, Except.bind]

theorem facts_inTurn (fs : List TensorFact) : (inTurn fs).facts = fs := facts_foldl fs nothing

theorem combine_inTurn (fs : List TensorFact) : (inTurn fs).combine = TensorFact.meetAll .unknown fs :=
  combine_foldl fs nothing

end Combination

/-- What is known of the output of a node is one way to combine the facts out of it. -/
theorem Analysis.outputFact_eq_combine {a : Analysis} {i : Nat} {js : List Nat} {fs : List TensorFact}
    (hi : i < a.nodes.length) (hjs : a.outgoing[i]? = some js) (hfs : a.factsOf js = .ok fs) :
    a.outputFact i = (Combination.inTurn fs).combine := by
  rw [Combination.combine_inTurn]
  simp only [outputFact, nodeIndex_eq_ok_iff.2 ⟨rfl, hi⟩, itemAt_eq_ok_iff.2 hjs, hfs, ok_bind]

/-- **Facts combine alike in every way.** Being the same is an equivalence of facts, and
the meet respects it. Take any two combinations of facts that cover each other, for one
of the same facts in any order and grouping and with any repetitions, whatever they say.
Then either both fail, each for a contradiction, or both succeed and the results are the
same fact. To meet the facts of a list one by one from nothing known is such a
combination, and so is what is known of the output of a node. -/
theorem Combination.combine_alike :
    Equivalence SameFact ∧
    (∀ f g f' g' : TensorFact, SameFact f f' → SameFact g g' →
      ResultsRelated SameFact BothClash (f.meet g) (f'.meet g')) ∧
    (∀ c d : Combination, CoveredBy c.facts d.facts → CoveredBy d.facts c.facts →
      ResultsRelated SameFact BothClash c.combine d.combine) ∧
    (∀ fs : List TensorFact, (inTurn fs).facts = fs ∧ (inTurn fs).combine = TensorFact.meetAll .unknown fs) ∧
    ∀ (a : Analysis) (i : Nat) (js : List Nat) (fs : List TensorFact), i < a.nodes.length →
      a.outgoing[i]? = some js → a.factsOf js = .ok fs → a.outputFact i = (inTurn fs).combine :=
  ⟨sameFact_equivalence, fun _ _ _ _ hf hg => TensorFact.meet_related hf hg,
    fun _ _ hcd hdc => combine_related hcd hdc, fun fs => ⟨facts_inTurn fs, combine_inTurn fs⟩,
    fun _ _ _ _ hi hjs hfs => Analysis.outputFact_eq_combine hi hjs hfs⟩

/-- The fact of a pair of a value that is no number and a given one. -/
def brokenPair (x : FloatDatum) : TensorFact := .ofTensor ⟨.float .w32, [2], #[.float .nan, .float x], rfl⟩

/-- Values that are no numbers and zeros of either sign are combined alike, in two orders
and with a repetition, though another sign is kept. A new analysis knows nothing of the
output of a node with one edge out of it. -/
theorem brokenPair_alike :
    (∃ r s, TensorFact.meetAll .unknown [brokenPair .negZero, brokenPair (.finite 0)] = .ok r ∧
      (Combination.both (.fact (brokenPair (.finite 0)))
        (.both (.fact (brokenPair .negZero)) (.fact (brokenPair (.finite 0))))).combine = .ok s ∧
      SameFact r s ∧ r ≠ s) ∧
    ResultsRelated SameFact BothClash ((brokenPair .negZero).meet .unknown)
      ((brokenPair (.finite 0)).meet .unknown) ∧
    ∃ a, Analysis.start Analysis.positivePart 1 none = .ok a ∧
      a.outputFact 0 = (Combination.inTurn [.unknown]).combine := by
  obtain ⟨-, hmeet, hcombine, hturn, houtput⟩ := Combination.combine_alike
  refine ⟨?_, hmeet _ _ _ _ rfl (.refl _), _, rfl, houtput _ 0 [0] [.unknown] (by decide) rfl rfl⟩
  have hrelated := hcombine (.inTurn [brokenPair .negZero, brokenPair (.finite 0)])
    (.both (.fact (brokenPair (.finite 0))) (.both (.fact (brokenPair .negZero)) (.fact (brokenPair (.finite 0)))))
    (.of_subset (by simp [Combination.facts, (hturn _).1])) (.of_subset (by simp [Combination.facts, (hturn _).1]))
  rw [(hturn _).2] at hrelated
  have hr : TensorFact.meetAll .unknown [brokenPair .negZero, brokenPair (.finite 0)] = .ok (brokenPair .negZero) :=
    rfl
  have hs : (Combination.both (.fact (brokenPair (.finite 0)))
      (.both (.fact (brokenPair .negZero)) (.fact (brokenPair (.finite 0))))).combine =
        .ok (brokenPair (.finite 0)) := rfl
  rw [hr, hs] at hrelated
  exact ⟨_, _, hr, hs, hrelated, by decide +kernel⟩

end EdgeFacts
