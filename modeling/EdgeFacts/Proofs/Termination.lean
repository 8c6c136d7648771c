/-
# Runs without a limit terminate

A run repeats rounds for as long as they change something. The facts form chains
without end, since an open shape can always grow; but operators of the library
infer no shape longer than those they are given or hold themselves, so every
changing round raises a precision that has a bound. Hence after a bounded number
of changing rounds one fails or changes nothing, and the run ends with it, as it
does with any greater number of rounds at hand.

Key definitions: `Analysis.Changing`, `Analysis.EndsWith`, `Analysis.RunEnds`.
Key theorems: `Analysis.exists_changing`, `Analysis.run_terminates`.
-/
import EdgeFacts.Proofs.Reachable
import EdgeFacts.Proofs.Sound

namespace EdgeFacts.Analysis

/-- Whether some rounds, each of which changes something, lead to an analysis. -/
def Changing : Nat → Analysis → Analysis → Prop
  | 0, a, b => b = a
  | n + 1, a, c => ∃ b, a.round = (.ok true, b) ∧ Changing n b c

/-- Whether the next round ends a run, and with which outcome: it fails, or it
changes nothing. -/
def EndsWith (a : Analysis) (x : Outcome Unit) : Prop :=
  match a.round with
  | (.error e, b) => x = (.error e, b)
  | (.ok false, b) => x = (.ok (), b)
  | (.ok true, _) => False

theorem endsWith_error_iff {a b : Analysis} {e : Failure} : a.EndsWith (.error e, b) ↔ a.round = (.error e, b) := by
  unfold EndsWith
  split
  · rename_i hr
    simp [hr, eq_comm]
  · rename_i hr
    simp [hr]
  · rename_i hr
    simp [hr]

theorem endsWith_ok_iff {a b : Analysis} : a.EndsWith (.ok (), b) ↔ a.round = (.ok false, b) := by
  unfold EndsWith
  split
  · rename_i hr
    simp [hr]
  · rename_i hr
    simp [hr, eq_comm]
  · rename_i hr
    simp [hr]

theorem changing_succ : ∀ {n : Nat} {a b c : Analysis}, Changing n a b → b.round = (.ok true, c) → Changing (n + 1) a c
  | 0, a, b, c, hb, hc => by
    obtain rfl : b = a := hb
    exact ⟨c, hc, rfl⟩
  | n + 1, a, b, c, hb, hc => by
    obtain ⟨d, hd, hb⟩ := hb
    exact ⟨d, hd, changing_succ hb hc⟩

theorem rounds_of_changing_within {limit : Option Nat} {x : Outcome Unit} : ∀ {n fuel done : Nat} {a b : Analysis},
    Changing n a b → b.EndsWith x → n < fuel → (∀ l ∈ limit, done + n < l) → rounds limit fuel done a = x
  | _, 0, _, _, _, _, _, hf, _ => absurd hf (Nat.not_lt_zero _)
  | 0, fuel + 1, done, a, b, hb, hx, _, _ => by
    obtain rfl : b = a := hb
    unfold EndsWith at hx
    split at hx
    · rename_i hr
      simp only [rounds, hr, hx]
    · rename_i hr
      simp only [rounds, hr, hx]
    · exact hx.elim
  | n + 1, fuel + 1, done, a, c, hc, hx, hf, hl => by
    obtain ⟨b, hr, hb⟩ := hc
    have tail : rounds limit fuel (done + 1) b = x :=
      rounds_of_changing_within hb hx (Nat.lt_of_succ_lt_succ hf) fun l hmem => by
        have := hl l hmem
        omega
    have hgo : ¬ (limit.any (· ≤ done + 1) = true) := by
      cases limit with
      | none => exact Bool.false_ne_true
      | some l =>
        have := hl l rfl
        simp only [Option.any_some, decide_eq_true_eq]
        omega
    rw [rounds, hr]
    simp only [if_neg hgo, tail]

/-- Rounds without a limit come to the first that fails or changes nothing, if
there are enough of them. -/
theorem rounds_of_changing {x : Outcome Unit} {n fuel done : Nat} {a b : Analysis} (hb : Changing n a b)
    (hx : b.EndsWith x) (hf : n < fuel) : rounds none fuel done a = x :=
  rounds_of_changing_within hb hx hf fun _ hl => nomatch hl

/-- Whether a run without a limit ends with an outcome: after some rounds that change
something comes one that fails or changes nothing. -/
def RunEnds (a : Analysis) (x : Outcome Unit) : Prop :=
  ∃ n b, Changing n { a with passIndex := 0 } b ∧ b.EndsWith x

theorem run_eq {a : Analysis} (hl : a.roundLimit = none) :
    a.run = rounds none a.roundBound 0 { a with passIndex := 0 } := by
  simp only [run, hl, Option.getD_none]

theorem endsWith_or_changes (a : Analysis) : (∃ x, a.EndsWith x) ∨ ∃ b, a.round = (.ok true, b) := by
  unfold EndsWith
  rcases a.round with ⟨e | _ | _, b⟩
  · exact .inl ⟨_, rfl⟩
  · exact .inl ⟨_, rfl⟩
  · exact .inr ⟨b, rfl⟩

/-- As often as the precision can still rise, rounds can change something. -/
theorem exists_changing {r length : Nat} : ∀ {m : Nat} {a : Analysis}, WellFormed a → Bounded r length a →
    length * (2 * r + 3) ≤ a.precision + m →
    ∃ n b x, n ≤ m ∧ Changing n a b ∧ b.EndsWith x
  | m, a, hw, hb, hm => by
    rcases a.endsWith_or_changes with ⟨x, hx⟩ | ⟨b, hr⟩
    · exact ⟨0, a, x, Nat.zero_le m, rfl, hx⟩
    have hlt := (round_precision hw hb hr).2 rfl
    have hafter := (runInvariant_bounded r length).round hw hb
    rw [hr] at hafter
    obtain ⟨hwb, hbb⟩ : WellFormed b ∧ Bounded r length b := hafter
    have hle := precision_le hbb.rank
    rw [hbb.length_edges] at hle
    match m, hm with
    | 0, hm => omega
    | m + 1, hm =>
      obtain ⟨n, c, x, hn, hc, hx⟩ := exists_changing (m := m) hwb hbb (by omega)
      exact ⟨n + 1, c, x, Nat.succ_le_succ hn, ⟨b, hr, hc⟩, hx⟩

/-- **A run without a limit terminates.** Take an analysis of a model of operators
of the library without a limit, after any hints and other actions. After a
bounded number of rounds, each of which changes something, a round fails or
changes nothing, and with this outcome the run ends, however many rounds it may
take at most. -/
theorem run_terminates {model : Model} {output : Int} {start : Analysis}
    (hlib : ∀ n ∈ model.nodes, n.op.IsLibrary) (hstart : Analysis.start model output none = .ok start)
    (xs : List Action) :
    ∃ n b, n < (start.afterAll xs).roundBound ∧
      Changing n { start.afterAll xs with passIndex := 0 } b ∧
      b.EndsWith (start.afterAll xs).run ∧
      ∀ fuel, n < fuel →
        rounds none fuel 0 { start.afterAll xs with passIndex := 0 } = (start.afterAll xs).run := by
  obtain ⟨hw₀, -, -, hnodes, -, hlimit⟩ := start_spec hstart
  have hlib₀ : OfLibrary start := by
    rw [OfLibrary, hnodes]
    exact hlib
  obtain ⟨hw, hlib', hl⟩ := (graphInvariant_library none).afterAll hw₀ ⟨hlib₀, hlimit⟩ xs
  generalize start.afterAll xs = a at hw hlib' hl ⊢
  have hrank := rankAtMost_rankBound a
  have hb : Bounded a.rankBound a.edges.length { a with passIndex := 0 } :=
    ⟨hlib', ⟨hrank.facts, hrank.ops⟩, rfl⟩
  obtain ⟨n, b, x, hn, hc, hx⟩ : ∃ n b x, n ≤ a.edges.length * (2 * a.rankBound + 3) ∧
      Changing n { a with passIndex := 0 } b ∧ b.EndsWith x :=
    exists_changing (movedTo_wellFormed hw hw.stepIndex_lt) hb (Nat.le_add_left _ _)
  have hlt : n < a.roundBound := Nat.lt_succ_of_le hn
  have hrun : a.run = x := (run_eq hl).trans (rounds_of_changing hc hx hlt)
  rw [hrun]
  exact ⟨n, b, hlt, hc, hx, fun fuel hf => rounds_of_changing hc hx hf⟩

/-- The run towards the positive part of a pair that a hint gives terminates. -/
theorem positivePart_terminates : ∃ a, start positivePart 1 none = .ok a ∧
    ∃ n b, Changing n { a.afterAll [.hint 0 (.ofTensor (integerPair 3 (-1)))] with passIndex := 0 } b ∧
      b.EndsWith (a.afterAll [.hint 0 (.ofTensor (integerPair 3 (-1)))]).run := by
  have hstart : start positivePart 1 none = .ok _ := rfl
  obtain ⟨n, b, -, hc, hx, -⟩ :=
    run_terminates positivePart_library hstart [.hint 0 (.ofTensor (integerPair 3 (-1)))]
  exact ⟨_, hstart, n, b, hc, hx⟩

end EdgeFacts.Analysis
