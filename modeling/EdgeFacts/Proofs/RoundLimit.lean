/-
# A limit only cuts a run short

No step reads the limit of a run, and each round of a run under a limit is the same
round without it (`Analysis.round_limitedTo`). So a run under a limit either makes as
many rounds as the limit says, each of which changes something, and says that it did
not converge, or it ends before exactly as it does without a limit
(`Analysis.limit_cuts`). No step fails for a limit, whatever operators fail for, so
what such a failure says is true (`Analysis.round_limitFree`).

That a run did not converge means that every round changed something. Only one more
round could tell that there is nothing left to change: the facts that the last round
comes to may be a fixed point, and they are exactly if a limit that is greater by one
is enough (`Analysis.limit_reached`). So a run fails at the limit of one round that finds
out all there is to know (`Analysis.constant_not_converged`).

Key definitions: `LimitFree`, `Analysis.limitedTo`, `Analysis.countedRounds`.
Key theorems: `Analysis.round_limitFree`, `Analysis.round_limitedTo`, `Analysis.limit_cuts`,
`Analysis.limit_reached`.
-/
import EdgeFacts.Proofs.Consistent
import EdgeFacts.Proofs.Exhaustion
import EdgeFacts.Proofs.Termination

namespace EdgeFacts

/-! ### Failures for a limit -/

/-- Whether something does not fail because a run came to its limit. -/
def LimitFree {α : Type} (r : Except Failure α) : Prop := ∀ n, r ≠ .error (.because (.notConverged n))

section

variable {α β : Type}

theorem limitFree_ok (a : α) : LimitFree (.ok a : Except Failure α) := fun _ h => nomatch h

theorem LimitFree.bind {r : Except Failure α} {f : α → Except Failure β} (hr : LimitFree r)
    (hf : ∀ a, LimitFree (f a)) : LimitFree (r >>= f) := by
  intro n h
  rcases bind_eq_error_iff.1 h with h | ⟨a, -, h⟩
  · exact hr n h
  · exact hf a n h

theorem LimitFree.error {r : Except Failure α} {e : Failure} (hr : LimitFree r) (h : r = .error e) :
    LimitFree (.error e : Except Failure β) := by
  intro n heq
  cases heq
  exact hr n h

theorem LimitFree.mapM {f : α → Except Failure β} (hf : ∀ a, LimitFree (f a)) : ∀ xs : List α, LimitFree (xs.mapM f)
  | [] => limitFree_ok []
  | x :: xs => by
    rw [List.mapM_cons]
    exact (hf x).bind fun _ => (LimitFree.mapM hf xs).bind fun _ => limitFree_ok _

theorem LimitFree.unless {c : Prop} [Decidable c] {r : Except Failure Unit} {f : Unit → Except Failure α}
    (hr : LimitFree r) (hf : ∀ u, LimitFree (f u)) : LimitFree (if c then r >>= f else f ()) := by
  split
  · exact hr.bind hf
  · exact hf ()

theorem limitFree_itemAt (items : List α) (i : Nat) : LimitFree (itemAt items i) := by
  intro n h
  unfold itemAt orFail at h
  split at h <;> cases h

theorem limitFree_clash {r : Except Failure α} (h : ∀ {e}, r = .error e → e.IsClash) : LimitFree r := by
  intro n hn
  obtain ⟨c, contexts, heq⟩ := h hn
  cases heq

theorem LimitFree.withinClash {r : Except Failure α} (hr : LimitFree r) (context : Context) :
    LimitFree (Analysis.inContext (.withinClash context) r) := by
  intro n h
  cases r with
  | ok a => cases h
  | error e =>
    have he : e.withinClash context = .because (.notConverged n) := Except.error.inj h
    unfold Failure.withinClash at he
    split at he
    · cases he
    · exact hr n (congrArg Except.error he)

/-- Whatever an operator fails for, it is said that it did. -/
theorem limitFree_within (r : Except Failure α) (context : Context) :
    LimitFree (Analysis.inContext (.within context) r) := by
  intro n h
  cases r with
  | ok a => cases h
  | error e =>
    have he : e.within context = .because (.notConverged n) := Except.error.inj h
    unfold Failure.within at he
    split at he
    · cases he
    · rename_i hno
      exact hno _ _ he

end

namespace Analysis

/-! ### No step fails for a limit -/

theorem factOf_limitFree (a : Analysis) (j : Nat) : LimitFree (a.factOf j) :=
  (limitFree_itemAt a.edges j).bind fun e => limitFree_ok e.fact

theorem refinePairs_limitFree (a : Analysis) : ∀ (fs : List TensorFact) (js : List Nat), LimitFree (a.refinePairs fs js)
  | [], _ => limitFree_ok _
  | _ :: _, [] => limitFree_ok _
  | f :: fs, j :: js => by
    refine LimitFree.bind ?_ fun g => (limitFree_clash TensorFact.meet_error).bind fun m =>
      (refinePairs_limitFree a fs js).bind fun r => limitFree_ok _
    exact factOf_limitFree a j

theorem inferred_limitFree (a : Analysis) (n : Node) : LimitFree (a.inferred n) := by
  have hfacts (js : List Nat) : LimitFree (a.factsOf js) := LimitFree.mapM a.factOf_limitFree js
  have hports (js : List Nat) : LimitFree (a.haveOnePort js) := by
    refine (LimitFree.mapM (limitFree_itemAt a.edges) js).bind fun es => ?_
    split <;> exact limitFree_ok _
  have hmeet {fs : List TensorFact} {js : List Nat} (context : Context) :
      LimitFree (inContext (.withinClash context) (a.refinePairs fs js)) :=
    (refinePairs_limitFree a fs js).withinClash context
  unfold inferred
  simp only [refineEdges_eq]
  refine (limitFree_itemAt _ _).bind fun before => (limitFree_itemAt _ _).bind fun after =>
    (hports after).bind fun onePort => LimitFree.unless (fun _ h => nomatch h) fun _ =>
    (hfacts before).bind fun inputs => (hfacts after).bind fun outputs =>
    ((limitFree_clash TensorFact.meetAll_error).withinClash _).bind fun output =>
    (limitFree_within _ _).bind fun refined => ?_
  split
  · exact fun _ h => nomatch h
  · exact LimitFree.unless (fun _ h => nomatch h) fun _ =>
      (hmeet _).bind fun _ => (hmeet _).bind fun _ => limitFree_ok _

theorem step_limitFree (a : Analysis) : LimitFree a.step := by
  unfold step
  split
  · exact limitFree_ok _
  · refine LimitFree.bind ?_ fun x => limitFree_ok _
    refine LimitFree.bind ?_ fun n => (inferred_limitFree a n).bind fun r => limitFree_ok _
    exact (limitFree_itemAt _ _).bind fun i => limitFree_itemAt _ _

theorem steps_limitFree : ∀ (n : Nat) (a : Analysis), LimitFree (steps n a).1
  | 0, a => limitFree_ok false
  | n + 1, a => by
    unfold steps
    split
    · rename_i e hs
      exact (step_limitFree a).error hs
    · rename_i changed b hs
      have later := steps_limitFree n b
      split
      · exact limitFree_ok _
      · rename_i hr
        rwa [hr] at later

/-- **No round fails for a limit**, whatever operators fail for. -/
theorem round_limitFree (a : Analysis) : LimitFree a.round.1 := by
  have hpass (b : Analysis) : LimitFree b.pass.1 := steps_limitFree _ _
  have first := hpass { a with forward := true }
  unfold round
  split
  · rename_i hr
    rwa [hr] at first
  · rename_i changed b hr
    have second := hpass b
    split
    · rename_i hr'
      rwa [hr'] at second
    · exact limitFree_ok _

/-! ### No step reads the limit -/

/-- The analysis under another limit. -/
def limitedTo (a : Analysis) (limit : Option Nat) : Analysis := { a with roundLimit := limit }

/-- An outcome under another limit. -/
def outcomeUnder {α : Type} (limit : Option Nat) (x : Outcome α) : Outcome α := (x.1, x.2.limitedTo limit)

theorem inferred_limitedTo (a : Analysis) (limit : Option Nat) (n : Node) :
    (a.limitedTo limit).inferred n = a.inferred n := by
  simp only [inferred, refineEdges_eq, refinePairs_congr (a := a.limitedTo limit) (b := a) rfl]
  rfl

theorem moveOn_limitedTo (a : Analysis) (limit : Option Nat) :
    (a.limitedTo limit).moveOn = a.moveOn.limitedTo limit := by
  by_cases h : a.stepIndex + 1 = a.plan.length
  · rw [moveOn, moveOn, if_pos h]
    exact if_pos h
  · rw [moveOn, moveOn, if_neg h]
    exact if_neg h

theorem step_limitedTo (a : Analysis) (limit : Option Nat) :
    (a.limitedTo limit).step = a.step.map fun x => (x.1, x.2.limitedTo limit) := by
  have hnode : (a.limitedTo limit).currentNode = a.currentNode := rfl
  have hcommit (r : List (Nat × TensorFact)) :
      (a.limitedTo limit).commit r = ((a.commit r).1, (a.commit r).2.limitedTo limit) := rfl
  by_cases hempty : a.plan.isEmpty = true
  · rw [step, step, if_pos hempty]
    exact if_pos hempty
  · rw [step, step, if_neg hempty]
    refine (if_neg hempty).trans ?_
    simp only [refineNode, hnode, inferred_limitedTo, hcommit]
    cases a.currentNode with
    | error e => rfl
    | ok n =>
      simp only [ok_bind]
      cases a.inferred n with
      | error e => rfl
      | ok r => simp only [ok_bind, pure_eq_ok, moveOn_limitedTo, Except.map]

theorem steps_limitedTo (limit : Option Nat) : ∀ (n : Nat) (a : Analysis),
    steps n (a.limitedTo limit) = outcomeUnder limit (steps n a)
  | 0, a => rfl
  | n + 1, a => by
    rw [steps, steps, step_limitedTo]
    cases a.step with
    | error e => rfl
    | ok x =>
      simp only [Except.map, steps_limitedTo limit n x.2, outcomeUnder]
      cases steps n x.2 with
      | mk r b => cases r <;> rfl

/-- **A round is the same under any limit.** -/
theorem round_limitedTo (a : Analysis) (limit : Option Nat) :
    (a.limitedTo limit).round = outcomeUnder limit a.round := by
  have hpass (b : Analysis) : (b.limitedTo limit).pass = outcomeUnder limit b.pass :=
    steps_limitedTo limit b.plan.length { b with stepIndex := 0 }
  have hstart : { a.limitedTo limit with forward := true } = limitedTo { a with forward := true } limit := rfl
  rw [round, round, hstart, hpass]
  rcases pass { a with forward := true } with ⟨e | changed, b⟩
  · rfl
  · simp only [outcomeUnder, hpass]
    rcases b.pass with ⟨e | later, c⟩
    · rfl
    · rfl

theorem rounds_limitedTo (limit l : Option Nat) : ∀ (fuel done : Nat) (a : Analysis),
    rounds l fuel done (a.limitedTo limit) = outcomeUnder limit (rounds l fuel done a)
  | 0, _, a => rfl
  | fuel + 1, done, a => by
    rw [rounds, rounds, round_limitedTo]
    rcases a.round with ⟨e | _ | _, b⟩
    · rfl
    · rfl
    · simp only [outcomeUnder, rounds_limitedTo limit l fuel]
      split
      · rfl
      · rfl

/-! ### Rounds under a limit -/

/-- Rounds as in `rounds`, with their number. -/
def countedRounds (limit : Option Nat) : Nat → Nat → Analysis → Nat × Outcome Unit
  | 0, _, a => (0, .error .unsettled, a)
  | fuel + 1, done, a =>
    match a.round with
    | (.error e, a) => (1, .error e, a)
    | (.ok false, a) => (1, .ok (), a)
    | (.ok true, a) =>
      if limit.any (· ≤ done + 1) then (1, .error (.because (.notConverged (done + 1))), a)
      else
        let (made, x) := countedRounds limit fuel (done + 1) a
        (made + 1, x)

theorem countedRounds_snd (limit : Option Nat) : ∀ (fuel done : Nat) (a : Analysis),
    (countedRounds limit fuel done a).2 = rounds limit fuel done a
  | 0, _, _ => rfl
  | fuel + 1, done, a => by
    rw [countedRounds, rounds]
    rcases a.round with ⟨e | _ | _, b⟩
    · rfl
    · rfl
    · have tail := countedRounds_snd limit fuel (done + 1) b
      simp only
      split
      · rfl
      · exact tail

theorem countedRounds_le {limit : Nat} : ∀ {fuel done : Nat} {a : Analysis}, done < limit →
    done + (countedRounds (some limit) fuel done a).1 ≤ limit
  | 0, done, a, h => Nat.le_of_lt h
  | fuel + 1, done, a, h => by
    rw [countedRounds]
    rcases a.round with ⟨e | _ | _, b⟩
    · exact h
    · exact h
    · simp only
      split
      · exact h
      · rename_i hgo
        simp only [Option.any_some, decide_eq_true_eq, Nat.not_le] at hgo
        have tail : done + 1 + (countedRounds (some limit) fuel (done + 1) b).1 ≤ limit := countedRounds_le hgo
        simp only
        omega

theorem rounds_of_limit {limit : Nat} : ∀ {n fuel done : Nat} {a b : Analysis}, Changing (n + 1) a b → n < fuel →
    done + (n + 1) = limit → rounds (some limit) fuel done a = (.error (.because (.notConverged limit)), b)
  | _, 0, _, _, _, _, hf, _ => absurd hf (Nat.not_lt_zero _)
  | 0, fuel + 1, done, a, b, hb, _, hl => by
    obtain ⟨c, hc, rfl⟩ := hb
    subst hl
    simp [rounds, hc]
  | n + 1, fuel + 1, done, a, b, hb, hf, hl => by
    obtain ⟨c, hc, hb⟩ := hb
    have tail : rounds (some limit) fuel (done + 1) c = (.error (.because (.notConverged limit)), b) :=
      rounds_of_limit hb (Nat.lt_of_succ_lt_succ hf) (by omega)
    have hgo : ¬ ((some limit).any (· ≤ done + 1) = true) := by
      simp only [Option.any_some, decide_eq_true_eq]
      omega
    rw [rounds, hc]
    simp only [if_neg hgo, tail]

/-- A number of rounds all change something, or one of them ends a run. -/
theorem changing_or_endsWith : ∀ (n : Nat) (a : Analysis), (∃ b, Changing n a b) ∨
    ∃ k b x, k < n ∧ Changing k a b ∧ b.EndsWith x
  | 0, a => .inl ⟨a, rfl⟩
  | n + 1, a => by
    rcases a.endsWith_or_changes with ⟨x, hx⟩ | ⟨b, hb⟩
    · exact .inr ⟨0, a, x, Nat.succ_pos n, rfl, hx⟩
    · rcases changing_or_endsWith n b with ⟨c, hc⟩ | ⟨k, c, x, hk, hc, hx⟩
      · exact .inl ⟨c, b, hb, hc⟩
      · exact .inr ⟨k + 1, c, x, Nat.succ_lt_succ hk, ⟨b, hb, hc⟩, hx⟩

theorem not_changing_of_endsWith {x : Outcome Unit} : ∀ {k n : Nat} {a b c : Analysis}, Changing k a b → b.EndsWith x →
    k < n → ¬ Changing n a c
  | _, 0, _, _, _, _, _, hk, _ => absurd hk (Nat.not_lt_zero _)
  | 0, n + 1, a, b, c, hb, hx, _, hc => by
    obtain rfl : b = a := hb
    obtain ⟨d, hd, -⟩ := hc
    simp only [EndsWith, hd] at hx
  | k + 1, n + 1, a, b, c, hb, hx, hk, hc => by
    obtain ⟨d, hd, hb⟩ := hb
    obtain ⟨d', hd', hc⟩ := hc
    cases hd.symm.trans hd'
    exact not_changing_of_endsWith hb hx (Nat.lt_of_succ_lt_succ hk) hc

theorem Changing.unique : ∀ {n : Nat} {a b c : Analysis}, Changing n a b → Changing n a c → b = c
  | 0, _, _, _, hb, hc => by
    cases hb
    cases hc
    rfl
  | n + 1, _, _, _, ⟨d, hd, hb⟩, ⟨d', hd', hc⟩ => by
    cases hd.symm.trans hd'
    exact Changing.unique hb hc

theorem EndsWith.limitFree {a : Analysis} {x : Outcome Unit} (h : a.EndsWith x) : LimitFree x.1 := by
  have hround := a.round_limitFree
  unfold EndsWith at h
  split at h
  · rename_i hr
    rw [h]
    exact hround.error (congrArg Prod.fst hr)
  · rw [h]
    exact limitFree_ok ()
  · exact h.elim

/-- Under a limit that is positive, rounds come to it and say so, or end before as they
would without it. -/
theorem rounds_cases {limit : Nat} (hpos : 0 < limit) (a : Analysis) :
    (∃ b, Changing limit a b ∧ rounds (some limit) limit 0 a = (.error (.because (.notConverged limit)), b)) ∨
      ∃ n b x, n < limit ∧ Changing n a b ∧ b.EndsWith x ∧ rounds (some limit) limit 0 a = x := by
  rcases changing_or_endsWith limit a with ⟨b, hb⟩ | ⟨n, b, x, hn, hb, hx⟩
  · obtain ⟨m, rfl⟩ := Nat.exists_eq_succ_of_ne_zero (Nat.ne_of_gt hpos)
    exact .inl ⟨b, hb, rounds_of_limit hb (Nat.lt_succ_self m) (Nat.zero_add _)⟩
  · refine .inr ⟨n, b, x, hn, hb, hx, rounds_of_changing_within hb hx hn fun l hl => ?_⟩
    cases hl
    rwa [Nat.zero_add]

/-- **Rounds do not converge** exactly if as many change something as the limit says. -/
theorem rounds_eq_notConverged_iff {limit : Nat} (hpos : 0 < limit) {a b : Analysis} {n : Nat} :
    rounds (some limit) limit 0 a = (.error (.because (.notConverged n)), b) ↔ n = limit ∧ Changing limit a b := by
  rcases rounds_cases hpos a with ⟨c, hc, hr⟩ | ⟨k, c, x, hk, hc, hx, hr⟩
  · rw [hr]
    constructor
    · rintro ⟨⟩
      exact ⟨rfl, hc⟩
    · rintro ⟨rfl, hb⟩
      rw [hc.unique hb]
  · rw [hr]
    constructor
    · intro h
      exact absurd (congrArg Prod.fst h) (hx.limitFree n)
    · rintro ⟨-, hb⟩
      exact absurd hb (not_changing_of_endsWith hc hx hk)

theorem run_limitedTo (a : Analysis) (limit : Nat) : (a.limitedTo (some limit)).run =
    outcomeUnder (some limit) (rounds (some limit) limit 0 { a with passIndex := 0 }) :=
  rounds_limitedTo (some limit) (some limit) limit 0 { a with passIndex := 0 }

/-- **A limit only cuts a run short.** Take any analysis, of operators of any kind, and a
positive limit. A run under the limit makes at most that many rounds. It fails because it
did not converge exactly if each of the first rounds, up to the limit, changes something,
says so with the limit, and leaves the facts and the place after the last of them. Otherwise
a run without a limit fails or settles within as many rounds, and under the limit the
outcome is the same. -/
theorem limit_cuts (a : Analysis) {limit : Nat} (hpos : 0 < limit) :
    (∀ fuel, (countedRounds (some limit) fuel 0 { a with passIndex := 0 }).2 =
        rounds (some limit) fuel 0 { a with passIndex := 0 } ∧
      (countedRounds (some limit) fuel 0 { a with passIndex := 0 }).1 ≤ limit) ∧
    (∀ n c, (a.limitedTo (some limit)).run = (.error (.because (.notConverged n)), c) ↔
      n = limit ∧ ∃ b, Changing limit { a with passIndex := 0 } b ∧ c = b.limitedTo (some limit)) ∧
    ((∃ b, Changing limit { a with passIndex := 0 } b) ∨
      ∃ n b x, n < limit ∧ Changing n { a with passIndex := 0 } b ∧ b.EndsWith x ∧
        (∀ fuel, n < fuel → rounds none fuel 0 { a with passIndex := 0 } = x) ∧
        (a.limitedTo (some limit)).run = outcomeUnder (some limit) x) := by
  rw [run_limitedTo]
  generalize { a with passIndex := 0 } = a₀
  refine ⟨fun fuel => ?_, fun n c => ⟨fun h => ?_, ?_⟩, ?_⟩
  · have hle : 0 + (countedRounds (some limit) fuel 0 a₀).1 ≤ limit := countedRounds_le hpos
    rw [Nat.zero_add] at hle
    exact ⟨countedRounds_snd (some limit) fuel 0 a₀, hle⟩
  · rcases hr : rounds (some limit) limit 0 a₀ with ⟨r, b⟩
    rw [hr] at h
    cases h
    obtain ⟨hn, hb⟩ := (rounds_eq_notConverged_iff hpos).1 hr
    exact ⟨hn, b, hb, rfl⟩
  · rintro ⟨hn, b, hb, rfl⟩
    rw [(rounds_eq_notConverged_iff hpos).2 ⟨hn, hb⟩]
    rfl
  · rcases rounds_cases hpos a₀ with ⟨b, hb, -⟩ | ⟨n, b, x, hn, hb, hx, hr⟩
    · exact .inl ⟨b, hb⟩
    · exact .inr ⟨n, b, x, hn, hb, hx, fun fuel hf => rounds_of_changing hb hx hf, by rw [hr]⟩

/-- An operator whose output grows by a dimension whenever it is asked. -/
def growing : CustomOperator where
  typeName := "Growing"
  ownLabel := none
  stateless := true
  refine inputs output := .ok (inputs, some (.ofShape none (.starting (output.shape.dims ++ [.known 1]))))
  eval _ := .error (.because (.notEvaluable "Growing"))

/-- Of an operator that never comes to an end each round adds something, and a run under a
limit of three stops after the third. -/
theorem growing_cut : ∃ a b, start ⟨[⟨0, "x", "Growing", .custom growing, []⟩]⟩ 0 none = .ok a ∧
    Changing 3 { a with passIndex := 0 } b ∧
    (a.limitedTo (some 3)).run = (.error (.because (.notConverged 3)), b.limitedTo (some 3)) := by
  obtain ⟨a, b, hstart, hb⟩ : ∃ a b, start ⟨[⟨0, "x", "Growing", .custom growing, []⟩]⟩ 0 none = .ok a ∧
      Changing 3 { a with passIndex := 0 } b := ⟨_, _, rfl, _, rfl, _, rfl, _, rfl, rfl⟩
  obtain ⟨-, hiff, -⟩ := limit_cuts a (show 0 < 3 by decide)
  exact ⟨a, b, hstart, hb, (hiff 3 _).2 ⟨rfl, b, hb, rfl⟩⟩

/-! ### Runs that do not converge -/

theorem rounds_limitFree : ∀ (fuel done : Nat) (a : Analysis), LimitFree (rounds none fuel done a).1
  | 0, _, _ => fun _ h => nomatch h
  | fuel + 1, done, a => by
    rw [rounds]
    split
    · rename_i hr
      exact a.round_limitFree.error (congrArg Prod.fst hr)
    · exact limitFree_ok ()
    · exact rounds_limitFree fuel (done + 1) _

theorem RunInvariant.changing {P : Analysis → Prop} (hP : RunInvariant P) : ∀ {n : Nat} {a b : Analysis},
    WellFormed a → P a → Changing n a b → WellFormed b ∧ P b
  | 0, _, _, hw, h, hb => by
    cases hb
    exact ⟨hw, h⟩
  | n + 1, a, b, hw, h, hb => by
    obtain ⟨c, hc, hb⟩ := hb
    have hafter := hP.round hw h
    rw [hc] at hafter
    exact hP.changing hafter.1 hafter.2 hb

/-- A fixed point is what a round does not change. -/
theorem stable_iff {a : Analysis} (hw : WellFormed a) : a.Stable ↔ ∃ b, a.round = (.ok false, b) := by
  constructor
  · intro h
    obtain ⟨p, s, f, hr⟩ := round_of_stable hw h
    exact ⟨_, hr⟩
  · rintro ⟨b, hb⟩
    exact (round_unchanged hb).2

/-- A run that did not converge has made as many changing rounds as its limit says. -/
theorem changing_of_run {a b : Analysis} {n : Nat} (h : a.run = (.error (.because (.notConverged n)), b)) :
    a.roundLimit = some n ∧ Changing n { a with passIndex := 0 } b := by
  unfold run at h
  cases hl : a.roundLimit with
  | none =>
    rw [hl] at h
    exact absurd (congrArg Prod.fst h) (rounds_limitFree _ _ _ n)
  | some limit =>
    rw [hl, Option.getD_some] at h
    cases limit with
    | zero => cases h
    | succ limit =>
      obtain ⟨rfl, hb⟩ := (rounds_eq_notConverged_iff (Nat.succ_pos limit)).1 h
      exact ⟨rfl, hb⟩

theorem round_of_changing {n k : Nat} {a b c : Analysis} (hb : Changing n a b) (hc : Changing k a c) (hk : k < n) :
    ∃ d, c.round = (.ok true, d) := by
  rcases c.endsWith_or_changes with ⟨x, hx⟩ | hd
  · exact absurd hb (not_changing_of_endsWith hc hx hk)
  · exact hd

/-- What changing rounds come to is a fixed point exactly if a run with one round more
settles, which then finds out nothing new. -/
theorem settles_iff {a b : Analysis} {n : Nat} (hw : WellFormed b) (hb : Changing n { a with passIndex := 0 } b) :
    (b.Stable ↔ ∃ c, (a.limitedTo (some (n + 1))).run = (.ok (), c)) ∧
      ∀ c, (a.limitedTo (some (n + 1))).run = (.ok (), c) → c.edges = b.edges := by
  rw [run_limitedTo]
  rcases b.endsWith_or_changes with ⟨x, hx⟩ | ⟨d, hd⟩
  · have hr : rounds (some (n + 1)) (n + 1) 0 { a with passIndex := 0 } = x :=
      rounds_of_changing_within hb hx (Nat.lt_succ_self n) fun l hl => by
        cases hl
        omega
    -- it settles in the last round, if that changes nothing, and there alone
    have hsettles {c : Analysis} (hc : outcomeUnder (some (n + 1)) x = (.ok (), c)) : b.Stable ∧ c.edges = b.edges := by
      obtain ⟨r, d⟩ := x
      cases hc
      obtain ⟨⟨p, s, f, rfl⟩, hstable⟩ := round_unchanged (endsWith_ok_iff.1 hx)
      exact ⟨hstable, rfl⟩
    rw [hr]
    refine ⟨⟨fun hstable => ?_, fun ⟨c, hc⟩ => (hsettles hc).1⟩, fun c hc => (hsettles hc).2⟩
    obtain ⟨d, hd⟩ := (stable_iff hw).1 hstable
    simp only [EndsWith, hd] at hx
    subst hx
    exact ⟨_, rfl⟩
  · rw [(rounds_eq_notConverged_iff (Nat.succ_pos n)).2 ⟨rfl, changing_succ hb hd⟩]
    refine ⟨⟨fun hstable => ?_, fun ⟨c, hc⟩ => nomatch hc⟩, fun c hc => nomatch hc⟩
    obtain ⟨e, he⟩ := (stable_iff hw).1 hstable
    cases hd.symm.trans he

/-- **What it means that a run did not converge.** Take an analysis of a model of any
operators after any calls, and a run that fails because it did not converge in some number
of rounds. This is its limit, and each of the rounds changed something, so nothing that it
came to before the last of them was a fixed point. What it came to then is one, which is to
say that one more round changes nothing, if and only if a run under a limit that is greater
by one settles, and this with the same facts. -/
theorem limit_reached {model : Model} {output : Int} {limit : Option Nat} {start : Analysis}
    (hstart : Analysis.start model output limit = .ok start) (xs : List Call) {n : Nat} {b : Analysis}
    (h : (start.afterCalls xs).run = (.error (.because (.notConverged n)), b)) :
    (start.afterCalls xs).roundLimit = some n ∧
    Changing n { start.afterCalls xs with passIndex := 0 } b ∧
    (∀ k c, k < n → Changing k { start.afterCalls xs with passIndex := 0 } c →
      (∃ d, c.round = (.ok true, d)) ∧ ¬ c.Stable) ∧
    (b.Stable ↔ ∃ c, b.round = (.ok false, c)) ∧
    (b.Stable ↔ ∃ c, ((start.afterCalls xs).limitedTo (some (n + 1))).run = (.ok (), c)) ∧
    ∀ c, ((start.afterCalls xs).limitedTo (some (n + 1))).run = (.ok (), c) → c.edges = b.edges := by
  have hw : WellFormed (start.afterCalls xs) := afterCalls_wellFormed (start_spec hstart).1 xs
  generalize start.afterCalls xs = a at hw h ⊢
  obtain ⟨hlimit, hb⟩ := changing_of_run h
  have hw₀ : WellFormed { a with passIndex := 0 } := movedTo_wellFormed (p := 0) (f := a.forward) hw hw.stepIndex_lt
  have hwell {k : Nat} {c : Analysis} (hc : Changing k { a with passIndex := 0 } c) : WellFormed c :=
    (graphInvariant_true.runInvariant.changing hw₀ trivial hc).1
  refine ⟨hlimit, hb, fun k c hk hc => ?_, stable_iff (hwell hb), settles_iff (hwell hb) hb⟩
  obtain ⟨d, hd⟩ := round_of_changing hb hc hk
  refine ⟨⟨d, hd⟩, fun hstable => ?_⟩
  obtain ⟨e, he⟩ := (stable_iff (hwell hc)).1 hstable
  cases hd.symm.trans he

/-- A constant. -/
def lone : Model := ⟨[⟨0, "c", "Const", .const (integerPair 1 2), []⟩]⟩

/-- What is known of a constant is a fixed point after one round, and a run under a limit of
two rounds settles. -/
theorem lone_settles : ∃ a b c, start lone 0 (some 1) = .ok a ∧
    (a.afterCalls []).run = (.error (.because (.notConverged 1)), b) ∧ b.Stable ∧
    ((a.afterCalls []).limitedTo (some 2)).run = (.ok (), c) ∧ c.edges = b.edges := by
  obtain ⟨a, b, d, hstart, hrun, hround⟩ : ∃ a b d, start lone 0 (some 1) = .ok a ∧
      (a.afterCalls []).run = (.error (.because (.notConverged 1)), b) ∧ b.round = (.ok false, d) :=
    ⟨_, _, _, rfl, rfl, rfl⟩
  obtain ⟨-, -, -, hstable, hsettles, hedges⟩ := limit_reached hstart [] hrun
  have hb : b.Stable := hstable.2 ⟨d, hround⟩
  obtain ⟨c, hc⟩ := hsettles.1 hb
  exact ⟨a, b, c, hstart, hrun, hb, hc, hedges c hc⟩

/-- A run under a limit of one round fails, though what it comes to is a fixed point: one more
round changes nothing. -/
theorem constant_not_converged : ∃ a b c, start lone 0 (some 1) = .ok a ∧
    a.run = (.error (.because (.notConverged 1)), b) ∧ b.round = (.ok false, c) ∧ c.edges = b.edges :=
  ⟨_, _, _, rfl, rfl, rfl, rfl⟩

end Analysis

end EdgeFacts
