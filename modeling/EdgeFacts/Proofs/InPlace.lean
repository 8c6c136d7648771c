/-
# Failed operations write nothing

The operations of an analysis return a new state or a failure. Here hints, steps
and folds of a node are written as programs that change the analysis in place, one
edge, one end of an edge, one list, one counter at a time, where what is written
before a failure stays (`InPlace`). Each writes a fact only after all of its
inferences and meets have succeeded, and from then on nothing can fail: the edges to
be written exist, and an edge that is detached is listed at its source
(`InPlace.mem_outgoing`). So the programs do what the operations do, and where they
fail they leave the analysis as it was (`Analysis.failed_unchanged`).

Key definitions: `InPlace`, `InPlace.outcome`, `Action.program?`.
Key theorems: `InPlace.outcome_commitEach`, `InPlace.outcome_detachEach`,
`Action.program_outcome`, `Analysis.failed_unchanged`.
-/
import EdgeFacts.Proofs.Consistent

namespace EdgeFacts

open Analysis

/-! ### Programs -/

/-- A program that reads and writes an analysis. What it has written stays if it fails. -/
abbrev InPlace (α : Type) := ExceptT Failure (StateM Analysis) α

namespace InPlace

variable {α β : Type}

/-- The result or failure of a program, and the analysis it leaves. -/
def outcome (p : InPlace α) (a : Analysis) : Outcome α := (p.run.run a).run

/-- Reads what may not be there. -/
def look (f : Analysis → Except Failure α) : InPlace α := do
  MonadExcept.ofExcept (f (← get))

/-- Writes to the analysis. -/
def write (f : Analysis → Analysis) : InPlace Unit := modify f

theorem outcome_pure (x : α) (a : Analysis) : (pure x : InPlace α).outcome a = (.ok x, a) := rfl

theorem outcome_bind (p : InPlace α) (k : α → InPlace β) (a : Analysis) :
    (p >>= k).outcome a = match p.outcome a with
      | (.ok x, b) => (k x).outcome b
      | (.error e, b) => (.error e, b) := by
  simp only [outcome, ExceptT.run_bind, StateT.run_bind]
  rcases p.run.run a with ⟨_ | _, _⟩ <;> rfl

theorem outcome_look (f : Analysis → Except Failure α) (a : Analysis) : (look f).outcome a = (f a, a) := by
  change (MonadExcept.ofExcept (f a) : InPlace α).outcome a = _
  cases f a <;> rfl

theorem outcome_write (f : Analysis → Analysis) (a : Analysis) : (write f).outcome a = (.ok (), f a) := rfl

/-! ### Facts are put on edges -/

/-- Puts facts on edges one after the other, and tells whether one of them says something new. -/
def commitEach : List (Nat × TensorFact) → InPlace Bool
  | [] => pure false
  | (j, fact) :: rest => do
    let e ← look fun a => itemAt a.edges j
    if fact.same e.fact then commitEach rest
    else
      write fun a => { a with edges := a.edges.set j { e with fact } }
      let _ ← commitEach rest
      return true

/-- **A commit to edges that exist does not fail.** -/
theorem outcome_commitEach : ∀ {r : List (Nat × TensorFact)} {a : Analysis}, (∀ p ∈ r, p.1 < a.edges.length) →
    (commitEach r).outcome a = (.ok (a.commit r).1, (a.commit r).2)
  | [], _, _ => rfl
  | (j, fact) :: rest, a, h => by
    obtain ⟨e, he⟩ : ∃ e, a.edges[j]? = some e := ⟨_, List.getElem?_eq_getElem (h _ (.head _))⟩
    have hrest : ∀ p ∈ rest, p.1 < a.edges.length := fun p hp => h p (.tail _ hp)
    rw [commitEach, outcome_bind, outcome_look, itemAt_eq_ok_iff.2 he]
    dsimp only
    split
    · rename_i hsame
      rw [outcome_commitEach hrest]
      simp only [commit, commitEdges, he, hsame, if_true]
    · rename_i hnew
      simp only [outcome_bind, outcome_write, outcome_pure]
      rw [outcome_commitEach fun p hp => Nat.lt_of_lt_of_eq (hrest p hp) List.length_set.symm]
      simp only [commit, commitEdges, he, if_neg hnew]

/-- What is met with the facts on edges goes to edges that exist. -/
theorem lt_of_combined {a : Analysis} {xs : List (TensorFact × Nat)} {r : List (Nat × TensorFact)}
    (h : List.Forall₂ (Combined a) xs r) : ∀ p ∈ r, p.1 < a.edges.length := by
  refine forall_of_forall₂ h fun x p ⟨hkey, g, hg, _⟩ => ?_
  obtain ⟨e, he, -⟩ := factOf_eq_ok_iff.1 hg
  exact hkey ▸ (List.getElem?_eq_some_iff.1 he).1

theorem lt_of_refineEdges {a : Analysis} {fact : TensorFact} {js : List Nat} {r : List (Nat × TensorFact)}
    (h : a.refineEdges fact js = .ok r) : ∀ p ∈ r, p.1 < a.edges.length := by
  rw [refineEdges_eq, refinePairs_eq_ok_iff] at h
  exact lt_of_combined h

/-! ### Hints -/

/-- Meets the facts on the edges out of a node with a fact, all of them before one is
written, and gives the index of the node. -/
def tell (node : Int) (fact : TensorFact) : InPlace Nat := do
  let i ← look (·.nodeIndex node)
  let js ← look fun a => itemAt a.outgoing i
  let refined ← look (·.refineEdges fact js)
  let _ ← commitEach refined
  return i

/-- Adds a fact about the output of a node. -/
def hint (node : Int) (fact : TensorFact) : InPlace Unit := do
  let _ ← tell node fact

/-- Adds a fact about the output of the first node with the given name. -/
def hintByName (name : String) (fact : TensorFact) : InPlace Unit := do
  match ← look fun a => .ok (a.nodes.find? (·.name = name)) with
  | some n => hint n.id fact
  | none => throw (.because (.noNodeNamed name))

/-- The outcome of an operation that fails as a whole. -/
def asWhole (a : Analysis) : Except Failure (α × Analysis) → Outcome α
  | .ok (x, b) => (.ok x, b)
  | .error e => (.error e, a)

theorem outcome_tell (node : Int) (fact : TensorFact) (a : Analysis) :
    (tell node fact).outcome a = asWhole a do
      let i ← a.nodeIndex node
      let refined ← a.refineEdges fact (← itemAt a.outgoing i)
      return (i, (a.commit refined).2) := by
  simp only [tell, outcome_bind, outcome_look, outcome_pure]
  cases a.nodeIndex node with
  | error e => rfl
  | ok i =>
    cases hjs : itemAt a.outgoing i with
    | error e => simp only [ok_bind, hjs]; rfl
    | ok js =>
      cases hr : a.refineEdges fact js with
      | error e => simp only [ok_bind, hjs, hr]; rfl
      | ok refined =>
        simp only [ok_bind, hjs, hr, outcome_commitEach (lt_of_refineEdges hr)]
        rfl

theorem outcome_hint (node : Int) (fact : TensorFact) (a : Analysis) :
    (hint node fact).outcome a = a.orStay (a.hint node fact) := by
  simp only [hint, outcome_bind, outcome_tell, outcome_pure, Analysis.hint]
  cases a.nodeIndex node with
  | error e => rfl
  | ok i =>
    simp only [ok_bind]
    cases itemAt a.outgoing i with
    | error e => rfl
    | ok js =>
      simp only [ok_bind]
      cases a.refineEdges fact js <;> rfl

theorem outcome_hintByName (name : String) (fact : TensorFact) (a : Analysis) :
    (hintByName name fact).outcome a = a.orStay (a.hintByName name fact) := by
  simp only [hintByName, outcome_bind, outcome_look, Analysis.hintByName]
  cases a.nodes.find? (·.name = name) with
  | none => rfl
  | some n => exact outcome_hint n.id fact a

/-! ### Steps -/

/-- Moves on to the next node; at the end of the plan the direction turns. -/
def moveOn : InPlace Unit := do
  write fun a => { a with stepIndex := a.stepIndex + 1 }
  if ← look fun a => .ok (a.stepIndex == a.plan.length) then
    write fun a => { a with passIndex := a.passIndex + 1 }
    write fun a => { a with forward := !a.forward }
    write fun a => { a with stepIndex := 0 }

/-- One step of the analysis. -/
def step : InPlace Bool := do
  if ← look fun a => .ok a.plan.isEmpty then return false
  let refined ← look fun a => do a.inferred (← a.currentNode)
  let changed ← commitEach refined
  moveOn
  return changed

theorem outcome_moveOn (a : Analysis) : moveOn.outcome a = (.ok (), a.moveOn) := by
  simp only [moveOn, outcome_bind, outcome_write, outcome_look, Analysis.moveOn, beq_iff_eq]
  split <;> rfl

theorem outcome_step (a : Analysis) : step.outcome a = asWhole a a.step := by
  simp only [step, outcome_bind, outcome_look, Analysis.step, refineNode]
  cases a.plan.isEmpty with
  | true => rfl
  | false =>
    simp only [Bool.false_eq_true, if_false, outcome_bind, outcome_look]
    cases a.currentNode with
    | error e => rfl
    | ok n =>
      simp only [ok_bind]
      cases hr : a.inferred n with
      | error e => rfl
      | ok refined =>
        obtain ⟨s⟩ := inferred_eq_ok_iff.1 hr
        simp only [outcome_commitEach (lt_of_combined s.combined), outcome_moveOn, outcome_pure]
        rfl

/-! ### Folds -/

/-- Takes an edge from the list of the edges out of a node, where it must be. -/
def unlist (j p : Nat) : InPlace Unit := do
  let js ← look fun a => itemAt a.outgoing p
  if js.contains j then write fun a => { a with outgoing := a.outgoing.set p (js.erase j) }
  else throw (.primitive .mismatch)

/-- Detaches edges one after the other: from the list of the source, then from both ends. -/
def detachEach : List Nat → InPlace Unit
  | [] => pure ()
  | j :: rest => do
    match (← look fun a => itemAt a.edges j).source with
    | some p => unlist j p
    | none => pure ()
    write fun a => { a with edges := a.edges.modify j fun e => { e with source := none } }
    write fun a => { a with edges := a.edges.modify j fun e => { e with target := none } }
    detachEach rest

/-- Turns a node into a constant and detaches the edges into it. -/
def foldNode (node : Int) (value : Tensor) : InPlace Unit := do
  let i ← tell node (.ofTensor value)
  let target := (← look fun a => itemAt a.nodes i).id.toNat
  detachEach (← look fun a => itemAt a.incoming target)
  write fun a => { a with incoming := a.incoming.set target [] }
  write fun a => { a with nodes := a.nodes.modify i fun n => { n with inputs := [] } }
  write fun a => { a with nodes := a.nodes.modify i fun n => { n with op := .const value } }
  write fun a => { a with nodes := a.nodes.modify i fun n => { n with label := (Operator.const value).label } }

/-- Whether the sources of edges are nodes. -/
def Sourced (a : Analysis) : Prop := ∀ e ∈ a.edges, ∀ p, e.source = some p → p < a.nodes.length

theorem mem_outgoing {a : Analysis} (h : Traced a) (hs : Sourced a) {j p : Nat} {e : Edge}
    (he : a.edges[j]? = some e) (hp : e.source = some p) : ∃ js, a.outgoing[p]? = some js ∧ j ∈ js := by
  have hmem := List.mem_of_getElem? he
  have hlt := hs e hmem p hp
  refine ⟨(a.edges.filter fun e => e.source = some p).map Edge.id, by simp [h.outgoing, outgoingOf, hlt], ?_⟩
  rw [← h.edgeIds j e he]
  exact List.mem_map_of_mem (List.mem_filter.2 ⟨hmem, decide_eq_true hp⟩)

theorem sourced_detachAll {a : Analysis} (h : Sourced a) (js : List Nat) : Sourced (a.detachAll js) := by
  intro d hd p hp
  obtain ⟨e, he, rfl⟩ := List.mem_map.1 hd
  unfold cutIds at hp
  split at hp
  · cases hp
  · exact h e he p hp

theorem outcome_unlist {a : Analysis} {j p : Nat} {js : List Nat} (hjs : a.outgoing[p]? = some js) (hj : j ∈ js) :
    (unlist j p).outcome a = (.ok (), { a with outgoing := a.outgoing.modify p (·.erase j) }) := by
  have hmodify : a.outgoing.modify p (·.erase j) = a.outgoing.set p (js.erase j) := by
    rw [List.modify_eq_set_getElem?, hjs]
    rfl
  simp only [unlist, outcome_bind, outcome_look, itemAt_eq_ok_iff.2 hjs, List.contains_iff_mem, hj, if_true,
    outcome_write, hmodify]

/-- **To detach an edge does not fail**, and so not to detach others after it. -/
theorem outcome_detachEach : ∀ {js : List Nat} {a : Analysis}, Traced a → Sourced a →
    (∀ j ∈ js, j < a.edges.length) → (detachEach js).outcome a = (.ok (), js.foldl detach a)
  | [], _, _, _, _ => rfl
  | j :: js, a, h, hs, hlt => by
    obtain ⟨e, he⟩ : ∃ e, a.edges[j]? = some e := ⟨_, List.getElem?_eq_getElem (hlt _ (.head _))⟩
    have hrest : (detachEach js).outcome (a.detach j) = (.ok (), js.foldl detach (a.detach j)) := by
      rw [h.detach j]
      refine outcome_detachEach (h.detachAll [j]) (sourced_detachAll hs [j]) fun k hk => ?_
      exact Nat.lt_of_lt_of_eq (hlt k (.tail _ hk)) (List.length_map ..).symm
    have hends : (a.edges.modify j fun e => { e with source := none }).modify j (fun e => { e with target := none }) =
        a.edges.set j e.detached := by
      rw [List.modify_modify_eq, List.modify_eq_set_getElem?, he]
      rfl
    rw [List.foldl_cons, ← hrest, detachEach, outcome_bind, outcome_look, itemAt_eq_ok_iff.2 he]
    dsimp only
    cases hp : e.source with
    | none =>
      simp only [outcome_bind, outcome_write, hends, detach, he, hp]
    | some p =>
      obtain ⟨ids, hids, hj⟩ := mem_outgoing h hs he hp
      simp only [outcome_unlist hids hj, outcome_bind, outcome_write, hends, detach, he, hp]

theorem lt_of_mem_edgesInto {a : Analysis} (hl : Linked a) {i j : Nat} (hj : j ∈ (a.edgesInto i).map Edge.id) :
    j < a.edges.length := by
  obtain ⟨e, he, rfl⟩ := List.mem_map.1 hj
  exact (List.getElem?_eq_some_iff.1 (hl.getElem?_id (mem_edgesInto.1 he).1)).1

theorem outcome_foldNode {a : Analysis} (hl : Linked a) (node : Int) (value : Tensor) :
    (foldNode node value).outcome a = a.orStay (a.foldNode node value) := by
  simp only [foldNode, outcome_bind, outcome_tell, outcome_look, outcome_write, Analysis.foldNode]
  cases hi : a.nodeIndex node with
  | error e => rfl
  | ok i =>
    simp only [ok_bind]
    cases itemAt a.outgoing i with
    | error e => rfl
    | ok js =>
      simp only [ok_bind]
      cases a.refineEdges (.ofTensor value) js with
      | error e => rfl
      | ok r =>
        -- the fact is written, and from here on nothing fails
        have hlb : Linked (a.commit r).2 := (commit_sameGraph a r).linked hl
        have hlt : i < (a.commit r).2.nodes.length := (nodeIndex_eq_ok_iff.1 hi).2
        obtain ⟨n, hn⟩ : ∃ n, (a.commit r).2.nodes[i]? = some n := ⟨_, List.getElem?_eq_getElem hlt⟩
        have hid : n.id.toNat = i := by rw [hlb.ids i n hn, Int.toNat_natCast]
        simp only [ok_bind, pure_eq_ok, asWhole, itemAt_eq_ok_iff.2 hn, hid,
          itemAt_eq_ok_iff.2 (hlb.incoming_getElem? hlt),
          outcome_detachEach hlb.traced hlb.source_lt fun j hj => lt_of_mem_edgesInto hlb hj,
          List.modify_modify_eq]
        rfl

end InPlace

/-! ### Operations as programs -/

/-- A hint, a step or the fold of a node, as a program that writes one thing at a time. -/
def Action.program? : Action → Option (InPlace Unit)
  | .hint node fact => some (InPlace.hint node fact)
  | .hintByName name fact => some (InPlace.hintByName name fact)
  | .step => some do let _ ← InPlace.step
  | .foldNode node value => some (InPlace.foldNode node value)
  | _ => none

variable {x : Action} {p : InPlace Unit}

/-- **The programs do what the operations do.** -/
theorem Action.program_outcome {a : Analysis} (hl : Linked a) (hp : x.program? = some p) :
    p.outcome a = a.outcome x := by
  cases x with
  | hint node fact =>
    cases hp
    exact InPlace.outcome_hint node fact a
  | hintByName name fact =>
    cases hp
    exact InPlace.outcome_hintByName name fact a
  | step =>
    cases hp
    rw [InPlace.outcome_bind, InPlace.outcome_step, Analysis.outcome]
    cases a.step <;> rfl
  | foldNode node value =>
    cases hp
    exact InPlace.outcome_foldNode hl node value
  | _ => cases hp

theorem Analysis.orStay_error {a : Analysis} {r : Except Failure Analysis} {e : Failure}
    (h : (a.orStay r).1 = .error e) : (a.orStay r).2 = a := by
  cases r with
  | ok b => cases h
  | error e => rfl

/-- An operation that has a program leaves the analysis as it is where it fails. -/
theorem Action.outcome_error (hp : x.program? = some p) {a : Analysis} {e : Failure}
    (h : (a.outcome x).1 = .error e) : (a.outcome x).2 = a := by
  cases x with
  | hint | hintByName | step | foldNode => exact orStay_error h
  | _ => cases hp

/-- **Failed operations leave everything as it was.** Take an analysis of a model of any
operators, which may infer anything or fail, after any calls that succeed or fail. A
hint, a step or the fold of a node that changes it in place, one thing at a time, does
what the operation does; and if it fails, at whichever inference or meet, all facts
and ends of edges, nodes, lists of edges, the plan and the place in it are the same as
before. -/
theorem Analysis.failed_unchanged {model : Model} {output : Int} {limit : Option Nat} {start : Analysis}
    (hstart : Analysis.start model output limit = .ok start) (xs : List Call) (hp : x.program? = some p) :
    p.outcome (start.afterCalls xs) = (start.afterCalls xs).outcome x ∧
      ∀ e b, p.outcome (start.afterCalls xs) = (.error e, b) → b = start.afterCalls xs := by
  have hw : WellFormed (start.afterCalls xs) := afterCalls_wellFormed (start_spec hstart).1 xs
  have heq := Action.program_outcome hw.toLinked hp
  refine ⟨heq, fun e b hb => ?_⟩
  rw [heq] at hb
  have hstays := Action.outcome_error hp (congrArg Prod.fst hb)
  rwa [hb] at hstays

/-- After hints about a pair and its positive part that differ in shape, the step of the
positive part fails, and so does the fold of the pair to another one; both leave the
analysis as it was. -/
theorem Analysis.positivePart_unchanged : ∃ a p q e b e' b', start positivePart 1 none = .ok a ∧
    Action.step.program? = some p ∧ (Action.foldNode 0 (integerPair 3 3)).program? = some q ∧
    p.outcome (a.afterCalls [.act (.hint 0 (.ofTensor (integerPair 3 (-1)))),
      .act (.hint 1 (.ofShape none (.closed [.known 3]))), .act .step]) = (.error e, b) ∧
    b = a.afterCalls [.act (.hint 0 (.ofTensor (integerPair 3 (-1)))),
      .act (.hint 1 (.ofShape none (.closed [.known 3]))), .act .step] ∧
    q.outcome (a.afterCalls [.act (.hint 0 (.ofTensor (integerPair 3 (-1))))]) = (.error e', b') ∧
    b' = a.afterCalls [.act (.hint 0 (.ofTensor (integerPair 3 (-1))))] := by
  obtain ⟨a, p, q, e, b, e', b', hstart, hp, hq, hstep, hfold⟩ : ∃ a p q e b e' b',
      start positivePart 1 none = .ok a ∧
      Action.step.program? = some p ∧ (Action.foldNode 0 (integerPair 3 3)).program? = some q ∧
      p.outcome (a.afterCalls [.act (.hint 0 (.ofTensor (integerPair 3 (-1)))),
        .act (.hint 1 (.ofShape none (.closed [.known 3]))), .act .step]) = (.error e, b) ∧
      q.outcome (a.afterCalls [.act (.hint 0 (.ofTensor (integerPair 3 (-1))))]) = (.error e', b') :=
    ⟨_, _, _, _, _, _, _, rfl, rfl, rfl, rfl, rfl⟩
  exact ⟨a, p, q, e, b, e', b', hstart, hp, hq, hstep, (failed_unchanged hstart _ hp).2 e b hstep, hfold,
    (failed_unchanged hstart _ hq).2 e' b' hfold⟩

end EdgeFacts
