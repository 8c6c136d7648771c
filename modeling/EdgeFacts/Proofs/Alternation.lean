/-
# Passes alternate

Where an analysis stands after some steps depends on their number alone: it goes
through the plan again and again, turns at the end of each pass, and counts the
passes (`Analysis.Advanced`). So the node that the k-th of them visits can be told
before they are taken (`Analysis.nodeDue`). A round starts over at the front of
the plan, wherever the analysis stands; it consists of as many steps as the plan
has nodes, twice over, which visit the plan and then the plan backwards
(`Analysis.round_eq_ok_iff`).

What steps show is written down as they are taken (`Analysis.walk`): the node, and
whether a fact is another one afterwards.

Key definitions: `Analysis.Advanced`, `Analysis.nodeDue`, `Analysis.walk`.
Key theorems: `Analysis.Advanced.trans`, `Analysis.walk_spec`, `Analysis.round_eq_ok_iff`,
`Analysis.steps_alternate`.
-/
import Mathlib.Logic.Function.Iterate
import EdgeFacts.Proofs.Gain

namespace EdgeFacts

/-- What one step shows: the node that it visits, and whether a fact changes. -/
structure StepRecord where
  node : Node
  changed : Bool

namespace Analysis

/-! ### The place after some steps -/

/-- How often the direction turns in some number of steps. -/
def turnsAfter (a : Analysis) (n : Nat) : Nat := (a.stepIndex + n) / a.plan.length

/-- The step of its pass at which an analysis stands after some number of steps. -/
def stepIndexAfter (a : Analysis) (n : Nat) : Nat := (a.stepIndex + n) % a.plan.length

/-- The direction after some number of steps. -/
def forwardAfter (a : Analysis) (n : Nat) : Bool := not^[a.turnsAfter n] a.forward

/-- Whether an analysis stands where another comes to in some number of steps. -/
structure Advanced (a : Analysis) (n : Nat) (b : Analysis) : Prop where
  plan : b.plan = a.plan
  stepIndex : b.stepIndex = a.stepIndexAfter n
  passIndex : b.passIndex = a.passIndex + a.turnsAfter n
  forward : b.forward = a.forwardAfter n

/-- The node that is visited after some number of steps, counted from the front of
the plan in a pass forwards and from its back in a pass backwards. -/
def nodeDue (a : Analysis) (n : Nat) : Option Node :=
  (a.plan[placeOf (a.forwardAfter n) a.plan.length (a.stepIndexAfter n)]?).bind (a.nodes[·]?)

namespace Advanced

variable {a b c : Analysis} {m n : Nat}

theorem turnsAfter_add (h : Advanced a m b) (n : Nat) : a.turnsAfter (m + n) = b.turnsAfter n + a.turnsAfter m := by
  rw [turnsAfter, turnsAfter, turnsAfter, h.plan, h.stepIndex, stepIndexAfter, ← Nat.add_assoc]
  rcases Nat.eq_zero_or_pos a.plan.length with hzero | hpos
  · simp [hzero]
  · conv_lhs => rw [← Nat.mod_add_div (a.stepIndex + m) a.plan.length, Nat.add_right_comm,
      Nat.add_mul_div_left _ _ hpos]

theorem stepIndexAfter_add (h : Advanced a m b) (n : Nat) : a.stepIndexAfter (m + n) = b.stepIndexAfter n := by
  rw [stepIndexAfter, stepIndexAfter, h.plan, h.stepIndex, stepIndexAfter, Nat.mod_add_mod, Nat.add_assoc]

theorem forwardAfter_add (h : Advanced a m b) (n : Nat) : a.forwardAfter (m + n) = b.forwardAfter n := by
  rw [forwardAfter, forwardAfter, h.forward, forwardAfter, h.turnsAfter_add n, Function.iterate_add_apply]

theorem trans (h : Advanced a m b) (k : Advanced b n c) : Advanced a (m + n) c where
  plan := k.plan.trans h.plan
  stepIndex := by rw [k.stepIndex, h.stepIndexAfter_add]
  passIndex := by rw [k.passIndex, h.passIndex, h.turnsAfter_add, Nat.add_assoc, Nat.add_comm (a.turnsAfter m)]
  forward := by rw [k.forward, h.forwardAfter_add]

theorem nodeDue_add (h : Advanced a m b) (hnodes : b.nodes = a.nodes) (n : Nat) :
    a.nodeDue (m + n) = b.nodeDue n := by
  rw [nodeDue, nodeDue, h.stepIndexAfter_add, h.forwardAfter_add, h.plan, hnodes]

end Advanced

section

variable {a : Analysis} (hlt : a.stepIndex < a.plan.length)
include hlt

theorem advanced_refl : Advanced a 0 a where
  plan := rfl
  stepIndex := (Nat.mod_eq_of_lt hlt).symm
  passIndex := by rw [turnsAfter, Nat.add_zero, Nat.div_eq_of_lt hlt, Nat.add_zero]
  forward := by rw [forwardAfter, turnsAfter, Nat.add_zero, Nat.div_eq_of_lt hlt, Function.iterate_zero_apply]

theorem advanced_moveOn : Advanced a 1 a.moveOn := by
  have hpos : 0 < a.plan.length := Nat.lt_of_le_of_lt (Nat.zero_le _) hlt
  unfold moveOn
  split
  · rename_i hlast
    have hturns : a.turnsAfter 1 = 1 := by rw [turnsAfter, hlast, Nat.div_self hpos]
    refine ⟨rfl, ?_, by rw [hturns], ?_⟩
    · rw [stepIndexAfter, hlast, Nat.mod_self]
    · rw [forwardAfter, hturns, Function.iterate_one]
  · rename_i hlast
    have hnext : a.stepIndex + 1 < a.plan.length := by omega
    have hturns : a.turnsAfter 1 = 0 := Nat.div_eq_of_lt hnext
    refine ⟨rfl, ?_, ?_, ?_⟩
    · rw [stepIndexAfter, Nat.mod_eq_of_lt hnext]
    · rw [hturns]
      rfl
    · rw [forwardAfter, hturns, Function.iterate_zero_apply]

theorem nodeDue_zero : a.nodeDue 0 = (a.plan[a.place]?).bind (a.nodes[·]?) := by
  have hhere := advanced_refl hlt
  rw [nodeDue, ← hhere.stepIndex, ← hhere.forward]
  rfl

end

/-! ### Steps one after the other -/

/-- Whether some edge carries another fact than before. -/
def tellsNew (a b : Analysis) : Bool := (a.edges.zip b.edges).any fun p => !p.2.fact.same p.1.fact

/-- A number of steps one after the other, with what each of them shows. -/
def walk : Nat → Analysis → Except Failure (List StepRecord × Analysis)
  | 0, a => .ok ([], a)
  | n + 1, a => do
    let node ← a.currentNode
    let (_, b) ← a.step
    let (records, c) ← walk n b
    return (⟨node, a.tellsNew b⟩ :: records, c)

theorem walk_succ_eq_ok_iff {a c : Analysis} {n : Nat} {records : List StepRecord} :
    walk (n + 1) a = .ok (records, c) ↔ ∃ node changed b rest, a.currentNode = .ok node ∧
      a.step = .ok (changed, b) ∧ walk n b = .ok (rest, c) ∧ records = ⟨node, a.tellsNew b⟩ :: rest := by
  simp only [walk, bind_eq_ok_iff, pure_eq_ok, Except.ok.injEq, Prod.mk.injEq, Prod.exists]
  grind

theorem walk_add_eq_ok_iff {a c : Analysis} {m n : Nat} {records : List StepRecord} :
    walk (m + n) a = .ok (records, c) ↔ ∃ first b second, walk m a = .ok (first, b) ∧
      walk n b = .ok (second, c) ∧ records = first ++ second := by
  induction m generalizing a records with
  | zero =>
    rw [Nat.zero_add]
    simp [walk]
  | succ m ih =>
    rw [Nat.add_right_comm]
    simp only [walk_succ_eq_ok_iff, ih]
    grind

section

variable {a b : Analysis} (hw : WellFormed a)
include hw

/-- A step says that something changed exactly if some edge carries another fact. -/
theorem step_tells {changed : Bool} (h : a.step = .ok (changed, b)) : changed = a.tellsNew b := by
  obtain ⟨i, c, hi, hv, rfl⟩ := (step_eq_ok_iff (List.ne_nil_of_mem hw.output_mem)).1 h
  have hedges : c.moveOn.edges = c.edges := by
    obtain ⟨p, s, f, hm⟩ := c.moveOn_eq
    rw [hm]
    rfl
  rw [tellsNew, hedges]
  cases changed with
  | false =>
    rw [visit_unchanged hv, eq_comm, List.any_eq_false]
    intro p hp
    obtain ⟨k, hk⟩ := List.mem_iff_getElem?.1 hp
    obtain ⟨he, hd⟩ := List.getElem?_zip_eq_some.1 hk
    rw [Option.some.inj (he.symm.trans hd), TensorFact.same_refl]
    exact Bool.false_ne_true
  | true =>
    obtain ⟨j, d, e, hd, he, hnew⟩ := visit_changed hw.toLinked hw.toPlanned (List.mem_of_getElem? hi) hv
    rw [eq_comm, List.any_eq_true]
    refine ⟨(e, d), List.mem_iff_getElem?.2 ⟨j, List.getElem?_zip_eq_some.2 ⟨he, hd⟩⟩, ?_⟩
    simp [hnew]

/-- What a step does: it visits the node at which the analysis stands and moves on. -/
theorem step_spec {changed : Bool} (h : a.step = .ok (changed, b)) : WellFormed b ∧ SameGraph b a ∧
    Advanced a 1 b ∧ ∃ node, a.currentNode = .ok node ∧ a.nodeDue 0 = some node := by
  obtain ⟨i, c, hi, hv, rfl⟩ := (step_eq_ok_iff (List.ne_nil_of_mem hw.output_mem)).1 h
  obtain ⟨hplan, hstep, hforward, hpass⟩ := visit_place hv
  have hc := advanced_moveOn (visit_wellFormed hw hv).stepIndex_lt
  have hgraph : SameGraph c.moveOn a := by
    obtain ⟨p, s, f, hm⟩ := c.moveOn_eq
    rw [hm]
    exact (movedTo_sameGraph c p s f).trans (visit_refines hv).toSameGraph
  obtain ⟨node, -, hnode, -, -⟩ := visit_eq_ok_iff.1 hv
  refine ⟨moveOn_wellFormed (visit_wellFormed hw hv), hgraph, ?_, node, ?_, ?_⟩
  · obtain ⟨h₁, h₂, h₃, h₄⟩ := hc
    rw [forwardAfter, turnsAfter] at h₄
    rw [turnsAfter] at h₃
    rw [stepIndexAfter] at h₂
    refine ⟨h₁.trans hplan, ?_, ?_, ?_⟩
    · rw [h₂, hplan, hstep, stepIndexAfter]
    · rw [h₃, hplan, hstep, hpass, turnsAfter]
    · rw [h₄, hplan, hstep, hforward, forwardAfter, turnsAfter]
  · exact currentNode_eq_ok_iff.2 ⟨i, hi, hnode⟩
  · rw [nodeDue_zero hw.stepIndex_lt, hi]
    exact hnode

end

/-- **Steps go through the plan**: where the analysis stands after them, and which
nodes they visit. -/
theorem walk_spec {a b : Analysis} {n : Nat} {records : List StepRecord} (hw : WellFormed a)
    (h : walk n a = .ok (records, b)) : WellFormed b ∧ SameGraph b a ∧ Advanced a n b ∧
      records.map (fun r => some r.node) = (List.range n).map a.nodeDue := by
  induction n generalizing a records with
  | zero =>
    cases h
    exact ⟨hw, .refl _, advanced_refl hw.stepIndex_lt, rfl⟩
  | succ n ih =>
    obtain ⟨node, changed, c, rest, hnode, hstep, hrest, rfl⟩ := walk_succ_eq_ok_iff.1 h
    obtain ⟨hwc, hgraph, hone, node', hnode', hfirst⟩ := step_spec hw hstep
    cases hnode.symm.trans hnode'
    obtain ⟨hwb, hgraph', hmore, hnodes⟩ := ih hwc hrest
    have hnext : ∀ k, a.nodeDue (k + 1) = c.nodeDue k := fun k => by
      rw [Nat.add_comm, hone.nodeDue_add hgraph.nodes]
    refine ⟨hwb, hgraph'.trans hgraph, Nat.add_comm 1 n ▸ hone.trans hmore, ?_⟩
    rw [List.map_cons, hnodes, List.range_succ_eq_map, List.map_cons, List.map_map, hfirst]
    congr 2
    funext k
    exact (hnext k).symm

theorem steps_eq_ok_iff {a b : Analysis} {n : Nat} {changed : Bool} (hw : WellFormed a) :
    steps n a = (.ok changed, b) ↔ ∃ records, walk n a = .ok (records, b) ∧
      changed = records.any StepRecord.changed := by
  induction n generalizing a changed with
  | zero =>
    constructor
    · intro h
      cases h
      exact ⟨[], rfl, rfl⟩
    · rintro ⟨records, h, rfl⟩
      cases h
      rfl
  | succ n ih =>
    simp only [steps, walk_succ_eq_ok_iff]
    cases hs : a.step with
    | error e => simp
    | ok r =>
      obtain ⟨now, c⟩ := r
      obtain ⟨hwc, -, -, node, hnode, -⟩ := step_spec hw hs
      have hnow := step_tells hw hs
      have tail : ∀ {later}, steps n c = (.ok later, b) ↔ ∃ records, walk n c = .ok (records, b) ∧
          later = records.any StepRecord.changed := ih hwc
      constructor
      · intro h
        dsimp only at h
        split at h
        · rename_i later d hd
          cases h
          obtain ⟨rest, hrest, rfl⟩ := tail.1 hd
          exact ⟨_, ⟨node, now, c, rest, hnode, rfl, hrest, rfl⟩, by rw [List.any_cons, hnow]⟩
        · cases h
      · rintro ⟨records, ⟨node', now', c', rest, -, heq, hrest, rfl⟩, rfl⟩
        cases heq
        rw [List.any_cons, ← hnow]
        simp only [tail.2 ⟨rest, hrest, rfl⟩]

/-! ### Rounds -/

theorem pass_eq_ok_iff {a b : Analysis} {changed : Bool} (hw : WellFormed a) :
    a.pass = (.ok changed, b) ↔ ∃ records, walk a.plan.length (a.movedTo a.passIndex 0 a.forward) =
      .ok (records, b) ∧ changed = records.any StepRecord.changed := by
  have hstart : 0 < a.plan.length := List.length_pos_of_mem hw.output_mem
  exact steps_eq_ok_iff (movedTo_wellFormed hw hstart)

theorem map_nodeDue (a : Analysis) (p : Nat) (f : Bool) :
    (List.range a.plan.length).map (a.movedTo p 0 f).nodeDue =
      (if f then a.plan else a.plan.reverse).map (a.nodes[·]?) := by
  have hlen : (if f then a.plan else a.plan.reverse).length = a.plan.length := by cases f <;> simp
  refine List.ext_getElem (by simp [hlen]) fun k hk _ => ?_
  have hlt : k < a.plan.length := by simpa using hk
  have hturns : (a.movedTo p 0 f).turnsAfter k = 0 := by
    rw [turnsAfter, movedTo, Nat.zero_add, Nat.div_eq_of_lt hlt]
  have hindex : (a.movedTo p 0 f).stepIndexAfter k = k := by
    rw [stepIndexAfter, movedTo, Nat.zero_add, Nat.mod_eq_of_lt hlt]
  rw [List.getElem_map, List.getElem_map, List.getElem_range, nodeDue, hindex, forwardAfter, hturns]
  have hback : a.plan.length - 1 - k < a.plan.length := by omega
  cases f with
  | true => simp [movedTo, placeOf, hlt]
  | false => simp [movedTo, placeOf, hback]

theorem walk_pass {a b : Analysis} {p : Nat} {f : Bool} {records : List StepRecord} (hw : WellFormed a)
    (h : walk a.plan.length (a.movedTo p 0 f) = .ok (records, b)) : WellFormed b ∧ SameGraph b a ∧
      b.stepIndex = 0 ∧ b.forward = !f ∧
      records.map (fun r => some r.node) = (if f then a.plan else a.plan.reverse).map (a.nodes[·]?) := by
  have hpos : 0 < a.plan.length := List.length_pos_of_mem hw.output_mem
  obtain ⟨hwb, hgraph, hplace, hnodes⟩ := walk_spec (movedTo_wellFormed hw hpos) h
  have hturns : (a.movedTo p 0 f).turnsAfter a.plan.length = 1 := by
    rw [turnsAfter, movedTo, Nat.zero_add, Nat.div_self hpos]
  refine ⟨hwb, hgraph.trans (movedTo_sameGraph a p 0 f), ?_, ?_, hnodes.trans (map_nodeDue a p f)⟩
  · rw [hplace.stepIndex, stepIndexAfter, movedTo, Nat.zero_add, Nat.mod_self]
  · rw [hplace.forward, forwardAfter, hturns]
    rfl

/-- A round is a pass from the front and one in the direction that is left. -/
theorem round_eq_ok_iff_passes {a b : Analysis} {changed : Bool} : a.round = (.ok changed, b) ↔
    ∃ now c later, Analysis.pass { a with forward := true } = (.ok now, c) ∧ c.pass = (.ok later, b) ∧
      changed = (now || later) := by
  unfold round
  cases Analysis.pass { a with forward := true } with
  | mk r c =>
    cases r with
    | error e => simp
    | ok now =>
      cases hd : c.pass with
      | mk r' d =>
        cases r' with
        | error e => simp [hd]
        | ok later => grind

/-- **A round visits the plan and then the plan backwards**, wherever the analysis
stands, and tells whether one of its steps changed a fact. -/
theorem round_eq_ok_iff {a b : Analysis} {changed : Bool} (hw : WellFormed a) :
    a.round = (.ok changed, b) ↔ ∃ records,
      walk (a.plan.length + a.plan.length) (a.movedTo a.passIndex 0 true) = .ok (records, b) ∧
      records.map (fun r => some r.node) = (a.plan ++ a.plan.reverse).map (a.nodes[·]?) ∧
      changed = records.any StepRecord.changed := by
  have hforth : ∀ {now c}, Analysis.pass { a with forward := true } = (.ok now, c) ↔ ∃ records,
      walk a.plan.length (a.movedTo a.passIndex 0 true) = .ok (records, c) ∧
        now = records.any StepRecord.changed :=
    pass_eq_ok_iff (movedTo_wellFormed (p := a.passIndex) (f := true) hw hw.stepIndex_lt)
  -- the second pass starts where the first one ends
  have hback : ∀ {records c}, walk a.plan.length (a.movedTo a.passIndex 0 true) = .ok (records, c) →
      c.movedTo c.passIndex 0 false = c := by
    intro records c hc
    obtain ⟨-, -, hindex, hforward, -⟩ := walk_pass hw hc
    obtain ⟨_, _, _, _, _, _, _, _, _, _⟩ := c
    cases hindex
    cases hforward
    rfl
  rw [round_eq_ok_iff_passes]
  constructor
  · rintro ⟨now, c, later, hc, hb, rfl⟩
    obtain ⟨first, hfirst, rfl⟩ := hforth.1 hc
    obtain ⟨hwc, hgraph, -, hforward, hnodes⟩ := walk_pass hw hfirst
    obtain ⟨second, hsecond, rfl⟩ := (pass_eq_ok_iff hwc).1 hb
    obtain ⟨-, -, -, -, hnodes'⟩ := walk_pass hwc hsecond
    rw [hforward, Bool.not_true, hback hfirst, hgraph.plan] at hsecond
    rw [hforward, hgraph.plan, hgraph.nodes] at hnodes'
    refine ⟨first ++ second, walk_add_eq_ok_iff.2 ⟨first, c, second, hfirst, hsecond, rfl⟩, ?_, ?_⟩
    · rw [List.map_append, hnodes, hnodes', List.map_append]
      rfl
    · rw [List.any_append]
  · rintro ⟨records, hrecords, -, rfl⟩
    obtain ⟨first, c, second, hfirst, hsecond, rfl⟩ := walk_add_eq_ok_iff.1 hrecords
    obtain ⟨hwc, hgraph, -, hforward, -⟩ := walk_pass hw hfirst
    refine ⟨_, c, _, hforth.2 ⟨first, hfirst, rfl⟩, (pass_eq_ok_iff hwc).2 ⟨second, ?_, rfl⟩, List.any_append⟩
    rw [hforward, Bool.not_true, hback hfirst, hgraph.plan]
    exact hsecond

/-- **Passes alternate, and each visits the plan once.** Take an analysis of a model of
any operators after any calls, whether they succeeded or failed. After some number of
steps that succeed it stands where their number says: at the step and in the pass that
it divides into by the length of the plan, in the direction turned once for each pass
completed; and the nodes visited are those at the places in between. A round that succeeds
consists, wherever the analysis stands, of the steps that visit the plan and then the
plan backwards. Steps and rounds tell a change exactly if one of their steps left another
fact on some edge. -/
theorem steps_alternate {model : Model} {output : Int} {limit : Option Nat} {start : Analysis}
    (hstart : Analysis.start model output limit = .ok start) (xs : List Call) :
    (∀ n changed b, steps n (start.afterCalls xs) = (.ok changed, b) ↔
      ∃ records, walk n (start.afterCalls xs) = .ok (records, b) ∧ changed = records.any StepRecord.changed) ∧
    (∀ n records b, walk n (start.afterCalls xs) = .ok (records, b) → Advanced (start.afterCalls xs) n b ∧
      records.map (fun r => some r.node) = (List.range n).map (start.afterCalls xs).nodeDue) ∧
    ∀ changed b, (start.afterCalls xs).round = (.ok changed, b) ↔ ∃ records,
      walk ((start.afterCalls xs).plan.length + (start.afterCalls xs).plan.length)
        ((start.afterCalls xs).movedTo (start.afterCalls xs).passIndex 0 true) = .ok (records, b) ∧
      records.map (fun r => some r.node) = ((start.afterCalls xs).plan ++
        (start.afterCalls xs).plan.reverse).map ((start.afterCalls xs).nodes[·]?) ∧
      changed = records.any StepRecord.changed := by
  have hw : WellFormed (start.afterCalls xs) := afterCalls_wellFormed (start_spec hstart).1 xs
  refine ⟨fun _ _ _ => steps_eq_ok_iff hw, fun n records b h => ?_, fun _ _ => round_eq_ok_iff hw⟩
  obtain ⟨-, -, hplace, hnodes⟩ := walk_spec hw h
  exact ⟨hplace, hnodes⟩

/-- After the first step on a pair and its positive part, the next three visit the positive
part twice and then the pair, and two passes are over. A round from the same place visits
both nodes twice, and finds out about the positive part. -/
theorem positivePart_alternates : ∃ (a b c : Analysis) (first second : List StepRecord),
    start positivePart 1 none = .ok a ∧ walk 3 (a.afterCalls [.act .step]) = .ok (first, b) ∧
    b.stepIndex = 0 ∧ b.passIndex = 2 ∧ b.forward = true ∧
    first.map (fun r => some r.node) = [positivePart.nodes[1]?, positivePart.nodes[1]?, positivePart.nodes[0]?] ∧
    (a.afterCalls [.act .step]).round = (.ok true, c) ∧
    second.map (fun r => some r.node) = [positivePart.nodes[0]?, positivePart.nodes[1]?,
      positivePart.nodes[1]?, positivePart.nodes[0]?] ∧
    second.any StepRecord.changed = true := by
  have hstart : start positivePart 1 none = .ok _ := rfl
  obtain ⟨-, hplaces, hround⟩ := steps_alternate hstart [.act .step]
  obtain ⟨⟨-, hindex, hpass, hforward⟩, hfirst⟩ := hplaces 3 _ _ rfl
  obtain ⟨second, -, hsecond, hchanged⟩ := (hround true _).1 rfl
  exact ⟨_, _, _, _, second, hstart, rfl, hindex, hpass, hforward, hfirst, rfl, hsecond, hchanged.symm⟩

end Analysis

end EdgeFacts
