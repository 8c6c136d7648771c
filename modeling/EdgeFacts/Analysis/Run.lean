/-
# Running an analysis

A step lets one node refine the facts on its edges: the facts out of it are
combined, its operator infers what must hold, and the result is combined with
what the edges carried. All of this must succeed before an edge changes. A pass
steps through the plan, forwards or backwards; a round is a pass in each
direction; a run repeats rounds until one changes nothing.

Key definitions: `Analysis.refineNode`, `Analysis.step`, `Analysis.round`,
`Analysis.run`, `Analysis.roundBound`.
-/
import EdgeFacts.Analysis.Basic
import EdgeFacts.Operator.Refine

namespace EdgeFacts.Analysis

/-- What an operation leaves that may stop halfway: its result or failure, and
the state it came to. -/
abbrev Outcome (α : Type) := Except Failure α × Analysis

/-- The node at which the analysis stands. -/
def currentNode (a : Analysis) : Except Failure Node := do
  let place := if a.forward then a.stepIndex else a.plan.length - 1 - a.stepIndex
  itemAt a.nodes (← itemAt a.plan place)

/-- A result within a context of failure. -/
def inContext {α : Type} (context : Failure → Failure) : Except Failure α → Except Failure α
  | .ok x => .ok x
  | .error e => .error (context e)

/-- Whether all the edges leave their node at one output. -/
def haveOnePort (a : Analysis) (edges : List Nat) : Except Failure Bool := do
  match (← edges.mapM (itemAt a.edges)).map Edge.port with
  | [] => return true
  | p :: rest => return rest.all (· = p)

/-- Facts combined with those on the edges at the same places. -/
def refinePairs (a : Analysis) :
    List TensorFact → List Nat → Except Failure (List (Nat × TensorFact))
  | f :: facts, j :: edges => do
    let refined ← f.meet (← a.factOf j)
    return (j, refined) :: (← refinePairs a facts edges)
  | _, _ => .ok []

/-- What a node infers about the edges into and out of it. -/
def inferred (a : Analysis) (node : Node) : Except Failure (List (Nat × TensorFact)) := do
  let before ← itemAt a.incoming node.id.toNat
  let after ← itemAt a.outgoing node.id.toNat
  if !(← a.haveOnePort after) then throw (.because (.severalPorts node.name node.id))
  let inputs ← a.factsOf before
  let output ← inContext (.withinClash (.combiningOutputs node.name))
    (TensorFact.meetAll .unknown (← a.factsOf after))
  let (newInputs, newOutput) ←
    inContext (.within (.refining node.name)) (node.op.refine inputs output)
  match newOutput with
  | none => throw (.because (.badRefinement node.name before.length node.id))
  | some newOutput =>
    if newInputs.length ≠ before.length then
      throw (.because (.badRefinement node.name before.length node.id))
    let refinedInputs ← inContext (.withinClash (.updatingInputs node.name))
      (a.refinePairs newInputs before)
    let refinedOutputs ← inContext (.withinClash (.updatingOutputs node.name))
      (a.refineEdges newOutput after)
    return refinedInputs ++ refinedOutputs

/-- Lets the node at which the analysis stands refine the facts on its edges,
and tells whether one of them says something new. -/
def refineNode (a : Analysis) : Except Failure (Bool × Analysis) := do
  let node ← a.currentNode
  return a.commit (← a.inferred node)

/-- Moves on to the next node; at the end of the plan the direction turns. -/
def moveOn (a : Analysis) : Analysis :=
  if a.stepIndex + 1 = a.plan.length then
    { a with passIndex := a.passIndex + 1, forward := !a.forward, stepIndex := 0 }
  else { a with stepIndex := a.stepIndex + 1 }

/-- One step of the analysis. -/
def step (a : Analysis) : Except Failure (Bool × Analysis) :=
  if a.plan.isEmpty then .ok (false, a)
  else do
    let (changed, a) ← a.refineNode
    return (changed, a.moveOn)

/-- A number of steps, as far as they succeed; tells whether one changed a fact. -/
def steps : Nat → Analysis → Outcome Bool
  | 0, a => (.ok false, a)
  | n + 1, a =>
    match a.step with
    | .error e => (.error e, a)
    | .ok (changed, a) =>
      match steps n a with
      | (.ok later, a) => (.ok (changed || later), a)
      | (.error e, a) => (.error e, a)

/-- A pass through the plan from its start. -/
def pass (a : Analysis) : Outcome Bool := steps a.plan.length { a with stepIndex := 0 }

/-- A pass forwards and a pass backwards; tells whether a fact changed. -/
def round (a : Analysis) : Outcome Bool :=
  match pass { a with forward := true } with
  | (.error e, a) => (.error e, a)
  | (.ok changed, a) =>
    match pass a with
    | (.error e, a) => (.error e, a)
    | (.ok later, a) => (.ok (changed || later), a)

/-- Repeats rounds until one changes nothing, at most `fuel` of them. After a
changing round the limit is checked against the number of rounds so far. -/
def rounds (limit : Option Nat) : Nat → Nat → Analysis → Outcome Unit
  | 0, _, a => (.error .unsettled, a)
  | fuel + 1, done, a =>
    match a.round with
    | (.error e, a) => (.error e, a)
    | (.ok false, a) => (.ok (), a)
    | (.ok true, a) =>
      if limit.any (· ≤ done + 1) then (.error (.because (.notConverged (done + 1))), a)
      else rounds limit fuel (done + 1) a

/-! ### How many rounds there can be -/

/-- The greatest rank that an operator can bring in. -/
def rankOf : Operator → Nat
  | .const value => value.rank
  | .placeholder fact => fact.shape.dims.length
  | .transpose (some perm) => perm.length
  | .convolution _ _ _ => 4
  | _ => 0

/-- A bound for the number of dimensions in the facts that the operators of the
library can infer: nothing combines shapes to one longer than both. -/
def rankBound (a : Analysis) : Nat :=
  ((a.edges.map fun e => e.fact.shape.dims.length) ++ a.nodes.map fun n => rankOf n.op).foldl max 0

/-- A bound for the number of rounds over operators of the library. A changing
round makes a fact more precise, and a fact of bounded rank can become so in its
datatype, its value, its closure, and twice in each dimension. -/
def roundBound (a : Analysis) : Nat := a.edges.length * (2 * a.rankBound + 3) + 1

/-- Runs the analysis until nothing changes or the limit is reached. -/
def run (a : Analysis) : Outcome Unit :=
  rounds a.roundLimit (a.roundLimit.getD a.roundBound) 0 { a with passIndex := 0 }

end EdgeFacts.Analysis
