/-
# Folding of constants

A node whose output is known, or whose inputs all are, becomes a constant, and
the edges into it are detached. Folding goes through the plan again and again
until no node is left to fold, and then makes a new plan.

Key definitions: `Analysis.foldNode`, `Analysis.foldable`, `Analysis.applyFold`,
`Analysis.foldAll`, `Analysis.foldConstants`.
-/
import EdgeFacts.Analysis.Run

namespace EdgeFacts

/-- The edge without its ends. -/
def Edge.detached (e : Edge) : Edge := { e with source := none, target := none }

namespace Analysis

/-- Takes an edge away from both of its ends. -/
def detach (a : Analysis) (edge : Nat) : Analysis :=
  match a.edges[edge]? with
  | none => a
  | some e =>
    { a with
      edges := a.edges.set edge e.detached
      outgoing := match e.source with
        | some p => a.outgoing.modify p (·.erase edge)
        | none => a.outgoing }

/-- The node as a constant. -/
def asConst (value : Tensor) (n : Node) : Node :=
  { n with op := .const value, label := (Operator.const value).label, inputs := [] }

/-- Turns a node into a constant and detaches the edges into it. -/
def foldNode (a : Analysis) (node : Int) (value : Tensor) : Except Failure Analysis := do
  let i ← a.nodeIndex node
  let refined ← a.refineEdges (.ofTensor value) (← itemAt a.outgoing i)
  let a := (a.commit refined).2
  let target := (← itemAt a.nodes i).id.toNat
  let a := (← itemAt a.incoming target).foldl detach a
  return { a with
    incoming := a.incoming.set target []
    nodes := a.nodes.modify i (asConst value) }

/-- The values on the edges into a node, if all are known. -/
def knownInputs (a : Analysis) (node : Nat) : Except Failure (Option (List Tensor)) := do
  let facts ← a.factsOf (← itemAt a.incoming node)
  return facts.mapM TensorFact.value

/-- Whether a node can be folded. Nodes without inputs are sources, and what
depends on more than its inputs is not computed. -/
def isFoldable (a : Analysis) (i : Nat) : Except Failure Bool := do
  let n ← itemAt a.nodes i
  if n.op.isConst then return false
  if (← a.outputFact i).value.isSome then return true
  if n.inputs.isEmpty || !n.op.isStateless then return false
  return (← a.knownInputs i).isSome

/-- The nodes of the plan that can be folded. -/
def foldable (a : Analysis) : Except Failure (List Nat) :=
  a.plan.filterM a.isFoldable

/-- Folds a node to its known output, or to what its known inputs evaluate to. -/
def applyFold (a : Analysis) (node : Int) : Except Failure Analysis := do
  match (← a.outputFact node).value with
  | some value => a.foldNode node value
  | none =>
    let i ← a.nodeIndex node
    match ← a.knownInputs i with
    | none => return a
    | some inputs => a.foldNode node (← (← itemAt a.nodes i).op.eval inputs)

/-- Folds nodes one after the other, as far as that succeeds. -/
def foldEach : List Nat → Analysis → Outcome Unit
  | [], a => (.ok (), a)
  | i :: rest, a =>
    match a.applyFold i with
    | .error e => (.error e, a)
    | .ok a => foldEach rest a

/-- Folds until no node is left to fold, at most `fuel` times, and gives the
nodes folded. -/
def foldAll : Nat → Analysis → Outcome (List Nat)
  | 0, a => (.ok [], a)
  | fuel + 1, a =>
    match a.foldable with
    | .error e => (.error e, a)
    | .ok [] => (.ok [], a)
    | .ok candidates =>
      match foldEach candidates a with
      | (.error e, a) => (.error e, a)
      | (.ok _, a) =>
        match foldAll fuel a with
        | (.ok later, a) => (.ok (candidates ++ later), a)
        | (.error e, a) => (.error e, a)

/-- One pass of folding: each time some node of the plan becomes a constant. -/
def foldPass (a : Analysis) : Outcome (List Nat) := foldAll (a.plan.length + 1) a

/-- A number of passes one after the other. -/
def foldPasses : Nat → Analysis → Outcome (List Nat)
  | 0, a => (.ok [], a)
  | n + 1, a =>
    match foldPass a with
    | (.error e, a) => (.error e, a)
    | (.ok folded, a) =>
      match foldPasses n a with
      | (.ok later, a) => (.ok (folded ++ later), a)
      | (.error e, a) => (.error e, a)

/-- Folds all constants and makes a new plan; gives the nodes folded. -/
def foldConstants (a : Analysis) : Outcome (List Nat) :=
  match foldPass a with
  | (.error e, a) => (.error e, a)
  | (.ok folded, a) =>
    match a.resetPlan with
    | .error e => (.error e, a)
    | .ok a => (.ok folded, a)

end Analysis

end EdgeFacts
