/-
# The state of an analysis

Every input of a node becomes an edge of the graph, and one more edge leaves the
output node. Each edge carries a fact about the tensors that flow along it. A
user may add facts about the output of a node as hints.

An operation that fails as a whole returns no state, so the state before it
stands.

Key definitions: `Edge`, `Analysis`, `Analysis.start`, `Analysis.hint`,
`Analysis.outputFact`, `Analysis.commit`.
-/
import EdgeFacts.Fact.Meet
import EdgeFacts.Graph.Plan

namespace EdgeFacts

/-- An edge from an output of a node to an input of another, with what is known
about the tensors on it. An edge without a target leaves the graph. -/
structure Edge where
  id : Nat
  source : Option Nat
  port : Int
  target : Option Nat
  fact : TensorFact

/-- A graph under analysis: nodes and edges, the edges into and out of each
node, the plan, and where the analysis stands in it. -/
structure Analysis where
  nodes : List Node
  edges : List Edge
  incoming : List (List Nat)
  outgoing : List (List Nat)
  /-- The node whose output is wanted. -/
  output : Int
  plan : List Nat
  passIndex : Nat
  stepIndex : Nat
  forward : Bool
  /-- The largest number of rounds of a run, if there is one. -/
  roundLimit : Option Nat

/-- The item at a position of a list. -/
def itemAt {α : Type} (items : List α) (i : Nat) : Except Failure α :=
  orFail (.primitive .noSuchPosition) items[i]?

namespace Analysis

/-! ### Construction -/

/-- Refuses nodes whose ids are not their positions. -/
def checkIds : Nat → List Node → Except Failure Unit
  | _, [] => .ok ()
  | position, n :: rest =>
    if n.id = position then checkIds (position + 1) rest
    else .error (.because (.misplacedNode n.name n.id position))

/-- Refuses nodes with an input that is not a node of the graph. -/
def checkProducers (count : Nat) : List Node → Except Failure Unit
  | [] => .ok ()
  | n :: rest =>
    match n.danglingProducer? count with
    | some p => .error (.because (.danglingInput n.name p n.id))
    | none => checkProducers count rest

/-- The sources, ports and targets of edges: one for each input in the order of
the nodes, and one that leaves the output. -/
def links (nodes : List Node) (output : Nat) : List (Nat × Int × Option Nat) :=
  (nodes.flatMap fun n => n.inputs.map fun i =>
    (i.producer.toNat, i.slot.getD 0, some n.id.toNat)) ++ [(output, 0, none)]

/-- Edges about which nothing is known, numbered from a position on. -/
def freshEdges : Nat → List (Nat × Int × Option Nat) → List Edge
  | _, [] => []
  | id, (source, port, target) :: rest =>
    ⟨id, some source, port, target, .unknown⟩ :: freshEdges (id + 1) rest

/-- The ids of the edges into each of `count` nodes. -/
def incomingOf (count : Nat) (edges : List Edge) : List (List Nat) :=
  (List.range count).map fun i => (edges.filter fun e => e.target = some i).map Edge.id

/-- The ids of the edges out of each of `count` nodes. -/
def outgoingOf (count : Nat) (edges : List Edge) : List (List Nat) :=
  (List.range count).map fun i => (edges.filter fun e => e.source = some i).map Edge.id

/-- The analysis of a model for an output, before anything is known. -/
def start (model : Model) (output : Int) (roundLimit : Option Nat) : Except Failure Analysis := do
  let nodes := model.nodes
  let count := nodes.length
  if output < 0 ∨ (count : Int) ≤ output then throw (.because (.noNodeAt output))
  checkIds 0 nodes
  checkProducers count nodes
  let plan ← Plan.ofNodes nodes [output]
  let edges := freshEdges 0 (links nodes output.toNat)
  return { nodes, edges, roundLimit, plan
           incoming := incomingOf count edges
           outgoing := outgoingOf count edges
           output
           passIndex := 0
           stepIndex := 0
           forward := true }

/-! ### Facts on edges -/

/-- The index of a node, which must exist. -/
def nodeIndex (a : Analysis) (node : Int) : Except Failure Nat :=
  if 0 ≤ node ∧ node < a.nodes.length then .ok node.toNat
  else .error (.because (.noNodeAt node))

/-- The fact on an edge. -/
def factOf (a : Analysis) (edge : Nat) : Except Failure TensorFact :=
  Edge.fact <$> itemAt a.edges edge

/-- The facts on edges. -/
def factsOf (a : Analysis) (edges : List Nat) : Except Failure (List TensorFact) :=
  edges.mapM a.factOf

/-- A fact combined with that on each of some edges. -/
def refineEdges (a : Analysis) (fact : TensorFact) :
    List Nat → Except Failure (List (Nat × TensorFact))
  | [] => .ok []
  | j :: rest => do
    let refined ← fact.meet (← a.factOf j)
    return (j, refined) :: (← refineEdges a fact rest)

/-- Puts facts on edges, and tells whether one of them says something new. -/
def commitEdges (edges : List Edge) : List (Nat × TensorFact) → Bool × List Edge
  | [] => (false, edges)
  | (j, fact) :: rest =>
    match edges[j]? with
    | none => commitEdges edges rest
    | some e =>
      if fact.same e.fact then commitEdges edges rest
      else (true, (commitEdges (edges.set j { e with fact }) rest).2)

/-- Puts facts on edges, and tells whether one of them says something new. -/
def commit (a : Analysis) (refined : List (Nat × TensorFact)) : Bool × Analysis :=
  let (changed, edges) := commitEdges a.edges refined
  (changed, { a with edges })

/-- Adds a fact about the output of a node. -/
def hint (a : Analysis) (node : Int) (fact : TensorFact) : Except Failure Analysis := do
  let i ← a.nodeIndex node
  let refined ← a.refineEdges fact (← itemAt a.outgoing i)
  return (a.commit refined).2

/-- Adds a fact about the output of the first node with the given name. -/
def hintByName (a : Analysis) (name : String) (fact : TensorFact) : Except Failure Analysis :=
  match a.nodes.find? (·.name = name) with
  | some n => a.hint n.id fact
  | none => .error (.because (.noNodeNamed name))

/-- All that is known on the edges out of a node. -/
def outputFact (a : Analysis) (node : Int) : Except Failure TensorFact := do
  let i ← a.nodeIndex node
  TensorFact.meetAll .unknown (← a.factsOf (← itemAt a.outgoing i))

/-! ### The plan and the result -/

/-- A new plan for the graph as it is now. -/
def resetPlan (a : Analysis) : Except Failure Analysis := do
  let plan ← Plan.ofNodes a.nodes [a.output]
  return { a with plan, stepIndex := 0 }

/-- The nodes as a model. -/
def toModel (a : Analysis) : Model := ⟨a.nodes⟩

/-- What is known about the output of each node, by name. -/
def report (a : Analysis) : Except Failure (Table String) := do
  let facts ← a.nodes.mapM fun n => do return (n.name, (← a.outputFact n.id).text)
  return Table.ofList facts

end Analysis

end EdgeFacts
