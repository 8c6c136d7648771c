/-
# Graphs of operators

A node applies an operator to the outputs of other nodes. A model is a list of
nodes; it is valid if every node has its position as its id, names are unique
and every input refers to a node (`Model.validate`).

Key definitions: `Input`, `Node`, `Model`, `Model.validate`, `Model.ofSpecs`.
-/
import EdgeFacts.Operator.Basic
import EdgeFacts.Table

namespace EdgeFacts

/-- An input of a node: the node that produces it, and at which of its outputs. -/
structure Input where
  producer : Int
  slot : Option Int
deriving DecidableEq, Repr

/-- A node: an operator applied to the outputs of other nodes. -/
structure Node where
  id : Int
  name : String
  /-- The name that the node has for its operator. -/
  label : String
  op : Operator
  inputs : List Input

/-- A node before it has an id. -/
structure NodeSpec where
  name : String
  /-- The name for the operator, if it is not to be the operator's own. -/
  label : Option String
  op : Operator
  inputs : List Input

/-- A graph of nodes. -/
structure Model where
  nodes : List Node

namespace Model

/-- The ids of the nodes by name. -/
def index (m : Model) : Table Int := Table.ofList (m.nodes.map fun n => (n.name, n.id))

/-- The node with the given name. -/
def node (m : Model) (name : String) : Except Failure Node :=
  match m.index.find? name with
  | none => .error (.because (.noNodeNamed name))
  | some id =>
    match (position? m.nodes.length id).bind (m.nodes[·]?) with
    | some n => .ok n
    | none => .error (.primitive .noSuchPosition)

/-- Refuses a reference to a node that does not exist. -/
def checkInputs (count : Nat) (node : Node) : List Input → Except Failure Unit
  | [] => .ok ()
  | i :: rest =>
    if 0 ≤ i.producer ∧ i.producer < count then checkInputs count node rest
    else .error (.because (.unknownProducer node.name i.producer))

/-- Checks the nodes from a position on, given the names before it. -/
def checkNodes (count : Nat) : Nat → List String → List Node → Except Failure Unit
  | _, _, [] => .ok ()
  | position, seen, n :: rest => do
    if n.id ≠ position then throw (.because (.misplacedNode n.name n.id position))
    if seen.contains n.name then throw (.because (.repeatedName n.name n.id))
    checkInputs count n n.inputs
    checkNodes count (position + 1) (n.name :: seen) rest

/-- Refuses a model that is not valid. -/
def validate (m : Model) : Except Failure Unit := checkNodes m.nodes.length 0 [] m.nodes

/-- Numbers nodes from a position on. -/
def number : Nat → List NodeSpec → List Node
  | _, [] => []
  | position, s :: rest =>
    { id := position, name := s.name, op := s.op, inputs := s.inputs
      label := match s.label with
        | some label => if label.isEmpty then s.op.nodeLabel else label
        | none => s.op.nodeLabel } :: number (position + 1) rest

/-- The valid model of the given nodes, each with its position as its id. -/
def ofSpecs (specs : List NodeSpec) : Except Failure Model := do
  let m : Model := ⟨number 0 specs⟩
  m.validate
  return m

end Model

end EdgeFacts
