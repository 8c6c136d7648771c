/-
# Streaming sessions

Runs an analysed graph chunk by chunk along its streamed dimensions. Nodes whose
output is not streamed are evaluated once, at the start. Every other node keeps
a state between the chunks that are pushed into the streamed inputs.

Key definitions: `Session`, `Session.start`, `Session.push`, `Session.run`.
-/
import EdgeFacts.Analysis.Run
import EdgeFacts.Operator.Stream

namespace EdgeFacts

/-- A node of the plan with the axes along which its inputs and its output are streamed. -/
structure StreamNode where
  index : Nat
  node : Node
  inputAxes : List (Option Nat)
  outputAxis : Option Nat

/-- A graph that is run chunk by chunk. -/
structure Session where
  nodes : List Node
  output : Int
  plan : List StreamNode
  /-- The outputs of the nodes that are not streamed. -/
  values : List (Nat × Tensor)
  /-- What the streamed nodes keep between chunks. -/
  states : List (Nat × Option StreamBuffer)

namespace Session

/-- The output of a node that is not streamed. -/
def valueOf (s : Session) (producer : Int) : Except Failure Tensor :=
  if producer < 0 then .error (.primitive .noSuchKey)
  else orFail (.primitive .noSuchKey) (lookup? s.values producer.toNat)

/-- Evaluates a node that is not streamed; inputs of the model take given values. -/
def evaluate (s : Session) (node : Node) (inputs : Table Tensor) : Except Failure Tensor :=
  match node.op with
  | .placeholder _ => orFail (.because (.missingValue node.name)) (inputs.find? node.name)
  | op => do op.eval (← node.inputs.mapM fun i => s.valueOf i.producer)

/-- Adds the next node of the plan. -/
def addNode (a : Analysis) (inputs : Table Tensor) (s : Session) (i : Nat) :
    Except Failure Session := do
  let node ← itemAt a.nodes i
  let outputAxis := (← a.outputFact i).shape.streamedAxis?
  let inputAxes := (← a.factsOf (← itemAt a.incoming i)).map fun f => f.shape.streamedAxis?
  let planned : StreamNode := { index := i, node, inputAxes, outputAxis }
  let s := { s with plan := s.plan ++ [planned] }
  if outputAxis.isSome then return { s with states := s.states ++ [(i, node.op.newState)] }
  else if inputAxes.any Option.isSome then throw (.because (.wholeOutput node.name))
  else return { s with values := s.values ++ [(i, ← s.evaluate node inputs)] }

/-- A session for an analysed graph, given the inputs that are not streamed. -/
def start (a : Analysis) (inputs : Table Tensor) : Except Failure Session :=
  a.plan.foldlM (addNode a inputs) ⟨a.nodes, a.output, [], [], []⟩

/-- Whether a node is streamed. -/
def isStreamed (s : Session) (i : Nat) : Bool := s.states.any (·.1 = i)

/-- The streamed input of the model with the given name. -/
def source (s : Session) (name : String) : Except Failure Nat :=
  match s.nodes.find? (·.name = name) with
  | none => .error (.because (.notStreamedInput name))
  | some n =>
    if n.id < 0 ∨ !s.isStreamed n.id.toNat then .error (.because (.notStreamedInput name))
    else match (s.nodes[n.id.toNat]?).map fun m => m.op.isPlaceholder with
      | some true => .ok n.id.toNat
      | _ => .error (.because (.notModelInput name))

/-- The chunks that nodes have delivered during a push. -/
abbrev Delivered := List (Nat × Option Tensor)

/-- The chunk that a node has delivered, if it has. -/
def delivered (d : Delivered) (producer : Int) : Option Tensor :=
  if producer < 0 then none else (lookup? d producer.toNat).join

/-- What a node's step sees of its inputs. -/
def stepInputs (s : Session) (d : Delivered) (n : StreamNode) : Except Failure (List StepInput) :=
  (n.node.inputs.zip n.inputAxes).mapM fun (i, axis) =>
    match axis with
    | none => (s.valueOf i.producer).map fun t => { axis := none, chunk := some t }
    | some k => .ok { axis := some (k : Int), chunk := delivered d i.producer }

/-- Lets the nodes of the plan take a step each, as far as that succeeds. -/
def stepNodes (source : Nat) :
    List StreamNode → Delivered → Session → Except Failure Delivered × Session
  | [], d, s => (.ok d, s)
  | n :: rest, d, s =>
    if n.index = source ∨ !s.isStreamed n.index then stepNodes source rest d s
    else if n.node.op.isPlaceholder then stepNodes source rest (d ++ [(n.index, none)]) s
    else
      match s.stepInputs d n with
      | .error e => (.error e, s)
      | .ok inputs =>
        let (result, state) := n.node.op.step inputs (lookup? s.states n.index).join
        let s := { s with states := replace s.states n.index state }
        match result with
        | .error e => (.error e, s)
        | .ok chunk => stepNodes source rest (d ++ [(n.index, chunk)]) s

/-- Pushes a chunk into a streamed input; gives the chunk of the output, if there
is one. The states are as far as the push came, also if it failed. -/
def push (s : Session) (name : String) (chunk : Tensor) :
    Except Failure (Option Tensor) × Session :=
  match s.source name with
  | .error e => (.error e, s)
  | .ok source =>
    match stepNodes source s.plan [(source, some chunk)] s with
    | (.error e, s) => (.error e, s)
    | (.ok d, s) =>
      if 0 ≤ s.output ∧ s.isStreamed s.output.toNat then (.ok (delivered d s.output), s)
      else (.error (.because .wholeResult), s)

/-- Pushes chunks one after the other and collects the chunks of the output. -/
def run (s : Session) (name : String) : List Tensor → Except Failure (List Tensor) × Session
  | [] => (.ok [], s)
  | chunk :: rest =>
    match s.push name chunk with
    | (.error e, s) => (.error e, s)
    | (.ok result, s) =>
      match s.run name rest with
      | (.error e, s) => (.error e, s)
      | (.ok later, s) => (.ok (result.toList ++ later), s)

end Session

end EdgeFacts
