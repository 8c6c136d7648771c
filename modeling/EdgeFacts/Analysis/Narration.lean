/-
# The narration of an analysis

What an analysis tells while it works: its plans, passes and steps, which facts
are combined and what was folded or deleted. The narration of an operation is
computed from the state before it, so the operations themselves stay silent.

Key definitions: `Message`, `Analysis.tellStep`, `Analysis.tellRun`, `Analysis.tellPrune`.
-/
import EdgeFacts.Analysis.Fold
import EdgeFacts.Analysis.Prune
import EdgeFacts.Settings

namespace EdgeFacts

/-- A message: its level, the part of the program that tells it, and its text. -/
structure Message where
  level : LogLevel
  source : String
  text : String

namespace Message

/-- A message about the course of the analysis. -/
def course (text : String) : Message := ⟨.info, "shapeflow.analyser.analyser", text⟩

/-- A message about one step of the analysis. -/
def detail (text : String) : Message := ⟨.debug, "shapeflow.analyser.analyser", text⟩

/-- The message on a line. -/
def line (m : Message) : String := m.level.name ++ " " ++ m.source ++ ": " ++ m.text

/-- The message on facts that have been combined, if they could be. -/
def ofMeet (a b : TensorFact) : List Message :=
  match a.meet b with
  | .ok f =>
    [⟨.debug, "shapeflow.ir.facts",
      "Unifying " ++ a.text ++ " with " ++ b.text ++ " into " ++ f.text ++ "."⟩]
  | .error _ => []

/-- The messages on a list of facts combined from the left. -/
def ofMeets : TensorFact → List TensorFact → List Message
  | _, [] => []
  | a, b :: rest =>
    match a.meet b with
    | .ok f => ofMeet a b ++ ofMeets f rest
    | .error _ => []

/-- The messages on facts combined in pairs, up to the first pair that clashes. -/
def ofPairs : List (TensorFact × TensorFact) → List Message
  | [] => []
  | (a, b) :: rest =>
    match a.meet b with
    | .ok _ => ofMeet a b ++ ofPairs rest
    | .error _ => []

end Message

namespace Analysis

open Message

/-- A list of numbers in brackets. -/
def listText (ns : List Nat) : String := "[" ++ String.intercalate ", " (ns.map toString) ++ "]"

/-- The message on a new plan. -/
def tellPlan (a : Analysis) : List Message :=
  [course ("Using execution plan " ++ listText a.plan ++ ".")]

/-- The facts on edges, without those that do not exist. -/
def knownFacts (a : Analysis) (edges : List Nat) : List TensorFact :=
  edges.filterMap fun j => a.edges[j]?.map Edge.fact

/-- The edges out of a node. -/
def edgesOut (a : Analysis) (node : Int) : List Nat :=
  match a.nodeIndex node with
  | .ok i => a.outgoing.getD i []
  | .error _ => []

/-- The messages on a fact combined with those out of a node. -/
def tellHint (a : Analysis) (node : Int) (fact : TensorFact) : List Message :=
  ofPairs ((a.knownFacts (a.edgesOut node)).map fun f => (fact, f))

/-- The messages on a hint for the first node with a name. -/
def tellHintByName (a : Analysis) (name : String) (fact : TensorFact) : List Message :=
  match a.nodes.find? (·.name = name) with
  | some n => a.tellHint n.id fact
  | none => []

/-- The messages on the combination of the facts out of a node. -/
def tellOutput (a : Analysis) (node : Int) : List Message :=
  ofMeets .unknown (a.knownFacts (a.edgesOut node))

/-- The messages on the facts of nodes in turn, up to the first that clash. -/
def tellOutputs (a : Analysis) : List Int → List Message
  | [] => []
  | i :: rest =>
    a.tellOutput i ++ match a.outputFact i with
      | .ok _ => a.tellOutputs rest
      | .error _ => []

/-- The messages on what an operator combines by itself. -/
def tellRefine (op : Operator) (inputs : List TensorFact) (output : TensorFact) : List Message :=
  match op, inputs with
  | .identity, [x] | .relu, [x] => ofMeet x.withoutValue output.withoutValue
  | _, _ => []

/-- The messages on what is put on edges, if the operator's answer is in order. -/
def tellRefined (a : Analysis) (before after : List Nat) (refinement : Refinement) : List Message :=
  match refinement with
  | (newInputs, some newOutput) =>
    if newInputs.length = before.length then
      ofPairs (newInputs.zip (a.knownFacts before)
        ++ (a.knownFacts after).map fun f => (newOutput, f))
    else []
  | (_, none) => []

/-- The messages on what a node infers. -/
def tellInferred (a : Analysis) (node : Node) : List Message :=
  let before := a.incoming.getD node.id.toNat []
  let after := a.outgoing.getD node.id.toNat []
  match a.haveOnePort after with
  | .ok true =>
    let facts := a.knownFacts after
    ofMeets .unknown facts ++ match TensorFact.meetAll .unknown facts with
      | .error _ => []
      | .ok output =>
        let inputs := a.knownFacts before
        tellRefine node.op inputs output ++ match node.op.refine inputs output with
          | .error _ => []
          | .ok refinement => a.tellRefined before after refinement
  | _ => []

/-- The messages on a step. -/
def tellStep (a : Analysis) : List Message :=
  if a.plan.isEmpty then []
  else match a.currentNode with
    | .error _ => []
    | .ok node =>
      let direction := if a.forward then "True" else "False"
      let place := s!"[pass={a.passIndex}, direction={direction}, step={a.stepIndex}]."
      detail ("Starting step for " ++ node.name ++ " (" ++ node.label ++ ") " ++ place)
        :: a.tellInferred node

/-- The messages on a number of steps. -/
def tellSteps : Nat → Analysis → List Message
  | 0, _ => []
  | n + 1, a =>
    a.tellStep ++ match a.step with
      | .ok (_, a) => tellSteps n a
      | .error _ => []

/-- The messages on a pass from the start of the plan. -/
def tellPass (a : Analysis) : List Message :=
  let direction := if a.forward then "forward" else "backward"
  course s!"Starting pass [pass={a.passIndex}, direction={direction}]."
    :: tellSteps a.plan.length { a with stepIndex := 0 }

/-- The messages on a pass forwards and a pass backwards. -/
def tellRound (a : Analysis) : List Message :=
  let a := { a with forward := true }
  a.tellPass ++ match a.pass with
    | (.ok _, a) => a.tellPass
    | (.error _, _) => []

/-- The messages on rounds, as `rounds` makes them. -/
def tellRounds (limit : Option Nat) : Nat → Nat → Analysis → List Message
  | 0, _, _ => []
  | fuel + 1, done, a =>
    a.tellRound ++ match a.round with
      | (.ok true, a) =>
        if limit.any (· ≤ done + 1) then [] else tellRounds limit fuel (done + 1) a
      | _ => []

/-- The messages on a run. -/
def tellRun (a : Analysis) : List Message :=
  tellRounds a.roundLimit (a.roundLimit.getD a.roundBound) 0 { a with passIndex := 0 }

/-- The messages on the folding of a node to a value. -/
def tellFoldNode (a : Analysis) (node : Int) (value : Tensor) : List Message :=
  a.tellHint node (.ofTensor value)

/-- The messages on the search for nodes to fold. -/
def tellFoldable (a : Analysis) : List Message :=
  a.tellOutputs ((a.plan.filter fun i => !(a.nodes[i]?.any fun n => n.op.isConst)).map Int.ofNat)

/-- The messages on the folding of a node to its value. -/
def tellApplyFold (a : Analysis) (node : Int) : List Message :=
  a.tellOutput node ++
    match a.outputFact node with
    | .error _ => []
    | .ok fact =>
      let value := fact.value.or (match a.knownInputs node.toNat, a.nodes[node.toNat]? with
        | .ok (some inputs), some n => (n.op.eval inputs).toOption
        | _, _ => none)
      match value with
      | some value => a.tellFoldNode node value
      | none => []

/-- The messages on the folding of nodes in turn. -/
def tellFoldEach : List Nat → Analysis → List Message
  | [], _ => []
  | i :: rest, a =>
    a.tellApplyFold i ++ match a.applyFold i with
      | .ok a => tellFoldEach rest a
      | .error _ => []

/-- The messages on folding until no node is left to fold. -/
def tellFoldAll : Nat → Analysis → List Message
  | 0, _ => []
  | fuel + 1, a =>
    a.tellFoldable ++ match a.foldable with
      | .ok (i :: rest) =>
        tellFoldEach (i :: rest) a ++ match foldEach (i :: rest) a with
          | (.ok _, a) => tellFoldAll fuel a
          | (.error _, _) => []
      | _ => []

/-- The messages on a number of passes of folding. -/
def tellFoldPasses : Nat → Analysis → List Message
  | 0, _ => []
  | n + 1, a =>
    tellFoldAll (a.plan.length + 1) a ++ match a.foldPass with
      | (.ok _, a) => tellFoldPasses n a
      | (.error _, _) => []

/-- The messages on the folding of all constants. -/
def tellFoldConstants (a : Analysis) : List Message :=
  tellFoldPasses 1 a ++ match a.foldConstants with
    | (.ok folded, a) => a.tellPlan ++ [course s!"Folded {folded.length} constant nodes."]
    | (.error _, _) => []

/-- The messages on a new plan, if there is one. -/
def tellResetPlan (a : Analysis) : List Message :=
  match a.resetPlan with
  | .ok a => a.tellPlan
  | .error _ => []

/-- The messages on pruning. -/
def tellPrune (a : Analysis) : List Message :=
  match a.prune with
  | (.ok _, _) =>
    [course s!"Deleted {a.usedNodes.count false} unused nodes.",
      course s!"Deleted {a.usedEdges.count false} unused edges."]
  | (.error _, _) => []

/-- The messages on the report of all nodes. -/
def tellReport (a : Analysis) : List Message := a.tellOutputs (a.nodes.map Node.id)

end Analysis

end EdgeFacts
