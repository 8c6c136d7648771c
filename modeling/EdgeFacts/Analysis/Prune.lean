/-
# Pruning

Removes the nodes that are not in the plan and the edges that touch none of it.
What is left is renumbered without gaps, in order.

Key definitions: `denseMapping`, `Analysis.prune`.
-/
import EdgeFacts.Analysis.Run

namespace EdgeFacts

/-- The new positions of what is kept, counted from `next`; the rest has none. -/
def denseMapping : Nat → List Bool → List (Option Nat)
  | _, [] => []
  | next, true :: rest => some next :: denseMapping (next + 1) rest
  | next, false :: rest => none :: denseMapping next rest

namespace Analysis

/-- The new number of a node that must be kept. -/
def renamed (mapping : List (Option Nat)) (i : Int) : Except Failure Nat :=
  match (position? mapping.length i).bind (mapping[·]?) with
  | none => .error (.primitive .noSuchPosition)
  | some none => .error (.because (.deletedNode i))
  | some (some j) => .ok j

/-- The new number of an edge that must be kept. -/
def renamedEdge (mapping : List (Option Nat)) (j : Nat) : Except Failure Nat :=
  match mapping[j]? with
  | none => .error (.primitive .noSuchPosition)
  | some none => .error (.because (.deletedEdge j))
  | some (some k) => .ok k

/-- Which nodes are in the plan. -/
def usedNodes (a : Analysis) : List Bool := (List.range a.nodes.length).map a.plan.contains

/-- Which edges go into or out of a node of the plan. -/
def usedEdges (a : Analysis) : List Bool :=
  let touched := a.plan.flatMap fun i => a.incoming.getD i [] ++ a.outgoing.getD i []
  (List.range a.edges.length).map touched.contains

/-- The items that are kept. -/
def kept {α : Type} : List Bool → List α → List α
  | true :: used, x :: xs => x :: kept used xs
  | false :: used, _ :: xs => kept used xs
  | _, _ => []

/-- The node with its own number and those of its producers renamed. -/
def renameNode (mapping : List (Option Nat)) (n : Node) : Except Failure Node := do
  let id ← renamed mapping n.id
  let inputs ← n.inputs.mapM fun i => do
    let p ← renamed mapping i.producer
    return { i with producer := (p : Int) }
  return { n with id := (id : Int), inputs }

/-- The edge with its own number and those of its ends renamed; an end at a
deleted node is lost. -/
def renameEdge (nodes edges : List (Option Nat)) (e : Edge) : Except Failure Edge := do
  let id ← renamedEdge edges e.id
  return { e with
    id
    source := e.source.bind fun i => (nodes[i]?).join
    target := e.target.bind fun i => (nodes[i]?).join }

/-- Renames the lists of edges into and out of nodes. -/
def pruneLinks (a : Analysis) (nodes : List Bool) (edges : List (Option Nat)) : Outcome Unit :=
  let rename (lists : List (List Nat)) : Except Failure (List (List Nat)) :=
    (kept nodes lists).mapM fun js => js.mapM (renamedEdge edges)
  match rename a.incoming with
  | .error e => (.error e, a)
  | .ok incoming =>
    let a := { a with incoming }
    match rename a.outgoing with
    | .error e => (.error e, a)
    | .ok outgoing => (.ok (), { a with outgoing })

/-- Renames the nodes and the edges that are kept. -/
def pruneItems (a : Analysis) (usedNodes usedEdges : List Bool)
    (nodes edges : List (Option Nat)) : Outcome Unit :=
  let a := { a with nodes := kept usedNodes a.nodes }
  match a.nodes.mapM (renameNode nodes) with
  | .error e => (.error e, a)
  | .ok renamedNodes =>
    let a := { a with nodes := renamedNodes, edges := kept usedEdges a.edges }
    match a.edges.mapM (renameEdge nodes edges) with
    | .error e => (.error e, a)
    | .ok renamedEdges => (.ok (), { a with edges := renamedEdges })

/-- Renames the output and the plan. -/
def prunePlan (a : Analysis) (nodes : List (Option Nat)) : Outcome Unit :=
  match renamed nodes a.output with
  | .error e => (.error e, a)
  | .ok output =>
    let a := { a with output := (output : Int) }
    match a.plan.mapM fun (i : Nat) => renamed nodes i with
    | .error e => (.error e, a)
    | .ok plan => (.ok (), { a with plan, stepIndex := 0 })

/-- Removes what the plan does not need; gives the new number of each node. -/
def prune (a : Analysis) : Outcome (List (Option Nat)) :=
  if a.plan.any fun i => decide (a.nodes.length ≤ i) then (.error (.primitive .noSuchPosition), a)
  else
    let usedNodes := a.usedNodes
    let usedEdges := a.usedEdges
    let nodes := denseMapping 0 usedNodes
    let edges := denseMapping 0 usedEdges
    match a.pruneLinks usedNodes edges with
    | (.error e, a) => (.error e, a)
    | (.ok _, a) =>
      match a.pruneItems usedNodes usedEdges nodes edges with
      | (.error e, a) => (.error e, a)
      | (.ok _, a) =>
        match a.prunePlan nodes with
        | (.error e, a) => (.error e, a)
        | (.ok _, a) => (.ok nodes, a)

end Analysis

end EdgeFacts
