/-
# Execution plans

A plan lists the nodes that some outputs need, each after its producers. It is made
by counting: each node waits for a number of producers, and those that wait for none
are queued. The least node of the queue comes next; the nodes that use it wait for one
less then.

Key definitions: `Plan.collect`, `Plan.Counts`, `Plan.awaitAll`, `Plan.drain`, `Plan.order`,
`Plan.ofNodes`.
-/
import EdgeFacts.Fact.Meet
import EdgeFacts.Graph.Basic
import EdgeFacts.Table

namespace EdgeFacts

-- Sums are those of the core library, whatever else is imported.
attribute [local instance (high)] Zero.ofOfNat0

/-- The first producer among the inputs that is not a node of the graph. -/
def Node.danglingProducer? (n : Node) (count : Nat) : Option Int :=
  (n.inputs.map Input.producer).find? fun p => !(decide (0 ≤ p) && decide (p < (count : Int)))

/-- The indices of the node's producers. -/
def Node.producers (n : Node) : List Nat := n.inputs.map fun i => i.producer.toNat

namespace Plan

/-- The producers of the node with the given index. -/
def producersAt (nodes : List Node) (i : Nat) : List Nat :=
  match nodes[i]? with
  | some n => n.producers
  | none => []

/-- Walks backwards from the nodes on a stack, the next one at its head, and
adds to `seen` all nodes met. A node is expanded once, so no more steps are
needed than the stack and all inputs have entries. -/
def collect (nodes : List Node) : Nat → List Nat → List Nat → Except Failure (List Nat)
  | 0, _, seen => .ok seen
  | _, [], seen => .ok seen
  | fuel + 1, i :: stack, seen =>
    if seen.contains i then collect nodes fuel stack seen
    else
      match nodes[i]? with
      | none => collect nodes fuel stack seen
      | some n =>
        match n.danglingProducer? nodes.length with
        | some p => .error (.because (.plannedDanglingInput n.name p i))
        | none =>
          let seen := i :: seen
          collect nodes fuel ((n.producers.filter fun p => !seen.contains p).reverse ++ stack) seen

/-- What planning counts of the nodes to plan: which of them use a node, each once, and
how many producers a node waits for. -/
structure Counts where
  users : List (Nat × List Nat)
  waits : List (Nat × Int)

/-- The entry for a node to plan. -/
def entryOf {α : Type} (entries : List (Nat × α)) (i : Nat) : Except Failure α :=
  orFail (.primitive .noSuchKey) (lookup? entries i)

/-- Lets a node wait for one of its producers, unless it does so already. -/
def await (c : Counts) (node producer : Nat) : Except Failure Counts := do
  let users ← entryOf c.users producer
  if users.contains node then return c
  else return ⟨replace c.users producer (users ++ [node]), replace c.waits node ((← entryOf c.waits node) + 1)⟩

/-- Lets the nodes to plan wait for their producers. -/
def awaitAll (nodes : List Node) (required : List Nat) : Except Failure Counts :=
  required.foldlM (fun c i => (producersAt nodes i).foldlM (await · i) c)
    ⟨required.map (·, []), required.map (·, 0)⟩

/-- Lets a node wait for one producer less; it is queued when it waits for none. -/
def release (waits : List (Nat × Int)) (queue : List Nat) (node : Nat) :
    Except Failure (List (Nat × Int) × List Nat) := do
  let count ← entryOf waits node
  return (replace waits node (count - 1), if count - 1 = 0 then queue ++ [node] else queue)

/-- Takes the least node of the queue, as long as there is one, and releases its users;
gives the order, and what nodes wait for in the end. -/
def drain (users : List (Nat × List Nat)) :
    Nat → List (Nat × Int) → List Nat → List Nat → Except Failure (List Nat × List (Nat × Int))
  | 0, waits, _, order => .ok (order, waits)
  | fuel + 1, waits, queue, order =>
    match queue.min? with
    | none => .ok (order, waits)
    | some i => do
      let (waits, queue) ← (← entryOf users i).foldlM (fun s j => release s.1 s.2 j) (waits, queue.erase i)
      drain users fuel waits queue (order ++ [i])

/-- Nodes in order, each after its producers. If nodes are left over, the least one that
waits is told. No node is taken twice, so no more are taken than there are. -/
def order (nodes : List Node) (required : List Nat) : Except Failure (List Nat) := do
  let counts ← awaitAll nodes required
  let idle := (counts.waits.filter fun e => e.2 = 0).map (·.1)
  let (order, waits) ← drain counts.users required.length counts.waits idle []
  if order.length = required.length then return order
  else match ((waits.filter fun e => 0 < e.2).map (·.1)).min? with
    | some stuck => throw (.because (.cycle stuck))
    | none => throw (.primitive .mismatch)

/-- The indices of the outputs, which must be nodes of the graph. -/
def outputIndices (count : Nat) : List Int → Except Failure (List Nat)
  | [] => .ok []
  | o :: rest =>
    if 0 ≤ o ∧ o < count then do return o.toNat :: (← outputIndices count rest)
    else .error (.because (.outputOutside o))

/-- The number of inputs of all nodes. -/
def inputCount (nodes : List Node) : Nat := (nodes.map fun n => n.inputs.length).sum

/-- The plan for some outputs. -/
def ofNodes (nodes : List Node) (outputs : List Int) : Except Failure (List Nat) := do
  let outputs ← outputIndices nodes.length outputs
  let seen ← collect nodes (outputs.length + inputCount nodes) outputs.reverse []
  order nodes ((List.range nodes.length).filter seen.contains)

end Plan

end EdgeFacts
