/-
# Models written as literals

A module of a catalogue is written as a record, in which the name of a factory
leads to the list of the nodes of its model. A node is a record of its name, its
operator with attributes and its inputs; an input is the position of a producer,
alone or in a list with the position among the producer's outputs.

Key definitions: `NodeSpec.ofLiteral?`, `Member.ofLiteral`, `Catalogue.moduleOfLiteral`.
-/
import EdgeFacts.Graph.Catalogue
import EdgeFacts.Operator.Build

namespace EdgeFacts

/-- The input that a literal describes. -/
def Input.ofLiteral? : Literal → Option Input
  | .int producer => some ⟨producer, none⟩
  | .list [.int producer] => some ⟨producer, none⟩
  | .list [.int producer, .none] => some ⟨producer, none⟩
  | .list [.int producer, .int slot] => some ⟨producer, some slot⟩
  | _ => none

/-- The inputs that a node lists; a node without a list has none. -/
def Input.listOfLiteral? : Option Literal → Option (List Input)
  | none => some []
  | some (.list items) => items.mapM Input.ofLiteral?
  | some _ => none

/-- The node that a literal describes, unless its operator cannot be built. -/
def NodeSpec.ofLiteral? : Literal → Option (Except Failure NodeSpec)
  | .record fields =>
    match Literal.field? fields "name", Literal.field? fields "op",
      Input.listOfLiteral? (Literal.field? fields "inputs") with
    | some (.text name), some (.text operator), some inputs =>
      let attributes := match Literal.field? fields "attrs" with
        | some (.record attributes) => attributes
        | _ => []
      let label := match Literal.field? fields "op_name" with
        | some (.text label) => some label
        | _ => none
      some ((Operator.build operator attributes).map fun op => { name, label, op, inputs })
    | _, _, _ => none
  | _ => none

/-- The member of a module that a literal describes. -/
def Member.ofLiteral : Literal → Member
  | .list nodes =>
    match nodes.mapM NodeSpec.ofLiteral? with
    | some specs => .modelFactory (do Model.ofSpecs (← specs.mapM id))
    | none => .otherFactory (Literal.list nodes).kindName
  | x => .otherFactory x.kindName

/-- The members of the module that a literal describes. -/
def Catalogue.moduleOfLiteral : Literal → Table Member
  | .record fields => fields.map fun f => (f.1, Member.ofLiteral f.2)
  | _ => []

end EdgeFacts
