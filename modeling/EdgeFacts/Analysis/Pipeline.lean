/-
# The whole analysis

From a model, the name of its output and hints to the facts about all nodes:
the hints are added, the analysis runs, constants are folded and the analysis
runs again, and what the output does not need is removed.

Key definitions: `Hints.parse`, `Analysis.ofModel`.
-/
import EdgeFacts.Analysis.Fold
import EdgeFacts.Analysis.Prune
import EdgeFacts.Fact.Notation
import EdgeFacts.Settings

namespace EdgeFacts

/-- Facts about the outputs of nodes, by the names of the nodes. -/
abbrev Hints := Table TensorFact

namespace Hints

/-- Reads one hint, a name and a fact with an equals sign between them. -/
def parseItem (item : String) : Except Failure (String × TensorFact) :=
  match Text.cutAt? '=' item.toList with
  | none => .error (.input (.notHint item))
  | some (name, fact) =>
    let name := Text.trim name
    if name.isEmpty then .error (.input (.notHint item))
    else do return (String.ofList name, ← TensorFact.parse (String.ofList fact))

/-- Reads hints; of two for one name the later counts. -/
def parse (items : List String) : Except Failure Hints := do
  return Table.ofList (← items.mapM parseItem)

end Hints

namespace Analysis

/-- The state that an operation came to, unless it failed. -/
def completed {α : Type} : Outcome α → Except Failure Analysis
  | (.ok _, a) => .ok a
  | (.error e, _) => .error e

/-- Adds hints in order. -/
def hintAll (a : Analysis) (hints : Hints) : Except Failure Analysis :=
  hints.foldlM (fun a h => a.hintByName h.1 h.2) a

/-- Folds constants and runs again. -/
def foldAndRun (a : Analysis) : Except Failure Analysis := do
  completed (← completed a.foldConstants).run

/-- Analyses a model for the output with the given name. -/
def ofModel (model : Model) (output : String) (hints : Hints) (fold prune : Bool)
    (roundLimit : Option Nat) : Except Failure Analysis := do
  match model.index.find? output with
  | none => throw (.because (.noNodeNamed output))
  | some id =>
    let a ← start model id roundLimit
    let a ← a.hintAll hints
    let a ← completed a.run
    let a ← if fold then a.foldAndRun else pure a
    if prune then completed a.prune else return a

end Analysis

end EdgeFacts
