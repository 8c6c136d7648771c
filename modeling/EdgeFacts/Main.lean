/-
# The command line

Runs the program on its arguments. A module of model factories is a JSON file in
the working directory with the module's name.
-/
import EdgeFacts.Command.Reply
import EdgeFacts.Graph.Description

namespace EdgeFacts

/-- The variables of the environment that settings are taken from. -/
def settingVariables : List String := ["SHAPEFLOW_MAX_PASSES", "SHAPEFLOW_LOG_LEVEL"]

/-- The environment, as far as settings are taken from it. -/
def readEnvironment : IO (Table String) :=
  settingVariables.filterMapM fun name => do
    return (← IO.getEnv name).map fun value => (name, value)

/-- The module of the given name, if there is a file for it. -/
def readModule (name : String) : IO Catalogue := do
  match ← (IO.FS.readFile (name ++ ".json")).toBaseIO with
  | .error _ => return []
  | .ok contents =>
    match Literal.ofJson? contents with
    | some x => return [(name, Catalogue.moduleOfLiteral x)]
    | none => return []

/-- The modules that an invocation can refer to. -/
def readCatalogue (args : List String) : IO Catalogue := do
  match Command.Invocation.ofArguments args with
  | .ok (.analyse request) | .ok (.run request _) =>
    match Catalogue.parseReference request.factory with
    | .ok (name, _) => readModule (String.ofList (name.toList.takeWhile (· ≠ '.')))
    | .error _ => return []
  | _ => return []

/-- Writes a file and the directories that it is in. -/
def writeFile (file : Path × String) : IO Unit := do
  IO.FS.createDirAll file.1.parent.text
  IO.FS.writeFile file.1.text file.2

end EdgeFacts

open EdgeFacts in
/-- Runs the program. -/
def main (args : List String) : IO UInt32 := do
  let reply := Command.perform (← readEnvironment) (← readCatalogue args) args
  reply.files.forM writeFile
  IO.print reply.output
  IO.eprint reply.complaint
  return UInt32.ofNat reply.exitCode
