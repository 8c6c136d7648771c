/-
# Invocations

The commands, their options, and what the arguments of a call ask for. The first
argument that begins no option names the command; what stands before it are
options of the program. Help is given whenever all arguments can be read, even
if some are missing.

Key definitions: `Invocation`, `Invocation.ofArguments`.
-/
import EdgeFacts.Analysis.Request
import EdgeFacts.Command.Options
import EdgeFacts.Text.Digit

namespace EdgeFacts.Command

/-- The names of the commands. -/
inductive Name where
  | ops
  | analyse
  | run
deriving DecidableEq, Repr

namespace Name

def text : Name → String
  | ops => "ops"
  | analyse => "analyse"
  | run => "run"

def all : List Name := [ops, analyse, run]

/-- The command with a name. -/
def ofText? (s : String) : Option Name := all.find? (·.text = s)

/-- What the command does. -/
def purpose : Name → String
  | ops => "List the registered operators."
  | analyse => "Infer the datatype, shape and value of every node output."
  | run => "Analyse a model and write the inferred facts as JSON."

end Name

/-- What a call asks for. -/
inductive Invocation where
  /-- Help, on a command or on the program. -/
  | help (command : Option Name)
  | ops
  | analyse (request : Request)
  | run (request : Request) (directory : String)
deriving Repr

def helpOption : OptionSpec := ⟨"help", none, false⟩

/-- The options that both analysing commands have. -/
def requestOptions : List OptionSpec := [⟨"output", some 'o', true⟩, ⟨"hint", some 'H', true⟩]

/-- The options of a command. -/
def Name.options : Name → List OptionSpec
  | .ops => [helpOption]
  | .analyse => requestOptions ++ [
      ⟨"fold", none, false⟩, ⟨"no-fold", none, false⟩, ⟨"prune", none, false⟩,
      ⟨"no-prune", none, false⟩, ⟨"max-passes", none, true⟩, helpOption]
  | .run => requestOptions ++ [⟨"output-dir", none, true⟩, helpOption]

/-- Where facts are written if nothing else is asked for. -/
def defaultDirectory : String := "./outputs"

/-- The number that an option is given. -/
def whole (name : String) (items : List Item) : Except UsageFault Literal :=
  match lastValue? name items with
  | none => .ok .none
  | some text =>
    match Text.readPlainInteger? text.toList with
    | some n => .ok (.int n)
    | none => .error (.notWhole ("--" ++ name) text)

/-- The request that a command is given. A command without the switches folds
and prunes. -/
def requestOf (items : List Item) : Except UsageFault Request := do
  return {
    factory := ← soleOperand "FACTORY" items
    output := ← required "output" items
    hints := values "hint" items
    fold := switch "fold" "no-fold" true items
    prune := switch "prune" "no-prune" true items
    maxPasses := ← whole "max-passes" items }

namespace Invocation

/-- What a command's items ask for. -/
def ofItems (name : Name) (items : List Item) : Except UsageFault Invocation :=
  if items.contains (.flag helpOption.name) then .ok (.help (some name))
  else match name with
    | .ops => do
      noOperand items
      return ops
    | .analyse => do return analyse (← requestOf items)
    | .run => do
      return run (← requestOf items) ((lastValue? "output-dir" items).getD defaultDirectory)

/-- What a command with its arguments asks for. -/
def ofCommand : List String → Except UsageFault Invocation
  | [] => .error .noCommand
  | command :: args =>
    match Name.ofText? command with
    | none => .error (.unknownCommand command)
    | some name => do ofItems name (← readItems name.options none args)

/-- The arguments without two dashes in front. -/
def dropEscape : List String → List String
  | [] => []
  | arg :: rest => if arg = "--" then rest else arg :: rest

/-- What arguments ask for. -/
def ofArguments (args : List String) : Except UsageFault Invocation := do
  let isProgramOption (arg : String) : Bool := isOption arg && arg ≠ "--"
  let items ← readItems [helpOption] none (args.takeWhile isProgramOption)
  if items.contains (.flag helpOption.name) then return help none
  else ofCommand (dropEscape (args.dropWhile isProgramOption))

end Invocation

end EdgeFacts.Command
