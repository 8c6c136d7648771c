/-
# Replies

What an invocation comes to: help, a complaint about its arguments, a failure or
output and files. `analyse` tells of a failure that comes of its input in one
line; every other failure is passed on whole.

Key definitions: `Reply`, `Invocation.perform`, `perform`.
-/
import EdgeFacts.Command.Invocation
import EdgeFacts.Failure.Wording
import EdgeFacts.Literal.Json
import EdgeFacts.Operator.Build
import EdgeFacts.Text.Path
import EdgeFacts.Text.Style

namespace EdgeFacts.Command

/-- What an invocation comes to. -/
inductive Reply where
  | help (command : Option Name)
  /-- The arguments cannot be used. -/
  | misused (fault : UsageFault)
  /-- A failure that comes of the input and is told in a line. -/
  | refused (failure : Failure)
  /-- A failure that is passed on. -/
  | failed (failure : Failure)
  /-- Output, and files with their contents. -/
  | done (output : String) (files : List (Path × String))

/-- Whether a failure comes of the input: a model, a hint or a setting. -/
def comesOfInput : Failure → Bool
  | .analysis .. | .input _ | .numeral _ | .longNumeral _ => true
  | .primitive .mismatch | .primitive .noSuchAxis => true
  | .dtype fault => fault.isContentFault
  | _ => false

/-- Facts with a line for each name. -/
def factLines (facts : Table String) : String :=
  String.join (facts.map fun f => f.1 ++ ": " ++ f.2 ++ "\n")

/-- The file that facts are written to. -/
def factFile (directory : String) : Path := (Path.ofText directory).child "facts.json"

namespace Invocation

/-- Performs an invocation in an environment. -/
def perform (env : Table String) (c : Catalogue) : Invocation → Reply
  | help command => .help command
  | ops => .done (String.join (Registry.library.names.map (· ++ "\n"))) []
  | analyse request =>
    match request.analyse env c with
    | .error f => if comesOfInput f then .refused f else .failed f
    | .ok a =>
      match a.report with
      | .error f => .failed f
      | .ok facts => .done (factLines facts) []
  | run request directory =>
    match request.factsLoaded env c with
    | .error f => .failed f
    | .ok facts =>
      let file := factFile directory
      match file.parent.fault? with
      | some fault => .failed (.path fault)
      | none =>
        .done ("Results written to: " ++ file.text ++ "\n") [(file, Literal.toJsonLines facts)]

end Invocation

/-- Performs what arguments ask for. -/
def perform (env : Table String) (c : Catalogue) (args : List String) : Reply :=
  match Invocation.ofArguments args with
  | .error fault => .misused fault
  | .ok invocation => invocation.perform env c

/-! ### What is shown -/

def UsageFault.message : UsageFault → String
  | noCommand => "Missing command."
  | unknownCommand name => s!"No such command '{name}'."
  | unknownOption shown => "No such option: " ++ shown
  | valueMissing option => s!"Option '{option}' requires an argument."
  | valueUnexpected option => s!"Option '{option}' does not take a value."
  | optionMissing option => s!"Missing option '{option}'."
  | operandMissing name => s!"Missing argument '{name}'."
  | surplusOperand text => s!"Got unexpected extra argument ({text})"
  | notWhole option text => s!"Invalid value for '{option}': '{text}' is not a valid integer."

/-- An option as help shows it. -/
def OptionSpec.help (o : OptionSpec) : String :=
  let short := match o.letter with
    | some c => ", -" ++ String.ofList [c]
    | none => ""
  "  --" ++ o.name ++ short ++ (if o.takesValue then " VALUE" else "") ++ "\n"

/-- The help on a command. -/
def Name.help (n : Name) : String :=
  let operand := if n = .ops then "" else " FACTORY"
  "Usage: edgefacts " ++ n.text ++ " [OPTIONS]" ++ operand ++ "\n\n" ++ n.purpose ++
    "\n\nOptions:\n" ++ String.join (n.options.map OptionSpec.help)

/-- The help on the program. -/
def programHelp : String :=
  "Usage: edgefacts [OPTIONS] COMMAND [ARGS]...\n\nCommands:\n" ++
    String.join (Name.all.map fun n => "  " ++ n.text ++ ": " ++ n.purpose ++ "\n")

namespace Reply

/-- Success is 0, a failure 1 and misuse 2. -/
def exitCode : Reply → Nat
  | help _ | done .. => 0
  | refused _ | failed _ => 1
  | misused _ => 2

/-- A text as it is shown, without terminal styles. -/
def plain (s : String) : String := String.ofList (Text.dropStyles s.toList)

/-- What is written to the standard output. -/
def output : Reply → String
  | help (some name) => name.help
  | help none => programHelp
  | done output _ => plain output
  | _ => ""

/-- What is written to the standard error. -/
def complaint : Reply → String
  | misused fault => fault.message ++ "\n"
  | refused f => "error: " ++ plain f.text ++ "\n"
  | failed f => f.text ++ "\n"
  | _ => ""

/-- The files that are written. -/
def files : Reply → List (Path × String)
  | done _ files => files
  | _ => []

end Reply

end EdgeFacts.Command
