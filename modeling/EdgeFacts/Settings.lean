/-
# Settings

The settings of a run: the largest number of rounds, if there is one, and the
level from which on messages are logged. They are given as literals or taken
from the environment.

Key definitions: `LogLevel`, `Settings`, `Settings.make`, `Settings.ofEnvironment`,
`Settings.roundLimit`.
-/
import EdgeFacts.Failure.Basic
import EdgeFacts.Text.Digit

namespace EdgeFacts

/-- The levels of log messages; two of them have a second name. -/
inductive LogLevel where
  | critical
  | fatal
  | error
  | warning
  | warn
  | info
  | debug
  | notset
deriving DecidableEq, Repr

namespace LogLevel

def name : LogLevel → String
  | critical => "CRITICAL"
  | fatal => "FATAL"
  | error => "ERROR"
  | warning => "WARNING"
  | warn => "WARN"
  | info => "INFO"
  | debug => "DEBUG"
  | notset => "NOTSET"

/-- How severe messages of the level are. -/
def severity : LogLevel → Int
  | critical | fatal => 50
  | error => 40
  | warning | warn => 30
  | info => 20
  | debug => 10
  | notset => 0

def all : List LogLevel := [critical, fatal, error, warning, warn, info, debug, notset]

/-- The capital letter of a letter, as far as names of levels can have it: that
of a Latin letter, of the dotless i and of the long s. -/
def capital (c : Char) : Char :=
  if c = 'ı' then 'I' else if c = 'ſ' then 'S' else c.toUpper

/-- The level with a name in letters of either case. -/
def ofName? (s : String) : Option LogLevel :=
  all.find? fun l => l.name = String.ofList (s.toList.map capital)

end LogLevel

/-- The settings of a run. -/
structure Settings where
  /-- A number above zero, or null. -/
  maxPasses : Literal
  logLevel : LogLevel
deriving Repr

namespace Settings

/-- The largest number of rounds; it need not be whole and may be null. -/
def checkPasses (x : Literal) : Except Failure Unit :=
  match x, x.number? with
  | .none, _ => .ok ()
  | _, none => .error (.primitive .wrongKind)
  | x, some n =>
    if n.isZero || n.isNegative then .error (.input (.passLimit x.render)) else .ok ()

/-- The settings from a number of rounds and the name of a level. -/
def make (maxPasses level : Literal) : Except Failure Settings := do
  checkPasses maxPasses
  match level with
  | .text name =>
    match LogLevel.ofName? name with
    | some logLevel => return ⟨maxPasses, logLevel⟩
    | none => throw (.input (.logLevel name))
  | _ => throw (.primitive .noSuchMember)

/-- The level if none is given. -/
def defaultLevel : String := "WARNING"

/-- The number of rounds that a text gives; an empty one gives none. -/
def readPasses (raw : String) : Except Failure Literal :=
  if raw.isEmpty then .ok .none
  else match Text.readInteger? raw.toList with
    | some n => .ok (.int n)
    | none => .error (.input (.passLimitText raw))

/-- The settings that an environment gives. -/
def ofEnvironment (env : Table String) : Except Failure Settings := do
  let passes ← readPasses ((env.find? "SHAPEFLOW_MAX_PASSES").getD "")
  make passes (.text ((env.find? "SHAPEFLOW_LOG_LEVEL").getD defaultLevel))

/-- The settings with another number of rounds, unless that is null. -/
def withPasses (s : Settings) (passes : Literal) : Except Failure Settings :=
  match passes with
  | .none => .ok s
  | passes => do
    checkPasses passes
    return { s with maxPasses := passes }

/-- The least whole number of rounds that reaches the limit. -/
def roundLimit (s : Settings) : Option Nat :=
  match s.maxPasses.number? with
  | some (.finite q) => some (-(-q).floor).toNat
  | _ => none

end Settings

end EdgeFacts
