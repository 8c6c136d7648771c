/-
# Loggers

Loggers have names of parts with dots between them, and all are below one root,
which has the level from which on messages are written.

Key definitions: `Logger.fullName`, `LogRoot`, `LogRoot.configure`.
Key theorems: `Logger.fullName_fullName`.
-/
import EdgeFacts.Settings

namespace EdgeFacts

namespace Logger

/-- The name of the root. -/
def rootName : List Char := "shapeflow".toList

/-- Whether a name is the root's or below it. -/
def isRooted (name : List Char) : Bool :=
  name = rootName || (rootName ++ ['.']).isPrefixOf name

/-- The name of the logger that a name asks for: the root's if it is empty, and
one below the root. -/
def fullName (name : List Char) : List Char :=
  if name.isEmpty then rootName
  else if isRooted name then name
  else rootName ++ '.' :: name

theorem isRooted_fullName (name : List Char) : isRooted (fullName name) = true := by
  unfold fullName
  split
  · simp [isRooted]
  · split
    · assumption
    · simp [isRooted, List.isPrefixOf_iff_prefix]

/-- A full name asks for itself. -/
theorem fullName_fullName (name : List Char) : fullName (fullName name) = fullName name := by
  have rooted := isRooted_fullName name
  generalize fullName name = full at rooted ⊢
  cases full with
  | nil => exact absurd rooted (by decide)
  | cons c rest => simp [fullName, rooted]

end Logger

/-- The root of the loggers: the severity from which on it writes messages, and
how many places it writes them to. -/
structure LogRoot where
  /-- A number or a truth value. -/
  level : Literal
  handlers : Nat
deriving Repr

namespace LogRoot

/-- The root before it is configured. -/
def fresh : LogRoot := ⟨.int 0, 0⟩

/-- The severity that a literal gives: a whole number or truth value is one, and a
text names a level. -/
def severityOf : Literal → Except Failure Literal
  | .int n => .ok (.int n)
  | .bool b => .ok (.bool b)
  | .text name =>
    match LogLevel.ofName? name with
    | some level => .ok (.int level.severity)
    | none => .error (.primitive .mismatch)
  | _ => .error (.primitive .wrongKind)

/-- Gives the root one place to write to and the level; a literal that gives no
level leaves the one it has. -/
def configure (r : LogRoot) (level : Literal) : Except Failure Literal × LogRoot :=
  match severityOf level with
  | .ok severity => (.ok severity, ⟨severity, 1⟩)
  | .error e => (.error e, { r with handlers := 1 })

end LogRoot

end EdgeFacts
