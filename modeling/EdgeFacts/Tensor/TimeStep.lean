/-
# Steps of time

Times are counted in steps: a number of units. A step is written in brackets, its
number left out if it is 1, and may be given as a fraction of a coarser unit
(`TimeStep.read`).

Key definitions: `TimeUnit`, `TimeStep`, `TimeStep.text`, `TimeStep.read`.
Key theorems: `TimeStep.read_nil`, `TimeUnit.ofSymbol?_symbol`.
-/
import EdgeFacts.Text.Digit

namespace EdgeFacts

-- Powers and sums are those of the core library, whatever else is imported.
attribute [local instance (high)] instPowNat Zero.ofOfNat0

/-- The units of time, the coarsest first. -/
inductive TimeUnit where
  | year
  | month
  | week
  | day
  | hour
  | minute
  | second
  | milli
  | micro
  | nano
  | pico
  | femto
  | atto
deriving DecidableEq, Repr

namespace TimeUnit

def symbol : TimeUnit → String
  | year => "Y"
  | month => "M"
  | week => "W"
  | day => "D"
  | hour => "h"
  | minute => "m"
  | second => "s"
  | milli => "ms"
  | micro => "us"
  | nano => "ns"
  | pico => "ps"
  | femto => "fs"
  | atto => "as"

def all : List TimeUnit :=
  [year, month, week, day, hour, minute, second, milli, micro, nano, pico, femto, atto]

/-- The unit with a symbol; that of microseconds may have the Greek letter. -/
def ofSymbol? (s : String) : Option TimeUnit :=
  if s = "μs" then some micro else all.find? (·.symbol = s)

theorem ofSymbol?_symbol (u : TimeUnit) : ofSymbol? u.symbol = some u := by
  cases u <;> decide

/-- The units that a unit may be divided into, and how many of each it has. -/
def parts : TimeUnit → List (Nat × TimeUnit)
  | year => [(12, month), (52, week), (365, day)]
  | month => [(4, week), (30, day), (720, hour)]
  | week => [(7, day), (168, hour), (10080, minute), (604800, second)]
  | day => [(24, hour), (1440, minute), (86400, second)]
  | hour => [(60, minute), (3600, second)]
  | minute => [(60, second), (60000, milli)]
  | second => [(1000, milli), (1000000, micro)]
  | milli => [(1000, micro), (1000000, nano)]
  | micro => [(1000, nano), (1000000, pico)]
  | nano => [(1000, pico), (1000000, femto)]
  | pico => [(1000, femto), (1000000, atto)]
  | femto => [(1000, atto)]
  | atto => []

end TimeUnit

/-- A number of units. -/
structure TimeStep where
  count : Int
  unit : TimeUnit
deriving DecidableEq, Repr

/-- Why a text gives no step. -/
inductive TimeFault where
  /-- The text has not the form of a step, from a position on if one is known. -/
  | malformed (text : String) (position : Option Nat)
  | unknownUnit (text : String)
  /-- No unit that the given one has parts in is a multiple of the fraction. -/
  | indivisible (divisor : Int) (text : String)
  /-- A fraction of no unit. -/
  | dividedNothing
deriving DecidableEq, Repr

namespace TimeStep

/-- The step in brackets. -/
def text (s : TimeStep) : String :=
  "[" ++ (if s.count = 1 then "" else toString s.count) ++ s.unit.symbol ++ "]"

/-- The greatest count. -/
def maxCount : Int := 2 ^ (31 : Nat) - 1

/-- The number of bytes of a text. -/
def byteCount (s : List Char) : Nat := (s.map Char.utf8Size).sum

/-- The fault of a text whose form is broken where `rest` begins. -/
def brokenAt {α : Type} (all rest : List Char) : Except TimeFault α :=
  .error (.malformed (String.ofList all) (some (byteCount all - byteCount rest)))

/-- The count at the front of a step, 1 if there is none, and the rest. -/
def readCount (all body : List Char) : Except TimeFault (Int × List Char) :=
  match Text.leadingInteger? body with
  | none => .ok (1, body)
  | some (n, rest) => if n < 0 ∨ maxCount < n then brokenAt all body else .ok (n, rest)

/-- The unit with a symbol; `none` stands for no unit. -/
def readUnit (all symbol : List Char) : Except TimeFault (Option TimeUnit) :=
  if symbol = "generic".toList then .ok none
  else match TimeUnit.ofSymbol? (String.ofList symbol) with
    | some u => .ok (some u)
    | none => .error (.unknownUnit (String.ofList all))

/-- What a step is divided by: what stands behind a solidus, up to the bracket. -/
def readDivisor (all : List Char) : List Char → Except TimeFault (Int × List Char)
  | '/' :: rest =>
    match Text.leadingInteger? rest with
    | some (n, ']' :: behind) => .ok (n, ']' :: behind)
    | _ => brokenAt all rest
  | rest => .ok (1, rest)

/-- A step divided by a number: a number of finer units. -/
def divide (all : List Char) (count : Int) (unit : Option TimeUnit) (divisor : Int) :
    Except TimeFault (Option TimeStep) :=
  match unit with
  | none => if divisor = 1 then .ok none else .error .dividedNothing
  | some u =>
    if divisor = 1 then .ok (some ⟨count, u⟩)
    else match u.parts.find? fun p => (p.1 : Int) % divisor = 0 with
      | some (n, finer) => .ok (some ⟨count * (n / divisor), finer⟩)
      | none => .error (.indivisible divisor (String.ofList all))

/-- Reads a step in brackets; an empty text and the unit `generic` give none. -/
def read (s : List Char) : Except TimeFault (Option TimeStep) :=
  if s.isEmpty then .ok none
  else if byteCount s < 3 then .error (.malformed (String.ofList s) none)
  else match s with
    | '[' :: body => do
      let behind := body.dropWhile (· ≠ ']')
      if behind.isEmpty || body.head? = some ']' then brokenAt s behind
      else
        let (count, rest) ← readCount s body
        let symbol := rest.takeWhile fun c => c ≠ '/' && c ≠ ']'
        if symbol.isEmpty then brokenAt s rest
        else
          let unit ← readUnit s symbol
          let (divisor, rest) ← readDivisor s (rest.drop symbol.length)
          let step ← divide s count unit divisor
          match rest with
          | [']'] => return step
          | _ => brokenAt s (rest.drop 1)
    | _ => .error (.malformed (String.ofList s) (some 1))

theorem read_nil : read [] = .ok none := rfl

end TimeStep

end EdgeFacts
