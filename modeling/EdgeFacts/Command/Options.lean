/-
# Options and operands

The arguments of a command are options and operands in any order. A long option
stands behind two dashes, and its value behind an equals sign or in the next
argument; short options stand behind one dash, several together, and the value
of the last stands right behind it or in the next argument. Behind `--` there are
operands only.

Key definitions: `OptionSpec`, `Item`, `readItems`.
Key theorems: `readItems_operands`, `readItems_escaped`.
-/
import EdgeFacts.Text.Split

namespace EdgeFacts.Command

/-- An option that a command has. -/
structure OptionSpec where
  /-- The long name, without dashes. -/
  name : String
  /-- The letter of the short name, if there is one. -/
  letter : Option Char
  takesValue : Bool
deriving DecidableEq, Repr

/-- One thing that arguments say. -/
inductive Item where
  | flag (name : String)
  | setting (name value : String)
  | operand (text : String)
deriving DecidableEq, Repr

/-- Why arguments cannot be used. -/
inductive UsageFault where
  | noCommand
  | unknownCommand (name : String)
  | unknownOption (shown : String)
  | valueMissing (option : String)
  | valueUnexpected (option : String)
  | optionMissing (option : String)
  | operandMissing (name : String)
  | surplusOperand (text : String)
  | notWhole (option text : String)
deriving DecidableEq, Repr

/-- What one argument says, and the option whose value is to follow it. -/
structure Reading where
  items : List Item
  awaiting : Option OptionSpec

/-- An argument begins an option if it has a dash in front and more behind. -/
def isOption (arg : String) : Bool :=
  match arg.toList with
  | '-' :: _ :: _ => true
  | _ => false

/-- Reads a long option. -/
def readLong (specs : List OptionSpec) (body : List Char) : Except UsageFault Reading :=
  let (name, value) := match Text.cutAt? '=' body with
    | some (name, value) => (String.ofList name, some (String.ofList value))
    | none => (String.ofList body, none)
  match specs.find? (·.name = name) with
  | none => .error (.unknownOption ("--" ++ name))
  | some spec =>
    match spec.takesValue, value with
    | true, some value => .ok ⟨[.setting name value], none⟩
    | true, none => .ok ⟨[], some spec⟩
    | false, some _ => .error (.valueUnexpected ("--" ++ name))
    | false, none => .ok ⟨[.flag name], none⟩

/-- Reads short options that stand together. -/
def readShort (specs : List OptionSpec) : List Char → Except UsageFault Reading
  | [] => .ok ⟨[], none⟩
  | c :: rest =>
    match specs.find? (·.letter = some c) with
    | none => .error (.unknownOption (String.ofList ['-', c]))
    | some spec =>
      if spec.takesValue then
        if rest.isEmpty then .ok ⟨[], some spec⟩
        else .ok ⟨[.setting spec.name (String.ofList rest)], none⟩
      else do
        let r ← readShort specs rest
        return { r with items := .flag spec.name :: r.items }

/-- Reads an argument that begins an option. -/
def readOption (specs : List OptionSpec) (arg : String) : Except UsageFault Reading :=
  match arg.toList with
  | '-' :: '-' :: body => readLong specs body
  | _ :: letters => readShort specs letters
  | [] => .ok ⟨[], none⟩

/-- Reads arguments, the first of which may be the value that an option awaits. -/
def readItems (specs : List OptionSpec) :
    Option OptionSpec → List String → Except UsageFault (List Item)
  | none, [] => .ok []
  | some spec, [] => .error (.valueMissing ("--" ++ spec.name))
  | some spec, value :: rest => (.setting spec.name value :: ·) <$> readItems specs none rest
  | none, arg :: rest =>
    if arg = "--" then .ok (rest.map .operand)
    else if isOption arg then do
      let r ← readOption specs arg
      (r.items ++ ·) <$> readItems specs r.awaiting rest
    else (.operand arg :: ·) <$> readItems specs none rest

/-- Arguments that begin no option are operands. -/
theorem readItems_operands (specs : List OptionSpec) {args : List String}
    (plain : ∀ a ∈ args, isOption a = false) :
    readItems specs none args = .ok (args.map .operand) := by
  induction args with
  | nil => rfl
  | cons a args ih =>
    have ha := plain a (by simp)
    have dashes : a ≠ "--" := by rintro rfl; exact absurd ha (by decide)
    simp [readItems, dashes, ha, ih fun b hb => plain b (by simp [hb]), Functor.map, Except.map]

/-- Behind two dashes everything is an operand. -/
theorem readItems_escaped (specs : List OptionSpec) (args : List String) :
    readItems specs none ("--" :: args) = .ok (args.map .operand) := by
  simp [readItems]

/-- The operands among items. -/
def operands (items : List Item) : List String :=
  items.filterMap fun
    | .operand text => some text
    | _ => none

/-- All values that an option is given. -/
def values (name : String) (items : List Item) : List String :=
  items.filterMap fun
    | .setting given value => if given = name then some value else none
    | _ => none

/-- The value that an option is given last. -/
def lastValue? (name : String) (items : List Item) : Option String := (values name items).getLast?

/-- Whether the last of a flag and its opposite is the flag; if there is
neither, whatever is the default. -/
def switch (on off : String) (default : Bool) (items : List Item) : Bool :=
  items.foldl (fun state item =>
    if item = .flag on then true else if item = .flag off then false else state) default

/-- The value of an option that must be given. -/
def required (name : String) (items : List Item) : Except UsageFault String :=
  match lastValue? name items with
  | some value => .ok value
  | none => .error (.optionMissing ("--" ++ name))

/-- The only operand. -/
def soleOperand (name : String) (items : List Item) : Except UsageFault String :=
  match operands items with
  | [] => .error (.operandMissing name)
  | [text] => .ok text
  | _ :: surplus :: _ => .error (.surplusOperand surplus)

/-- Refuses operands. -/
def noOperand (items : List Item) : Except UsageFault Unit :=
  match operands items with
  | [] => .ok ()
  | surplus :: _ => .error (.surplusOperand surplus)

end EdgeFacts.Command
