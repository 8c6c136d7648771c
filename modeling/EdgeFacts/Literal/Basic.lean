/-
# Literals

The untyped values that attributes of operators, configuration and model files
are written in: nothing, truth values, whole and floating-point numbers, text,
lists and records. Numbers are equal when they have the same value, whatever
their kind, and a truth value counts as the number 1 or 0 (`Literal.same`).
Not-a-number differs from itself, except inside lists and records.
`Literal.render` writes a literal the way messages show it.

Key definitions: `Literal`, `Literal.number?`, `Literal.same`, `Literal.render`.
-/
import EdgeFacts.Number.Decimal
import EdgeFacts.Table
import EdgeFacts.Text.Quoted

namespace EdgeFacts

/-- An untyped value; the fields of a record keep their order. -/
inductive Literal where
  | none
  | bool (b : Bool)
  | int (n : Int)
  | float (x : FloatDatum)
  | text (s : String)
  | list (items : List Literal)
  | record (fields : List (String × Literal))
deriving Repr, Inhabited

namespace Literal

/-- The number that a truth value, a whole number or a floating-point number is. -/
def number? : Literal → Option FloatDatum
  | bool b => some (.finite (if b then 1 else 0))
  | int n => some (.finite n)
  | float x => some x
  | _ => Option.none

/-- Whether the literal is not-a-number. -/
def isNan : Literal → Bool
  | float .nan => true
  | _ => false

/-- Whether two numbers have the same value; not-a-number has none. -/
def sameNumber (a b : FloatDatum) : Bool := a ≠ .nan && a.same b

/-- The items of a literal that has some: those of a list, the characters of a
text or the names of a record. -/
def items? : Literal → Option (List Literal)
  | list items => some items
  | text s => some (s.toList.map fun c => text (String.ofList [c]))
  | record fields => some (fields.map fun f => text f.1)
  | _ => Option.none

/-- The field of a record with the given name. -/
def field? (fields : List (String × Literal)) (name : String) : Option Literal :=
  Table.find? fields name

mutual

/-- Whether two literals have the same value. -/
def same : Literal → Literal → Bool
  | none, none => true
  | text s, text t => s = t
  | list xs, list ys => sameItems xs ys
  | record fs, record gs => fs.length = gs.length && sameFields fs gs
  | a, b =>
    match a.number?, b.number? with
    | some x, some y => sameNumber x y
    | _, _ => false

/-- Whether two lists have the same values in the same order. -/
def sameItems : List Literal → List Literal → Bool
  | [], [] => true
  | x :: xs, y :: ys => (x.isNan && y.isNan || same x y) && sameItems xs ys
  | _, _ => false

/-- Whether every field has the same value in the other record. -/
def sameFields : List (String × Literal) → List (String × Literal) → Bool
  | [], _ => true
  | (name, x) :: fs, gs =>
    (match field? gs name with
      | some y => x.isNan && y.isNan || same x y
      | Option.none => false) && sameFields fs gs

end

mutual

/-- The literal as messages show it. -/
def render : Literal → String
  | none => "None"
  | bool b => if b then "True" else "False"
  | int n => toString n
  | float x => x.text
  | text s => Text.quote s
  | list items => "[" ++ String.intercalate ", " (renderItems items) ++ "]"
  | record fields => "\x7b" ++ String.intercalate ", " (renderFields fields) ++ "\x7d"

/-- The items of a list as messages show them. -/
def renderItems : List Literal → List String
  | [] => []
  | x :: xs => render x :: renderItems xs

/-- The fields of a record as messages show them. -/
def renderFields : List (String × Literal) → List String
  | [] => []
  | (name, x) :: fs => (Text.quote name ++ ": " ++ render x) :: renderFields fs

end

/-- The literal as running text: a text stands without quotes. -/
def display : Literal → String
  | text s => s
  | x => x.render

/-- The name of the literal's kind. -/
def kindName : Literal → String
  | none => "NoneType"
  | bool _ => "bool"
  | int _ => "int"
  | float _ => "float"
  | text _ => "str"
  | list _ => "list"
  | record _ => "dict"

end Literal

end EdgeFacts
