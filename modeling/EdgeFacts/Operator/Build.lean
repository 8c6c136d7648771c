/-
# Operators from names and attributes

Builds an operator from the name it is registered under and its attributes, and
says what is wrong with attributes that do not fit: unknown ones first, then
missing ones, then values.

Key definitions: `Registry`, `Registry.library`, `Registry.build`, `Operator.build`.
-/
import EdgeFacts.Fact.Literal
import EdgeFacts.Fact.Notation
import EdgeFacts.Operator.Basic
import EdgeFacts.Operator.Ordering
import EdgeFacts.Tensor.Literal

namespace EdgeFacts

/-- Attributes by name. -/
abbrev Attributes := List (String × Literal)

/-- Makes an operator of one kind from the name it is registered under and attributes. -/
abbrev Maker := String → Attributes → Except Failure Operator

/-- The failure of attributes. -/
def attributeFailure {α : Type} (name : String) (fault : AttributeFault) : Except Failure α :=
  .error (.because (.attributes name fault))

/-- The value of an attribute, null if it is not given. -/
def Attributes.get (attrs : Attributes) (key : String) : Literal :=
  (Literal.field? attrs key).getD .none

/-- The name of the argument that every maker has. -/
def ownArgument : String := "self"

/-- Refuses attributes that are not among the given ones. -/
def expectOnly (typeName name : String) (keys : List String) (attrs : Attributes) :
    Except Failure Unit :=
  match attrs.find? fun a => !keys.contains a.1 with
  | some a =>
    attributeFailure name
      (if a.1 = ownArgument then .repeated typeName a.1 else .unexpected typeName a.1)
  | none => .ok ()

/-- An operator that has no attributes. -/
def makePlain (op : Operator) : Maker := fun name attrs =>
  if attrs.isEmpty then .ok op else attributeFailure name (.none op.typeName)

/-- A constant, from its value. -/
def makeConst : Maker := fun name attrs => do
  expectOnly "Const" name ["value"] attrs
  match Literal.field? attrs "value" with
  | none => attributeFailure name (.missing "Const" "value")
  | some x => match Tensor.ofLiteral x with
    | .ok t => return .const t
    | .error fault => throw (.primitive fault)

/-- The datatype that a placeholder declares. Only what could spell none at all is
a fault of the attributes. -/
def declaredDType (name : String) (x : Literal) : Except Failure (Option DType) :=
  match DType.ofLiteral x with
  | .ok d => .ok d
  | .error fault =>
    if fault.isKindFault then attributeFailure name (.dtype fault) else .error (.dtype fault)

/-- The shape with the items of a literal as its dimensions. -/
def shapeOfItems (name : String) (isOpen : Bool) (x : Literal) : Except Failure ShapeFact :=
  match x.items? with
  | some dims => ShapeFact.ofLiterals isOpen dims
  | none => attributeFailure name (.notIterable x.kindName)

/-- The shape that a placeholder declares: in notation, as a list of all
dimensions, or as a record of the first ones. -/
def declaredShape (name : String) : Literal → Except Failure ShapeFact
  | .none => .ok .unknown
  | .text s => ShapeFact.parse s
  | .record fields =>
    match Literal.field? fields "open" with
    | some dims => shapeOfItems name true dims
    | none => shapeOfItems name false (.record fields)
  | x => shapeOfItems name false x

/-- A placeholder, from its declared datatype and shape. -/
def makePlaceholder : Maker := fun name attrs => do
  expectOnly "Placeholder" name ["dtype", "shape"] attrs
  let dtype ← declaredDType name (attrs.get "dtype")
  let shape ← declaredShape name (attrs.get "shape")
  return .placeholder (.ofShape dtype shape)

/-- The axis that a number stands for. -/
def AxisEntry.ofLiteral? : Literal → Option AxisEntry
  | .int n => some (.whole n.toNat)
  | .bool b => some (.truth b)
  | .float x => some (.fraction x)
  | _ => none

/-- The permutation that a literal gives: in order, its items are 0, 1, 2 and so on. -/
def permOf (name : String) (x : Literal) : Except Failure (List AxisEntry) :=
  match x.items? with
  | none => attributeFailure name (.notIterable x.kindName)
  | some items =>
    match Literal.sort items with
    | .error (a, b) => attributeFailure name (.notOrdered "<" a b)
    | .ok sorted =>
      let expected := (List.range items.length).map fun (n : Nat) => Literal.int n
      if Literal.sameItems sorted expected then
        match items.mapM AxisEntry.ofLiteral? with
        | some perm => .ok perm
        | none => .error (.because (.permInvalid x.display))
      else .error (.because (.permInvalid x.display))

/-- A transposition, from its permutation. -/
def makeTranspose : Maker := fun name attrs => do
  expectOnly "Transpose" name ["perm"] attrs
  match attrs.get "perm" with
  | .none => return .transpose none
  | x => return .transpose (some (← permOf name x))

/-- Whether some item is at most zero; the search ends at the first. -/
def someNotPositive (name : String) : List Literal → Except Failure Bool
  | [] => .ok false
  | x :: rest =>
    match x.number? with
    | none => attributeFailure name (.notOrdered "<=" x.kindName "int")
    | some n =>
      if Literal.lessNumber n (.finite 0) || n.isZero then .ok true
      else someNotPositive name rest

/-- A positive number as a whole one, toward zero. -/
def wholeStride (x : Literal) : Except Failure Nat :=
  match truncated x.number? with
  | .ok n => .ok n.toNat
  | .error fault => .error (.primitive fault)

/-- The strides that a literal gives: two numbers above zero. -/
def stridesOf (name : String) (x : Literal) : Except Failure (Nat × Nat) :=
  match x.items? with
  | none => attributeFailure name (.noLength x.kindName)
  | some items => do
    match items with
    | [h, w] =>
      if ← someNotPositive name items then throw (.because (.stridesInvalid x.display))
      else return (← wholeStride h, ← wholeStride w)
    | _ => throw (.because (.stridesInvalid x.display))

/-- A convolution, from its strides. -/
def makeConvolution : Maker := fun name attrs => do
  expectOnly "Conv2D" name ["strides"] attrs
  match Literal.field? attrs "strides" with
  | none => return .convolution .sequential 1 1
  | some x =>
    let (h, w) ← stridesOf name x
    return .convolution .sequential h w

/-- The makers of operators by the names they are registered under. -/
structure Registry where
  entries : List (String × Maker)

namespace Registry

/-- The operators of the library. -/
def library : Registry := ⟨[
  ("Const", makeConst),
  ("Placeholder", makePlaceholder),
  ("Identity", makePlain .identity),
  ("Relu", makePlain .relu),
  ("Add", makePlain .add),
  ("Transpose", makeTranspose),
  ("Conv2D", makeConvolution)]⟩

/-- The names in use, in order. -/
def names (r : Registry) : List String := (r.entries.map (·.1)).mergeSort fun a b => a ≤ b

/-- Registers a maker; one that had the name before is forgotten. -/
def register (r : Registry) (name : String) (maker : Maker) : Registry :=
  ⟨r.entries.filter (·.1 ≠ name) ++ [(name, maker)]⟩

/-- Registers a user's operator, which messages mention under the name. -/
def registerCustom (r : Registry) (name : String) (c : CustomOperator) : Registry :=
  r.register name (makePlain (.custom { c with ownLabel := some name }))

/-- The operator registered under the name, with the given attributes. -/
def build (r : Registry) (name : String) (attrs : Attributes) : Except Failure Operator :=
  match r.entries.find? (·.1 = name) with
  | some (_, maker) => maker name attrs
  | none => .error (.because (.unknownOperator name))

end Registry

/-- The operator of the library with the given name and attributes. -/
def Operator.build (name : String) (attrs : Attributes) : Except Failure Operator :=
  Registry.library.build name attrs

end EdgeFacts
