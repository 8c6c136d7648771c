/-
# Facts written as literals

Reads dimensions, shapes and datatypes from literals, as attributes of operators
give them: null and `_` for an unknown dimension, `S` for the streamed one, a
whole number for an extent. A truth value is no extent.

Key definitions: `DimFact.ofLiteral`, `DimFact.only`, `ShapeFact.ofLiterals`,
`ShapeFact.ofEntries`, `readDType`.
-/
import EdgeFacts.Failure.Basic
import EdgeFacts.Tensor.Record

namespace EdgeFacts

/-- The whole number that a number is cut to, toward zero. -/
def truncated : Option FloatDatum → Except KernelFault Int
  | some (.finite q) => .ok (q.num.tdiv q.den)
  | some .negZero => .ok 0
  | some (.inf _) => .error .tooLarge
  | some .nan => .error .mismatch
  | none => .error .wrongKind

namespace DimFact

/-- The fact that a dimension has the given extent. -/
def ofInt (n : Int) : Except Failure DimFact :=
  if n < 0 then .error (.input (.negativeDim (toString n))) else .ok (.known n.toNat)

/-- The dimension that a literal stands for. -/
def ofLiteral : Literal → Except Failure DimFact
  | .none | .text "_" => .ok .any
  | .text "S" => .ok .streamed
  | .int n => ofInt n
  | x => .error (.input (.notDim x.render))

/-- The fact that a dimension has the given number as its extent, which is cut
to a whole number. -/
def only (x : Literal) : Except Failure DimFact :=
  match x.number? with
  | some n =>
    if n.isNegative && !n.isZero then .error (.input (.negativeDim x.render))
    else match truncated x.number? with
      | .ok extent => .ok (.known extent.toNat)
      | .error fault => .error (.primitive fault)
  | none => .error (.primitive .wrongKind)

end DimFact

namespace ShapeFact

/-- The shape with the given dimensions, open or closed. -/
def ofLiterals (isOpen : Bool) (dims : List Literal) : Except Failure ShapeFact := do
  return ⟨← dims.mapM DimFact.ofLiteral, isOpen⟩

/-- The dimension of an entry; `none` stands for an ellipsis. -/
def ofEntry : Option Literal → Except Failure DimFact
  | some x => DimFact.ofLiteral x
  | none => .error (.input (.notDim "Ellipsis"))

/-- The shape with the given entries; an ellipsis at the end makes it open. -/
def ofEntries (entries : List (Option Literal)) : Except Failure ShapeFact :=
  match entries.getLast? with
  | some none => return ⟨← entries.dropLast.mapM ofEntry, true⟩
  | _ => return ⟨← entries.mapM ofEntry, false⟩

end ShapeFact

/-- The datatype that a literal describes; null says nothing. -/
def readDType (x : Literal) : Except Failure (Option DType) :=
  match DType.ofLiteral x with
  | .ok d => .ok d
  | .error fault => .error (.dtype fault)

end EdgeFacts
