/-
# Tensors written as literals

A tensor is written as a record of its datatype, shape and elements in row-major
order, where one extent may be left open, or as a number, a truth value or nested
lists of them, whose element type is inferred: truth values alone stay truth
values, whole numbers are of 64 bits, and anything else is a double.

Key definitions: `Tensor.ofLiteral`, `Tensor.infer`, `Tensor.store`, `Tensor.extentsFor?`.
-/
import EdgeFacts.Literal.Basic
import EdgeFacts.Tensor.Kernel
import EdgeFacts.Tensor.Spelling

namespace EdgeFacts

-- Powers are those of the core library, whatever else is imported.
attribute [local instance (high)] instPowNat

/-- The greatest number of axes. -/
def maxRank : Nat := 64

mutual

/-- The shape of a number or of nested lists, if they are not ragged. -/
def Literal.nestedShape? : Literal → Option (List Nat)
  | .list items =>
    match items with
    | [] => some [0]
    | x :: rest => do
      let shape ← nestedShape? x
      if allShaped shape rest then return (rest.length + 1) :: shape else .none
  | .bool _ | .int _ | .float _ => some []
  | _ => .none

/-- Whether every item has the shape. -/
def Literal.allShaped (shape : List Nat) : List Literal → Bool
  | [] => true
  | x :: rest => nestedShape? x == some shape && allShaped shape rest

end

mutual

/-- The numbers in nested lists, in order. -/
def Literal.leaves : Literal → List Literal
  | .list items => leavesOf items
  | x => [x]

/-- The numbers in a list of nested lists, in order. -/
def Literal.leavesOf : List Literal → List Literal
  | [] => []
  | x :: rest => leaves x ++ leavesOf rest

end

namespace Tensor

/-- The element that a literal stands for. -/
def scalarOf? : Literal → Option Scalar
  | .bool b => some (.bool b)
  | .int n => some (.int n)
  | .float x => some (.float x)
  | .text "nan" => some (.float .nan)
  | .text "inf" => some (.float (.inf false))
  | .text "-inf" => some (.float (.inf true))
  | _ => none

/-- The type of one number by itself. -/
def leafType : Literal → ElemType
  | .bool _ => .bool
  | .int n => if n < 2 ^ (63 : Nat) then .int .w64 else .uint .w64
  | _ => .float .w64

/-- The type that holds all the numbers; doubles if there are none. -/
def inferType : List Literal → ElemType
  | [] => .float .w64
  | x :: rest => rest.foldl (fun e y => e.promote (leafType y)) (leafType x)

/-- The bound below which the whole part of a fraction lies in a machine word. -/
def wordBound : ElemType → Int
  | .uint _ => 2 ^ (64 : Nat)
  | _ => 2 ^ (63 : Nat)

/-- A number as it is stored in an element type. A whole number becomes a double
before it becomes a narrower one, and must lie in the range of an integer type. A
fraction is cut to a machine word, which wraps around. -/
def store (e : ElemType) (a : Scalar) : Except KernelFault Scalar :=
  match e, a with
  | .float _, .int n =>
    match FloatFormat.double.round n with
    | .finite x => .ok (e.cast (.float (.finite x)))
    | _ => .error .tooLarge
  | .int _, .int n | .uint _, .int n => if e.wrap n = n then .ok a else .error .tooLarge
  | .int _, .float .nan | .uint _, .float .nan => .error .mismatch
  | .int _, .float (.inf _) | .uint _, .float (.inf _) => .error .tooLarge
  | .int _, .float (.finite _) | .uint _, .float (.finite _) =>
    if -2 ^ (63 : Nat) ≤ a.toInt ∧ a.toInt < wordBound e then .ok (e.cast a) else .error .tooLarge
  | _, _ => .ok (e.cast a)

/-- A result, or the fault in its place. -/
def orFault {α : Type} (fault : KernelFault) : Option α → Except KernelFault α
  | some a => .ok a
  | none => .error fault

/-- The tensor of numbers stored in an element type. -/
def ofNumbers (e : ElemType) (shape : List Nat) (items : List Literal) :
    Except KernelFault Tensor := do
  let scalars ← (← orFault .mismatch (items.mapM scalarOf?)).mapM (store e)
  orFault .mismatch (ofData? e shape scalars.toArray)

/-- The tensor of a number or of nested lists, unless they are ragged or too deep. -/
def infer (x : Literal) : Except KernelFault Tensor := do
  let shape ← orFault .mismatch x.nestedShape?
  if maxRank < shape.length then throw .mismatch
  else ofNumbers (inferType x.leaves) shape x.leaves

/-- A list of whole numbers. -/
def wholesOf? : Literal → Option (List Int)
  | .list items => items.mapM fun x => match x with
    | .int n => some n
    | _ => none
  | _ => none

/-- Extents for a number of elements. One of them may be left open, by a negative
number, and is then what the others leave. -/
def extentsFor? (count : Nat) (extents : List Int) : Option (List Nat) :=
  let known := extentProduct ((extents.filter (0 ≤ ·)).map Int.toNat)
  match extents.filter (· < 0) with
  | [] => some (extents.map Int.toNat)
  | [_] =>
    if known = 0 ∨ count % known ≠ 0 then none
    else some (extents.map fun n => if n < 0 then count / known else n.toNat)
  | _ => none

/-- The shape that a literal gives to a number of elements. -/
def shapeFor? (count : Nat) (x : Literal) : Option (List Nat) := do
  let shape ← extentsFor? count (← wholesOf? x)
  if maxRank < shape.length then none else return shape

/-- The element type that a literal spells. -/
def elemOf : Literal → Except KernelFault ElemType
  | .text spelling => orFault .wrongKind ((DType.ofSpelling spelling).toOption.bind DType.elem?)
  | _ => .error .mismatch

/-- The tensor that a literal describes. -/
def ofLiteral : Literal → Except KernelFault Tensor
  | .record fields =>
    match Literal.field? fields "raw", Literal.field? fields "data" with
    | some x, _ => infer x
    | none, some (.list items) => do
      let e ← elemOf (← orFault .noSuchKey (Literal.field? fields "dtype"))
      let shape ← orFault .noSuchKey (Literal.field? fields "shape")
      ofNumbers e (← orFault .mismatch (shapeFor? items.length shape)) items
    | none, some _ => .error .mismatch
    | none, none => .error .noSuchKey
  | x => infer x

end Tensor

end EdgeFacts
