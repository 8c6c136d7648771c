/-
# Operators

The operators of a graph: constants, placeholders for the inputs of a model,
element-wise operators, transposition and convolution, and operators that a
user defines by functions.

Key definitions: `Operator`, `CustomOperator`, `AxisEntry`, `Operator.label`,
`Operator.isStateless`, `Operator.text`.
-/
import EdgeFacts.Failure.Basic

namespace EdgeFacts

/-- An axis in the permutation of a transposition, as it was spelled. -/
inductive AxisEntry where
  | whole (n : Nat)
  | truth (b : Bool)
  | fraction (x : FloatDatum)
deriving DecidableEq, Repr

namespace AxisEntry

/-- The position of the axis; a number with a point is none. -/
def position? : AxisEntry → Option Nat
  | whole n => some n
  | truth b => some (if b then 1 else 0)
  | fraction _ => none

/-- The axis as kernels take it, which must be spelled as a whole number. -/
def axis? : AxisEntry → Option Nat
  | whole n => some n
  | _ => none

/-- The axis as it was spelled. -/
def literal : AxisEntry → Literal
  | whole n => .int n
  | truth b => .bool b
  | fraction x => .float x

end AxisEntry

/-- A permutation as messages show it. -/
def permText (perm : List AxisEntry) : String := (Literal.list (perm.map AxisEntry.literal)).render

/-- An operator that a user defines. Its refinement may be anything: too many
or too few facts about the inputs, or no fact about the output. -/
structure CustomOperator where
  typeName : String
  /-- The name under which messages mention the operator, if it has one. -/
  ownLabel : Option String
  stateless : Bool
  refine : List TensorFact → TensorFact → Except Failure (List TensorFact × Option TensorFact)
  eval : List Tensor → Except Failure Tensor

/-- An operator of a graph. -/
inductive Operator where
  /-- A literal tensor. -/
  | const (value : Tensor)
  /-- An input of the model with its declared datatype and shape. -/
  | placeholder (fact : TensorFact)
  | identity
  /-- The larger of each element and zero. -/
  | relu
  | add
  /-- A permutation of the axes, a reversal if none is given. -/
  | transpose (perm : Option (List AxisEntry))
  /-- A two-dimensional convolution without padding, of data (batch, height,
  width, channels) with a filter (height, width, channels, features), by the
  contraction of a library. -/
  | convolution (sums : Contraction) (strideH strideW : Nat)
  | custom (c : CustomOperator)

namespace Operator

/-- The name of the operator's type. -/
def typeName : Operator → String
  | const _ => "Const"
  | placeholder _ => "Placeholder"
  | identity => "Identity"
  | relu => "Relu"
  | add => "Add"
  | transpose _ => "Transpose"
  | convolution _ _ _ => "Conv2D"
  | custom c => c.typeName

/-- The name under which messages mention the operator. -/
def label : Operator → String
  | custom c => c.ownLabel.getD "Op"
  | op => op.typeName

/-- The name that a node with the operator has for it unless it is given another. -/
def nodeLabel : Operator → String
  | custom c => c.ownLabel.getD c.typeName
  | op => op.typeName

/-- Whether the output depends on the inputs alone. -/
def isStateless : Operator → Bool
  | placeholder _ => false
  | custom c => c.stateless
  | _ => true

def isConst : Operator → Bool
  | const _ => true
  | _ => false

def isPlaceholder : Operator → Bool
  | placeholder _ => true
  | _ => false

/-- The operator with its attributes. -/
def text : Operator → String
  | const value =>
    "Const(dtype=" ++ value.elem.name ++ ", shape=["
      ++ String.intercalate ", " (value.shape.map toString) ++ "])"
  | placeholder fact => "Placeholder(" ++ fact.text ++ ")"
  | transpose none => "Transpose(perm=None)"
  | transpose (some perm) => "Transpose(perm=" ++ permText perm ++ ")"
  | convolution _ h w => s!"Conv2D(strides=[{h}, {w}])"
  | op => op.typeName ++ "()"

end Operator

end EdgeFacts
