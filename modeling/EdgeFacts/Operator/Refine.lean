/-
# Refinement of facts by operators

Each operator relates the facts about its inputs to the fact about its output:
given what is known of them, it tells what must then hold. Known inputs are
evaluated, so values flow forwards; identities also hand a known output back.

Key definitions: `Operator.refine`, `convolvedDim`, `refineTranspose`, `refineConvolution`.
-/
import EdgeFacts.Fact.Meet
import EdgeFacts.Operator.Broadcast
import EdgeFacts.Operator.Evaluate

namespace EdgeFacts

/-- The facts about the inputs and the output that an operator infers; `none`
in the place of the output is no fact at all. -/
abbrev Refinement := List TensorFact × Option TensorFact

/-- The value of the output if the values of all inputs are known. -/
def knownOutput (op : Operator) (inputs : List TensorFact) :
    Except Failure (Option Tensor) :=
  match inputs.mapM TensorFact.value with
  | some values => some <$> op.eval values
  | none => .ok none

/-- An operator whose output has the datatype and the shape of its input. -/
def refineElementwise (op : Operator) (invertible : Bool) (x output : TensorFact) :
    Except Failure Refinement := do
  let merged ← x.withoutValue.meet output.withoutValue
  let value ← knownOutput op [x]
  let back := if invertible then output.value else none
  return ([{ merged with value := back }], some { merged with value := value })

/-- Addition: the operands and the sum have one datatype. -/
def refineAdd (a b output : TensorFact) : Except Failure Refinement := do
  let dtype ← meetDType (← meetDType a.dtype b.dtype) output.dtype
  let shape ← (← broadcastShapes a.shape b.shape).meet output.shape
  let value ← knownOutput .add [a, b]
  let operand := TensorFact.ofShape dtype .unknown
  return ([operand, operand], some ⟨dtype, shape, value⟩)

/-- The positions of the axes of a permutation. -/
def positions (perm : List AxisEntry) : Except Failure (List Nat) :=
  match perm.mapM AxisEntry.position? with
  | some axes => .ok axes
  | none => .error (.primitive .wrongKind)

/-- The rank that a transposition works at, as far as it is known. -/
def transposedRank? (perm : Option (List AxisEntry)) (x output : ShapeFact) : Option Nat :=
  x.rank?.or (output.rank?.or (perm.map List.length))

/-- The shapes before and after a transposition, each refined by the other. -/
def refineTransposedShapes (perm : Option (List AxisEntry)) (x output : ShapeFact) :
    Except Failure (ShapeFact × ShapeFact) :=
  match transposedRank? perm x output with
  | none => .ok (x, output)
  | some rank => do
    let perm ← permFor perm rank
    let x ← x.meet (.ofRank rank)
    let output ← output.meet (.ofRank rank)
    let axes ← positions perm
    let output ← output.meet (.closed (axes.map fun p => x.dims.getD p .any))
    let back := (List.range rank).map fun k => output.dims.getD (axes.idxOf k) .any
    let x ← x.meet (.closed back)
    return (x, output)

/-- Transposition: the shape of the output is that of the input, permuted. -/
def refineTranspose (perm : Option (List AxisEntry)) (x output : TensorFact) :
    Except Failure Refinement := do
  let dtype ← meetDType x.dtype output.dtype
  let (before, after) ← refineTransposedShapes perm x.shape output.shape
  let value ← knownOutput (.transpose perm) [x]
  return ([.ofShape dtype before], some ⟨dtype, after, value⟩)

/-- The dimension of a convolution's output along a spatial axis. -/
def convolvedDim (data filter : DimFact) (stride : Nat) : Except Failure DimFact :=
  match data, filter with
  | .streamed, _ => .ok .streamed
  | .known d, .known k =>
    if d < k then .error (.because (.convolutionExtent d k))
    else if stride = 0 then .error (.primitive .zeroDivisor)
    else .ok (.known (Tensor.windowCount d k stride))
  | _, _ => .ok .any

/-- The four dimensions of a shape of rank 4. -/
def fourDims (s : ShapeFact) : Except Failure (DimFact × DimFact × DimFact × DimFact) := do
  match (← s.meet (.ofRank 4)).dims with
  | [a, b, c, d] => return (a, b, c, d)
  | _ => throw (.primitive .noSuchPosition)

/-- Convolution: batch and features pass through, the channels agree, and the
spatial extents follow from those of the data and the filter. -/
def refineConvolution (sums : Contraction) (strideH strideW : Nat) (data filter output : TensorFact) :
    Except Failure Refinement := do
  let dtype ← meetDType (← meetDType data.dtype filter.dtype) output.dtype
  let (xn, xh, xw, xc) ← fourDims data.shape
  let (kh, kw, kc, ko) ← fourDims filter.shape
  let (yn, yh, yw, yo) ← fourDims output.shape
  let batch ← xn.meet yn
  let channels ← xc.meet kc
  let features ← ko.meet yo
  let height ← (← convolvedDim xh kh strideH).meet yh
  let width ← (← convolvedDim xw kw strideW).meet yw
  let value ← knownOutput (.convolution sums strideH strideW) [data, filter]
  return ([.ofShape dtype (.closed [batch, xh, xw, channels]),
      .ofShape dtype (.closed [kh, kw, channels, features])],
    some ⟨dtype, .closed [batch, height, width, features], value⟩)

namespace Operator

/-- What the operator infers from the facts about its inputs and its output. -/
def refine (op : Operator) (inputs : List TensorFact) (output : TensorFact) :
    Except Failure Refinement :=
  match op, inputs with
  | const value, [] => .ok ([], some (.ofTensor value))
  | placeholder fact, [] => .ok ([], some fact)
  | const _, _ | placeholder _, _ => .error (.because (.arity op.label 0 inputs.length))
  | identity, [x] => refineElementwise op true x output
  | relu, [x] => refineElementwise op false x output
  | transpose perm, [x] => refineTranspose perm x output
  | identity, _ | relu, _ | transpose _, _ => .error (.because (.arity op.label 1 inputs.length))
  | add, [a, b] => refineAdd a b output
  | convolution sums h w, [data, filter] => refineConvolution sums h w data filter output
  | add, _ | convolution _ _ _, _ => .error (.because (.arity op.label 2 inputs.length))
  | custom c, _ => c.refine inputs output

end Operator

end EdgeFacts
