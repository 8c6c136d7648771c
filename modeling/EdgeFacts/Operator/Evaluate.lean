/-
# Evaluation of operators

What an operator computes from whole tensors.

Key definitions: `Operator.eval`, `permFor`.
-/
import EdgeFacts.Operator.Basic

namespace EdgeFacts

/-- The result of a kernel among results with failures. -/
def ofKernel {α : Type} : Except KernelFault α → Except Failure α
  | .ok a => .ok a
  | .error fault => .error (.primitive fault)

/-- The permutation of a transposition at a given rank. -/
def permFor (perm : Option (List AxisEntry)) (rank : Nat) : Except Failure (List AxisEntry) :=
  match perm with
  | none => .ok ((List.range rank).reverse.map .whole)
  | some entries =>
    if entries.length = rank then .ok entries
    else .error (.because (.permRank (permText entries) rank))

/-- Transposition of a tensor. -/
def transposeTensor (perm : Option (List AxisEntry)) (x : Tensor) : Except Failure Tensor := do
  match (← permFor perm x.rank).mapM AxisEntry.axis? with
  | some axes => return x.permute axes
  | none => throw (.primitive .wrongKind)

/-- Convolution of two tensors. -/
def convolveTensors (sums : Contraction) (strideH strideW : Nat) (data filter : Tensor) :
    Except Failure Tensor :=
  match data.shape, filter.shape with
  | [_, _, _, c], [_, _, k, _] =>
    if c = k then ofKernel (data.convolve filter sums strideH strideW)
    else .error (.because (.convolutionChannels c k))
  | _, _ => .error (.because .convolutionRank)

namespace Operator

/-- The output of the operator for the given inputs. -/
def eval (op : Operator) (inputs : List Tensor) : Except Failure Tensor :=
  match op, inputs with
  | const value, [] => .ok value
  | const _, _ => .error (.because (.arity op.label 0 inputs.length))
  | identity, [x] => .ok x
  | relu, [x] => .ok x.clamp
  | transpose perm, [x] => transposeTensor perm x
  | identity, _ | relu, _ | transpose _, _ => .error (.because (.arity op.label 1 inputs.length))
  | add, [a, b] => ofKernel (a.add b)
  | convolution sums h w, [data, filter] => convolveTensors sums h w data filter
  | add, _ | convolution _ _ _, _ => .error (.because (.arity op.label 2 inputs.length))
  | placeholder _, _ => .error (.because (.notEvaluable op.label))
  | custom c, _ => c.eval inputs

end Operator

end EdgeFacts
