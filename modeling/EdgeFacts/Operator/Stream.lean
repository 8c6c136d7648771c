/-
# Operators on streams

A streamed tensor arrives in chunks along one of its axes. Most operators
evaluate each chunk by itself. A convolution along a spatial axis keeps a buffer:
once the buffer covers the filter, a result is emitted and the first `stride`
positions are dropped; where the stride passes the end of the buffer, as many
later chunks are skipped.

Key definitions: `StreamBuffer`, `StreamBuffer.accumulate`, `StreamBuffer.consume`,
`StepInput`, `Operator.step`.
-/
import EdgeFacts.Operator.Evaluate

namespace EdgeFacts

/-- What a convolution on a stream waits for. -/
inductive StreamPhase where
  | empty
  | accumulating
  | ready
  | skipping
deriving DecidableEq, Repr

namespace StreamPhase

def name : StreamPhase → String
  | empty => "empty"
  | accumulating => "accumulating"
  | ready => "ready"
  | skipping => "skipping"

end StreamPhase

/-- What is kept between two steps: the chunks not yet dropped, and how many
chunks are still to be skipped. -/
structure StreamBuffer where
  phase : StreamPhase
  data : Option Tensor
  skip : Nat
deriving DecidableEq, Repr

namespace StreamBuffer

/-- Before the first chunk. -/
def fresh : StreamBuffer := ⟨.empty, none, 0⟩

/-- Adds a chunk to the buffer. -/
def accumulate (s : StreamBuffer) (chunk : Tensor) (axis : Int) :
    Except Failure (Tensor × StreamBuffer) :=
  match s.data with
  | none => .ok (chunk, { s with phase := .accumulating, data := some chunk })
  | some data => do
    let joined ← ofKernel (data.concat chunk axis)
    return (joined, { s with phase := .accumulating, data := some joined })

/-- The position at which what is left starts after dropping `stride`
positions; a negative number leaves that many at the end. -/
def dropStart (size : Nat) (stride : Int) : Nat :=
  if 0 ≤ stride then stride.toNat else (size + stride).toNat

/-- Drops the first `stride` positions; if the buffer is shorter, chunks to come
are skipped in their place. -/
def consume (s : StreamBuffer) (stride : Int) (axis : Int) : Except Failure StreamBuffer :=
  match s.data with
  | none => .error (.because .emptyBuffer)
  | some data =>
    match position? data.rank axis with
    | none => .error (.primitive .noSuchPosition)
    | some k =>
      let size := data.extent k
      if (size : Int) < stride then .ok ⟨.skipping, none, (stride - size).toNat⟩
      else
        let rest := data.slice k (dropStart size stride) size
        if rest.extent k = 0 then .ok ⟨.empty, none, s.skip⟩
        else .ok ⟨.accumulating, some rest, s.skip⟩

/-- Lets one chunk pass unused. -/
def pass (s : StreamBuffer) : StreamBuffer :=
  { s with skip := s.skip - 1, phase := if s.skip = 1 then .empty else s.phase }

end StreamBuffer

/-- One input of a step: a chunk of a tensor streamed along an axis, if one is
there, or a whole tensor. -/
structure StepInput where
  axis : Option Int
  chunk : Option Tensor

/-- A convolution's step on a chunk along a spatial axis. The buffer is returned
also if the step fails; then it is as far as the step came. -/
def stepSpatial (sums : Contraction) (strideH strideW : Nat) (chunk filter : Tensor) (axis : Nat)
    (s : StreamBuffer) : Except Failure (Option Tensor) × StreamBuffer :=
  if 0 < s.skip then (.ok none, s.pass)
  else match s.accumulate chunk axis with
    | .error e => (.error e, s)
    | .ok (data, s) =>
      if filter.rank < axis then (.error (.primitive .noSuchPosition), s)
      else if data.rank ≤ axis then (.error (.primitive .noSuchPosition), s)
      else if data.extent axis < filter.extent (axis - 1) then (.ok none, s)
      else
        let s := { s with phase := .ready }
        match convolveTensors sums strideH strideW data filter with
        | .error e => (.error e, s)
        | .ok result =>
          match s.consume (if axis = 1 then strideH else strideW) axis with
          | .error e => (.error e, s)
          | .ok s => (.ok (some result), s)

/-- A convolution's step: its data are streamed and its filter is whole. -/
def stepConvolution (sums : Contraction) (strideH strideW : Nat) (data filter : StepInput)
    (s : StreamBuffer) : Except Failure (Option Tensor) × StreamBuffer :=
  match filter.axis, filter.chunk with
  | none, some filter =>
    match data.axis, data.chunk with
    | none, _ => (.error (.because .wholeData), s)
    | some _, none => (.ok none, s)
    | some 0, some chunk => (some <$> convolveTensors sums strideH strideW chunk filter, s)
    | some 1, some chunk => stepSpatial sums strideH strideW chunk filter 1 s
    | some 2, some chunk => stepSpatial sums strideH strideW chunk filter 2 s
    | some _, some _ => (.error (.because .streamedChannels), s)
  | _, _ => (.error (.because .streamedFilter), s)

namespace Operator

/-- What the operator keeps between steps, at the start. -/
def newState : Operator → Option StreamBuffer
  | convolution _ _ _ => some .fresh
  | _ => none

/-- One step of the operator: its result, if all chunks are there, and what it keeps. -/
def step (op : Operator) (inputs : List StepInput) (state : Option StreamBuffer) :
    Except Failure (Option Tensor) × Option StreamBuffer :=
  match op, state with
  | convolution sums h w, some s =>
    match inputs with
    | [data, filter] =>
      let (result, s) := stepConvolution sums h w data filter s
      (result, some s)
    | _ => (.error (.because (.convolutionInputs inputs.length)), state)
  | _, _ =>
    match inputs.mapM StepInput.chunk with
    | none => (.ok none, state)
    | some chunks => (some <$> op.eval chunks, state)

end Operator

end EdgeFacts
