/-
# Kernels on tensors

Addition with broadcasting, clamping below at zero, permutation of axes,
convolution, slices and concatenation. Each result is given element by element,
by a formula on index lists; each kernel says when it refuses its operands.

Key definitions: `broadcastExtents`, `Tensor.add`, `Tensor.clamp`, `Tensor.permute`,
`Tensor.convolve`, `Tensor.slice`, `Tensor.concat`.
Key theorems: `broadcastExtents_comm`, `Tensor.shape_slice`.
-/
import EdgeFacts.Tensor.Contraction

namespace EdgeFacts

/-- Why a kernel, or a lookup beside one, refuses its operands. -/
inductive KernelFault where
  /-- Extents, ranks or numbers that do not fit together. -/
  | mismatch
  /-- An axis that the tensor does not have. -/
  | noSuchAxis
  /-- A position outside a list. -/
  | noSuchPosition
  /-- A value of a kind that the operation is not for. -/
  | wrongKind
  /-- A division by zero. -/
  | zeroDivisor
  /-- A number that is too large for what it stands for. -/
  | tooLarge
  /-- A key that a table does not have. -/
  | noSuchKey
  /-- A member that a value does not have. -/
  | noSuchMember
deriving DecidableEq, Repr

/-- The position that an index stands for; a negative one counts from the end. -/
def position? (count : Nat) (index : Int) : Option Nat :=
  if 0 ≤ index then (if index < count then some index.toNat else none)
  else if 0 ≤ index + count then some (index + count).toNat
  else none

/-! ### Broadcasting -/

/-- The extent of two aligned axes: equal extents stay, and 1 gives way. -/
def broadcastExtent? (a b : Nat) : Option Nat :=
  if a = b then some a else if a = 1 then some b else if b = 1 then some a else none

/-- Broadcasting of two shapes whose last axes come first. -/
def broadcastReversed? : List Nat → List Nat → Option (List Nat)
  | [], bs => some bs
  | as, [] => some as
  | a :: as, b :: bs =>
    match broadcastExtent? a b, broadcastReversed? as bs with
    | some n, some rest => some (n :: rest)
    | _, _ => none

/-- The shape that two shapes broadcast to, aligned at their last axes. -/
def broadcastExtents (a b : List Nat) : Option (List Nat) :=
  (broadcastReversed? a.reverse b.reverse).map List.reverse

theorem broadcastExtent?_comm (a b : Nat) : broadcastExtent? a b = broadcastExtent? b a := by
  grind [broadcastExtent?]

theorem broadcastReversed?_comm (a b : List Nat) :
    broadcastReversed? a b = broadcastReversed? b a := by
  induction a generalizing b with
  | nil => cases b <;> rfl
  | cons x a ih => cases b <;> simp [broadcastReversed?, broadcastExtent?_comm x, ih]

theorem broadcastExtents_comm (a b : List Nat) : broadcastExtents a b = broadcastExtents b a := by
  rw [broadcastExtents, broadcastReversed?_comm, broadcastExtents]

/-- The index into an operand of the given shape: leading coordinates are
dropped, and an axis of extent 1 is read at 0. -/
def alignIndex (shape index : List Nat) : List Nat :=
  List.zipWith (fun n i => if n = 1 then 0 else i) shape (index.drop (index.length - shape.length))

namespace Tensor

/-- The element of the broadcast tensor at an index of the result. -/
def getAligned (t : Tensor) (index : List Nat) : Scalar := t.get (alignIndex t.shape index)

/-- The sum of two tensors, broadcast and combined in their common type. -/
def add (a b : Tensor) : Except KernelFault Tensor :=
  match broadcastExtents a.shape b.shape with
  | none => .error .mismatch
  | some shape =>
    let e := a.elem.promote b.elem
    .ok (ofFn e shape fun i => e.add ((a.cast e).getAligned i) ((b.cast e).getAligned i))

/-- The tensor with its negative elements replaced by zero. -/
def clamp (t : Tensor) : Tensor :=
  ⟨t.elem, t.shape, t.data.map ElemType.clamp, by simp [t.size_eq]⟩

/-- The tensor whose axis `k` is axis `axes[k]` of the given one. -/
def permute (t : Tensor) (axes : List Nat) : Tensor :=
  ofFn t.elem (axes.map fun p => t.shape.getD p 0) fun i =>
    t.get ((List.range t.rank).map fun k => i.getD (axes.idxOf k) 0)

/-! ### Convolution -/

/-- The number of windows of the given extent, `stride` apart. -/
def windowCount (extent window stride : Nat) : Nat := (extent - window) / stride + 1

/-- The convolution of data (batch, height, width, channels) with a filter
(height, width, channels, features), without padding. -/
def convolve (data filter : Tensor) (sums : Contraction) (strideH strideW : Nat) : Except KernelFault Tensor :=
  match data.shape, filter.shape with
  | [n, h, w, _], [kh, kw, _, o] =>
    if h < kh ∨ w < kw ∨ strideH = 0 ∨ strideW = 0 then .error .mismatch
    else
      let e := data.elem.promote filter.elem
      .ok (ofFn e [n, windowCount h kh strideH, windowCount w kw strideW, o]
        (sums.entry e (data.cast e) (filter.cast e) strideH strideW))
  | _, _ => .error .mismatch

/-! ### Slices and concatenation -/

/-- The extent of an axis. -/
def extent (t : Tensor) (axis : Nat) : Nat := t.shape.getD axis 0

/-- The positions from `start` to before `stop` of an axis. -/
def slice (t : Tensor) (axis start stop : Nat) : Tensor :=
  ofFn t.elem (t.shape.set axis (min stop (t.extent axis) - start)) fun i =>
    t.get (i.modify axis (start + ·))

theorem shape_slice (t : Tensor) (axis start stop : Nat) :
    (t.slice axis start stop).shape = t.shape.set axis (min stop (t.extent axis) - start) := rfl

/-- Two tensors one after the other along an axis, in their common type. -/
def join (a b : Tensor) (axis : Nat) : Tensor :=
  let e := a.elem.promote b.elem
  let n := a.extent axis
  ofFn e (a.shape.set axis (n + b.extent axis)) fun i =>
    if i.getD axis 0 < n then (a.cast e).get i else (b.cast e).get (i.modify axis (· - n))

/-- Concatenation along an axis; the other axes must agree. -/
def concat (a b : Tensor) (axis : Int) : Except KernelFault Tensor :=
  if a.rank = 0 then .error .mismatch
  else match position? a.rank axis with
    | none => .error .noSuchAxis
    | some k =>
      if a.rank = b.rank ∧ a.shape.eraseIdx k = b.shape.eraseIdx k then .ok (a.join b k)
      else .error .mismatch

end Tensor

end EdgeFacts
