/-
# Tensors

A tensor has an element type, a shape and its elements in row-major order. It is
read by index lists, one coordinate per axis (`Tensor.get`), and built from a
function on index lists (`Tensor.ofFn`), so every kernel is one formula on
indices.

Key definitions: `extentProduct`, `indices`, `offset`, `Tensor`, `Tensor.ofFn`,
`Tensor.get`, `Tensor.same`.
Key theorems: `length_indices`, `Tensor.same_refl`, `Tensor.same_symm`, `Tensor.same_trans`.
-/
import EdgeFacts.Tensor.Element

namespace EdgeFacts

/-- The number of elements of a tensor of the given shape. -/
def extentProduct : List Nat → Nat
  | [] => 1
  | n :: rest => n * extentProduct rest

/-- The index lists of a shape in row-major order. -/
def indices : List Nat → List (List Nat)
  | [] => [[]]
  | n :: rest => (List.range n).flatMap fun i => (indices rest).map (i :: ·)

/-- The position of an index list in row-major order. -/
def offset : List Nat → List Nat → Nat
  | _ :: rest, i :: is => i * extentProduct rest + offset rest is
  | _, _ => 0

theorem length_indices (shape : List Nat) : (indices shape).length = extentProduct shape := by
  induction shape with
  | nil => rfl
  | cons n rest ih =>
    simp [indices, extentProduct, List.length_flatMap, ih, List.map_const']

/-- A tensor: its elements are as many as its shape has indices. -/
structure Tensor where
  elem : ElemType
  shape : List Nat
  data : Array Scalar
  size_eq : data.size = extentProduct shape
deriving DecidableEq, Repr

namespace Tensor

/-- The tensor whose element at each index list is given by `f`. -/
def ofFn (elem : ElemType) (shape : List Nat) (f : List Nat → Scalar) : Tensor :=
  ⟨elem, shape, ((indices shape).map f).toArray, by simp [length_indices]⟩

/-- The tensor with the given elements, if they are as many as the shape needs. -/
def ofData? (elem : ElemType) (shape : List Nat) (data : Array Scalar) : Option Tensor :=
  if h : data.size = extentProduct shape then some ⟨elem, shape, data, h⟩ else none

/-- The element at an index list. -/
def get (t : Tensor) (index : List Nat) : Scalar := t.data.getD (offset t.shape index) default

/-- The number of axes. -/
def rank (t : Tensor) : Nat := t.shape.length

/-- The tensor with its elements converted to a type. -/
def cast (t : Tensor) (elem : ElemType) : Tensor :=
  if elem = t.elem then t else ⟨elem, t.shape, t.data.map elem.cast, by simp [t.size_eq]⟩

theorem cast_self (t : Tensor) : t.cast t.elem = t := by simp [cast]

theorem shape_cast (t : Tensor) (elem : ElemType) : (t.cast elem).shape = t.shape := by
  unfold cast; split <;> rfl

/-- Whether two rows of elements hold the same values. -/
def sameData : List Scalar → List Scalar → Bool
  | [], [] => true
  | a :: as, b :: bs => a.same b && sameData as bs
  | _, _ => false

/-- Whether two tensors have one element type, one shape and the same values. -/
def same (a b : Tensor) : Bool :=
  a.elem = b.elem && a.shape = b.shape && sameData a.data.toList b.data.toList

theorem sameData_refl (as : List Scalar) : sameData as as = true := by
  induction as with
  | nil => rfl
  | cons a as ih => simp [sameData, Scalar.same_refl, ih]

theorem sameData_symm {as bs : List Scalar} (h : sameData as bs = true) :
    sameData bs as = true := by
  induction as generalizing bs with
  | nil => cases bs <;> simp_all [sameData]
  | cons a as ih =>
    cases bs with
    | nil => simp [sameData] at h
    | cons b bs =>
      simp only [sameData, Bool.and_eq_true] at h ⊢
      exact ⟨Scalar.same_symm h.1, ih h.2⟩

theorem sameData_trans {as bs cs : List Scalar} (h : sameData as bs = true)
    (k : sameData bs cs = true) : sameData as cs = true := by
  induction as generalizing bs cs with
  | nil => cases bs <;> simp_all [sameData]
  | cons a as ih =>
    cases bs with
    | nil => simp [sameData] at h
    | cons b bs =>
      cases cs with
      | nil => simp [sameData] at k
      | cons c cs =>
        simp only [sameData, Bool.and_eq_true] at h k ⊢
        exact ⟨Scalar.same_trans h.1 k.1, ih h.2 k.2⟩

theorem same_refl (a : Tensor) : a.same a = true := by simp [same, sameData_refl]

theorem same_symm {a b : Tensor} (h : a.same b = true) : b.same a = true := by
  simp only [same, Bool.and_eq_true, decide_eq_true_eq] at h ⊢
  exact ⟨⟨h.1.1.symm, h.1.2.symm⟩, sameData_symm h.2⟩

theorem same_trans {a b c : Tensor} (h : a.same b = true) (k : b.same c = true) :
    a.same c = true := by
  simp only [same, Bool.and_eq_true, decide_eq_true_eq] at h k ⊢
  exact ⟨⟨h.1.1.trans k.1.1, h.1.2.trans k.1.2⟩, sameData_trans h.2 k.2⟩

end Tensor

end EdgeFacts
