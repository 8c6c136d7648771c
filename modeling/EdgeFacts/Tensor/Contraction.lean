/-
# Contractions

For each element of its result a convolution adds up the products of the pairs of
elements that meet in it (`Tensor.pairsAt`). Of truth values and whole numbers there
is one such sum. Of floating-point numbers there are many: a numeric library adds them
in an order of its own and rounds where it does, and for other operands or at another
place it may do so otherwise. So the library is a parameter here (`Contraction`), and
what is known of it is that operands of the same values give results of the same
values. Results are compared bit by bit only where the library makes each element of
the pairs that meet in it alone (`Contraction.Uniform`), as the plainest one does,
which adds them one after the other (`Contraction.sequential`).

Key definitions: `Tensor.windowPairs`, `Tensor.pairsAt`, `Contraction`,
`Contraction.entry`, `Contraction.Uniform`, `Contraction.sequential`.
Key theorems: `Contraction.uniform_of_exact`, `Contraction.sequential_uniform`,
`Contraction.entry_of_same`.
-/
import EdgeFacts.Tensor.Value

namespace EdgeFacts

namespace Tensor

/-- The pairs of elements that meet in one element of a convolution: those of
the window of the data at row `y` and column `x`, and the filter's. -/
def windowPairs (data filter : Tensor) (kernel : List Nat) (batch y x feature : Nat) :
    List (Scalar × Scalar) :=
  (indices kernel).map fun k =>
    let p := k.getD 0 0
    let q := k.getD 1 0
    let c := k.getD 2 0
    (data.get [batch, y + p, x + q, c], filter.get [p, q, c, feature])

/-- The pairs that meet in the element of a convolution at an index list (batch, row,
column, feature). -/
def pairsAt (data filter : Tensor) (strideH strideW : Nat) (index : List Nat) : List (Scalar × Scalar) :=
  data.windowPairs filter (filter.shape.take 3) (index.getD 0 0) (index.getD 1 0 * strideH)
    (index.getD 2 0 * strideW) (index.getD 3 0)

theorem pairsAt_of_same {a a' b b' : Tensor} (ha : a.same a' = true) (hb : b.same b' = true)
    (strideH strideW : Nat) (index : List Nat) :
    (a.pairsAt b strideH strideW index).map valuePair = (a'.pairsAt b' strideH strideW index).map valuePair := by
  simp only [pairsAt, windowPairs, List.map_map, shape_of_same hb]
  refine List.map_congr_left fun k _ => ?_
  simp only [Function.comp_def, valuePair, get_of_same ha, get_of_same hb]

end Tensor

/-- How a library contracts the windows of floating-point data with a filter: the element
at an index of what it gives for the data, the filter and the strides. It does so alike
for operands that hold the same values. -/
structure Contraction where
  element (w : FloatWidth) (data filter : Tensor) (strideH strideW : Nat) (index : List Nat) : FloatDatum
  element_of_same (w : FloatWidth) {data data' filter filter' : Tensor} : data.same data' = true →
    filter.same filter' = true → ∀ strideH strideW index,
      (element w data filter strideH strideW index).value =
        (element w data' filter' strideH strideW index).value

namespace Contraction

/-- The element of a convolution of operands of one type at an index. -/
def entry (sums : Contraction) (e : ElemType) (data filter : Tensor) (strideH strideW : Nat)
    (index : List Nat) : Scalar :=
  match e with
  | .float w => .float (sums.element w data filter strideH strideW index)
  | e => e.dot (data.pairsAt filter strideH strideW index)

/-- Whether each element of a convolution in a type is made of the pairs that meet in it,
and of nothing else: neither of its place nor of what else there is in the operands. -/
def Uniform (sums : Contraction) (e : ElemType) : Prop :=
  ∃ sum : List (Scalar × Scalar) → Scalar, ∀ data filter strideH strideW index,
    sums.entry e data filter strideH strideW index = sum (data.pairsAt filter strideH strideW index)

theorem entry_of_exact (sums : Contraction) {e : ElemType} (h : ∀ w, e ≠ .float w) (data filter : Tensor)
    (strideH strideW : Nat) (index : List Nat) :
    sums.entry e data filter strideH strideW index = e.dot (data.pairsAt filter strideH strideW index) := by
  cases e with
  | float w => exact absurd rfl (h w)
  | _ => rfl

/-- Truth values and whole numbers leave a library no choice. -/
theorem uniform_of_exact (sums : Contraction) {e : ElemType} (h : ∀ w, e ≠ .float w) : sums.Uniform e :=
  ⟨e.dot, sums.entry_of_exact h⟩

theorem entry_of_same (sums : Contraction) (e : ElemType) {a a' b b' : Tensor} (ha : a.same a' = true)
    (hb : b.same b' = true) (strideH strideW : Nat) (index : List Nat) :
    (sums.entry e a b strideH strideW index).value = (sums.entry e a' b' strideH strideW index).value := by
  by_cases h : ∃ w, e = .float w
  · obtain ⟨w, rfl⟩ := h
    exact congrArg Scalar.float (sums.element_of_same w ha hb strideH strideW index)
  · have hexact : ∀ w, e ≠ .float w := fun w hw => h ⟨w, hw⟩
    rw [entry_of_exact sums hexact, entry_of_exact sums hexact, ← ElemType.dot_value, Tensor.pairsAt_of_same ha hb,
      ElemType.dot_value]

/-- The contraction that adds the products one after the other. -/
def sequential : Contraction where
  element w data filter strideH strideW index := w.dot (data.pairsAt filter strideH strideW index)
  element_of_same w _ _ _ _ ha hb strideH strideW index := by
    rw [← FloatWidth.dot_value, Tensor.pairsAt_of_same ha hb, FloatWidth.dot_value]

theorem sequential_uniform (e : ElemType) : sequential.Uniform e :=
  ⟨e.dot, fun _ _ _ _ _ => by cases e <;> rfl⟩

end Contraction

end EdgeFacts
