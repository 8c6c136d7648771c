/-
# Values and normal forms

Two data hold the same value if they differ at most in the sign of a zero; in the
normal form of a scalar (`Scalar.value`) that sign is gone, so sameness is equality
of normal forms. The operations on elements depend on the normal forms of their
operands alone.

Key definitions: `Scalar.value`, `valuePair`.
Key theorems: `Scalar.same_iff_value`, `ElemType.dot_value`, `Tensor.same_iff_value`.
-/
import EdgeFacts.Tensor.Basic

namespace EdgeFacts

/-! ### Floating-point data -/

namespace FloatDatum

theorem same_iff_value {a b : FloatDatum} : a.same b = true ↔ a.value = b.value := by
  simp [same]

theorem value_value (a : FloatDatum) : a.value.value = a.value := by cases a <;> rfl

theorem isZero_value (a : FloatDatum) : a.value.isZero = a.isZero := by
  cases a <;> simp [value, isZero]

theorem value_zero (negative : Bool) : (zero negative).value = finite 0 := by
  cases negative <;> rfl

theorem value_negZero : negZero.value = finite 0 := rfl

theorem add_value (a b : FloatDatum) : (a.value.add b.value).value = (a.add b).value := by
  -- a negative zero adds nothing, and neither does zero
  cases a with
  | negZero =>
    cases b with
    | finite y => exact congrArg finite (Rat.zero_add y)
    | negZero => exact congrArg finite (Rat.zero_add 0)
    | _ => rfl
  | finite x =>
    cases b with
    | negZero => exact congrArg finite (Rat.add_zero x)
    | _ => rfl
  | _ => cases b <;> rfl

theorem add_of_value {a b c d : FloatDatum} (h : a.value = b.value) (k : c.value = d.value) :
    (a.add c).value = (b.add d).value := by
  rw [← add_value, h, k, add_value]

theorem mul_value (a b : FloatDatum) : (a.value.mul b.value).value = (a.mul b).value := by
  -- only a zero beside a finite number keeps a sign, and the value drops it
  have finite_value (x : Rat) : (finite x).value = finite x := rfl
  have inf_value (s : Bool) : (inf s).value = inf s := rfl
  have nan_value : nan.value = nan := rfl
  cases a <;> cases b <;>
    simp [mul, value_negZero, finite_value, inf_value, nan_value, isNegative, isZero, value_zero]

theorem clampBelow_value (a : FloatDatum) : a.value.clampBelow = a.clampBelow := by
  cases a with
  | negZero => simp [value, clampBelow, isNegative]
  | _ => rfl

end FloatDatum

theorem FloatFormat.fit_value (f : FloatFormat) (a : FloatDatum) :
    (f.fit a.value).value = (f.fit a).value := by
  cases a <;> simp [fit, FloatDatum.value, round]

theorem FloatFormat.fit_of_value (f : FloatFormat) {a b : FloatDatum} (h : a.value = b.value) :
    (f.fit a).value = (f.fit b).value := by
  rw [← fit_value, h, fit_value]

/-! ### Scalars -/

namespace Scalar

/-- The scalar with a negative zero read as zero. -/
def value : Scalar → Scalar
  | float x => float x.value
  | a => a

theorem value_float (x : FloatDatum) : (float x).value = float x.value := rfl

theorem same_iff_value {a b : Scalar} : a.same b = true ↔ a.value = b.value := by
  cases a <;> cases b <;> simp [same, value, FloatDatum.same_iff_value]

theorem value_value (a : Scalar) : a.value.value = a.value := by
  cases a <;> simp [value, FloatDatum.value_value]

theorem toBool_value (a : Scalar) : a.value.toBool = a.toBool := by
  cases a <;> simp [value, toBool, FloatDatum.isZero_value]

theorem toInt_value (a : Scalar) : a.value.toInt = a.toInt := by
  rcases a with _ | _ | x
  · rfl
  · rfl
  · cases x <;> simp [value, toInt, FloatDatum.value]

theorem toFloat_value (a : Scalar) : a.value.toFloat.value = a.toFloat.value := by
  cases a <;> simp [value, toFloat, FloatDatum.value_value]

end Scalar

/-- A pair of scalars in normal form. -/
def valuePair (p : Scalar × Scalar) : Scalar × Scalar := (p.1.value, p.2.value)

/-- A sum of products depends on the values of the factors alone. -/
theorem FloatWidth.foldl_value {w : FloatWidth} : ∀ {pairs : List (Scalar × Scalar)} {a b : FloatDatum},
    a.value = b.value →
    ((pairs.map valuePair).foldl
      (fun sum p => w.format.fit (sum.add (w.format.fit (p.1.toFloat.mul p.2.toFloat)))) a).value =
    (pairs.foldl
      (fun sum p => w.format.fit (sum.add (w.format.fit (p.1.toFloat.mul p.2.toFloat)))) b).value
  | [], _, _, h => h
  | p :: pairs, a, b, h => by
    simp only [List.map_cons, List.foldl_cons, valuePair]
    refine foldl_value ?_
    have product : (p.1.value.toFloat.mul p.2.value.toFloat).value = (p.1.toFloat.mul p.2.toFloat).value := by
      rw [← FloatDatum.mul_value, Scalar.toFloat_value, Scalar.toFloat_value, FloatDatum.mul_value]
    have rounded := FloatFormat.fit_of_value w.format product
    exact FloatFormat.fit_of_value w.format (FloatDatum.add_of_value h rounded)

theorem FloatWidth.dot_value (w : FloatWidth) (pairs : List (Scalar × Scalar)) :
    (w.dot (pairs.map valuePair)).value = (w.dot pairs).value := foldl_value rfl

namespace ElemType

theorem cast_value (e : ElemType) (a : Scalar) : (e.cast a.value).value = (e.cast a).value := by
  cases e with
  | bool => simp [cast, Scalar.toBool_value]
  | int w => simp [cast, Scalar.toInt_value]
  | uint w => simp [cast, Scalar.toInt_value]
  | float w =>
    simp only [cast, Scalar.value_float]
    rw [← FloatFormat.fit_value, Scalar.toFloat_value, FloatFormat.fit_value]

theorem add_value (e : ElemType) (a b : Scalar) :
    (e.add a.value b.value).value = (e.add a b).value := by
  cases e with
  | bool => simp [add, Scalar.toBool_value]
  | int w => simp [add, Scalar.toInt_value]
  | uint w => simp [add, Scalar.toInt_value]
  | float w =>
    simp only [add, Scalar.value_float]
    rw [← FloatFormat.fit_value, ← FloatDatum.add_value, Scalar.toFloat_value,
      Scalar.toFloat_value, FloatDatum.add_value, FloatFormat.fit_value]

theorem dot_value (e : ElemType) (pairs : List (Scalar × Scalar)) :
    (e.dot (pairs.map valuePair)).value = (e.dot pairs).value := by
  cases e with
  | bool => simp [dot, valuePair, List.any_map, Function.comp_def, Scalar.toBool_value]
  | int w => simp [dot, valuePair, Function.comp_def, Scalar.toInt_value]
  | uint w => simp [dot, valuePair, Function.comp_def, Scalar.toInt_value]
  | float w => simp only [dot, Scalar.value_float, FloatWidth.dot_value]

theorem clamp_value (a : Scalar) : clamp a.value = clamp a := by
  cases a <;> simp [clamp, Scalar.value, FloatDatum.clampBelow_value]

end ElemType

/-! ### Tensors -/

namespace Tensor

theorem sameData_iff_value : ∀ {as bs : List Scalar},
    sameData as bs = true ↔ as.map Scalar.value = bs.map Scalar.value
  | [], [] => by simp [sameData]
  | [], _ :: _ => by simp [sameData]
  | _ :: _, [] => by simp [sameData]
  | a :: as, b :: bs => by
    have tail : sameData as bs = true ↔ _ := sameData_iff_value
    simp [sameData, tail, Scalar.same_iff_value]

theorem same_iff_value {a b : Tensor} : a.same b = true ↔
    a.elem = b.elem ∧ a.shape = b.shape ∧
      a.data.toList.map Scalar.value = b.data.toList.map Scalar.value := by
  simp [same, sameData_iff_value, and_assoc]

theorem elem_of_same {a b : Tensor} (h : a.same b = true) : a.elem = b.elem :=
  (same_iff_value.1 h).1

theorem shape_of_same {a b : Tensor} (h : a.same b = true) : a.shape = b.shape :=
  (same_iff_value.1 h).2.1

theorem get_of_same {a b : Tensor} (h : a.same b = true) (index : List Nat) :
    (a.get index).value = (b.get index).value := by
  obtain ⟨-, hs, hd⟩ := same_iff_value.1 h
  have key : ∀ (t : Tensor) (k : Nat),
      (t.data.getD k default).value = (t.data.toList.map Scalar.value).getD k (default : Scalar).value := by
    intro t k
    simp only [Array.getD_eq_getD_getElem?, List.getD_eq_getElem?_getD, List.getElem?_map,
      Array.getElem?_toList]
    cases t.data[k]? <;> rfl
  rw [get, get, key, key, hs, hd]

theorem ofFn_same {e : ElemType} {shape : List Nat} {f g : List Nat → Scalar}
    (h : ∀ i, (f i).value = (g i).value) : (ofFn e shape f).same (ofFn e shape g) = true := by
  refine same_iff_value.2 ⟨rfl, rfl, ?_⟩
  simp [ofFn, Function.comp_def, h]

theorem map_same {a b : Tensor} {f : Scalar → Scalar} (e : ElemType) {ha hb}
    (hf : ∀ x : Scalar, (f x.value).value = (f x).value) (h : a.same b = true) :
    same ⟨e, a.shape, a.data.map f, ha⟩ ⟨e, b.shape, b.data.map f, hb⟩ = true := by
  obtain ⟨-, hs, hd⟩ := same_iff_value.1 h
  refine same_iff_value.2 ⟨rfl, hs, ?_⟩
  have key : ∀ xs : List Scalar, (xs.map f).map Scalar.value =
      (xs.map Scalar.value).map fun x => (f x).value := by
    intro xs
    simp [Function.comp_def, hf]
  simp only [Array.toList_map]
  rw [key, key, hd]

theorem cast_same {a b : Tensor} (e : ElemType) (h : a.same b = true) :
    (a.cast e).same (b.cast e) = true := by
  unfold cast
  rw [elem_of_same h]
  split
  · exact h
  · exact map_same e (ElemType.cast_value e) h

end Tensor

end EdgeFacts
