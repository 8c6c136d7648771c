/-
# Tensors are functions on index lists

The index lists of a shape come in the order of their offsets
(`map_offset_indices`), so a tensor is read where it was built
(`Tensor.get_ofFn`), it is built from what is read of it (`Tensor.ofFn_get`),
and two tensors of one type and shape are equal if they are read alike.

Key definitions: `InBounds`.
Key theorems: `Tensor.get_ofFn`, `Tensor.ofFn_get`, `Tensor.ofFn_congr`.
-/
import Mathlib.Data.List.Forall2
import EdgeFacts.Tensor.Kernel

namespace EdgeFacts

/-- Whether an index list has a coordinate below each extent of a shape. -/
def InBounds (index shape : List Nat) : Prop := List.Forall₂ (· < ·) index shape

theorem mem_indices_iff : ∀ {shape index : List Nat}, index ∈ indices shape ↔ InBounds index shape
  | [], index => by simp [indices, InBounds]
  | n :: rest, index => by
    simp only [indices, List.mem_flatMap, List.mem_range, List.mem_map, mem_indices_iff, InBounds,
      List.forall₂_cons_right_iff]
    constructor
    · rintro ⟨i, hi, is, his, rfl⟩
      exact ⟨i, is, hi, his, rfl⟩
    · rintro ⟨i, is, hi, his, rfl⟩
      exact ⟨i, hi, is, his, rfl⟩

theorem flatMap_range_add (m : Nat) : ∀ n : Nat,
    ((List.range n).flatMap fun i => (List.range m).map (i * m + ·)) = List.range (n * m)
  | 0 => by simp
  | n + 1 => by
    rw [List.range_succ, List.flatMap_append, flatMap_range_add m n, Nat.succ_mul, List.range_add]
    simp

/-- The index lists of a shape come in the order of their offsets. -/
theorem map_offset_indices : ∀ shape : List Nat,
    (indices shape).map (offset shape) = List.range (extentProduct shape)
  | [] => rfl
  | n :: rest => by
    have ih := map_offset_indices rest
    rw [indices, extentProduct, ← flatMap_range_add, List.map_flatMap]
    congr 1
    funext i
    rw [← ih, List.map_map, List.map_map]
    rfl

theorem indices_offset {shape index : List Nat} (h : InBounds index shape) :
    (indices shape)[offset shape index]? = some index := by
  obtain ⟨k, hk⟩ := List.mem_iff_getElem?.1 (mem_indices_iff.2 h)
  have hoffset := congrArg (fun l => l[k]?) (map_offset_indices shape)
  simp only [List.getElem?_map, hk, Option.map_some] at hoffset
  obtain ⟨hlt, hoffset⟩ := List.getElem?_eq_some_iff.1 hoffset.symm
  rw [List.getElem_range] at hoffset
  rw [← hoffset, hk]

namespace Tensor

theorem get_ofFn {e : ElemType} {shape : List Nat} {f : List Nat → Scalar} {index : List Nat}
    (h : InBounds index shape) : (ofFn e shape f).get index = f index := by
  have hget := indices_offset h
  simp only [get, ofFn, Array.getD_eq_getD_getElem?, List.getElem?_toArray, List.getElem?_map, hget,
    Option.map_some, Option.getD_some]

theorem ofFn_congr {e : ElemType} {shape : List Nat} {f g : List Nat → Scalar}
    (h : ∀ index, InBounds index shape → f index = g index) : ofFn e shape f = ofFn e shape g := by
  have hmap : (indices shape).map f = (indices shape).map g :=
    List.map_congr_left fun i hi => h i (mem_indices_iff.1 hi)
  simp only [ofFn, hmap]

theorem ofFn_get (t : Tensor) : ofFn t.elem t.shape t.get = t := by
  obtain ⟨e, shape, data, hsize⟩ := t
  have hdata : ((indices shape).map fun i => data.getD (offset shape i) default) = data.toList := by
    have hmap := congrArg (List.map fun k => data.getD k default) (map_offset_indices shape)
    rw [List.map_map, ← hsize] at hmap
    refine Eq.trans hmap (List.ext_getElem (by simp) fun k hk hk' => ?_)
    have hk'' : k < data.size := by simpa using hk'
    simp [Array.getD_eq_getD_getElem?, hk'']
  have hget : (get ⟨e, shape, data, hsize⟩) = fun i => data.getD (offset shape i) default := rfl
  simp only [ofFn, hget, hdata, Array.toArray_toList]

theorem ext_get {t u : Tensor} (he : t.elem = u.elem) (hs : t.shape = u.shape)
    (h : ∀ index, InBounds index t.shape → t.get index = u.get index) : t = u := by
  rw [← ofFn_get t, ← ofFn_get u, ← he, ← hs]
  exact ofFn_congr h

theorem get_map {t : Tensor} {e : ElemType} {f : Scalar → Scalar} {hf : (t.data.map f).size = _}
    {index : List Nat} (h : InBounds index t.shape) :
    get ⟨e, t.shape, t.data.map f, hf⟩ index = f (t.get index) := by
  have hlt : offset t.shape index < t.data.size := by
    rw [t.size_eq, ← length_indices]
    exact (List.getElem?_eq_some_iff.1 (indices_offset h)).1
  simp [get, Array.getD_eq_getD_getElem?, hlt]

end Tensor

end EdgeFacts
