/-
# Operators respect the equality of values

Every kernel depends on the normal forms of the elements of its operands alone, and
so does every operator of the library: on the same inputs it fails alike or gives the
same output (`Operator.eval_same`).

Key definitions: `SameTensors`, `Operator.IsLibrary`.
Key theorems: `Tensor.convolve_same`, `Operator.eval_same`.
-/
import Mathlib.Data.List.Forall2
import EdgeFacts.Operator.Evaluate

namespace EdgeFacts

/-! ### Kernels -/

namespace Tensor

theorem getAligned_of_same {a b : Tensor} (h : a.same b = true) (index : List Nat) :
    (a.getAligned index).value = (b.getAligned index).value := by
  rw [getAligned, getAligned, shape_of_same h]
  exact get_of_same h _

theorem add_same {a a' b b' c : Tensor} (ha : a.same a' = true) (hb : b.same b' = true)
    (h : a.add b = .ok c) : ∃ c', a'.add b' = .ok c' ∧ c.same c' = true := by
  unfold add at h ⊢
  rw [← shape_of_same ha, ← shape_of_same hb, ← elem_of_same ha, ← elem_of_same hb]
  split at h
  · cases h
  · cases h
    refine ⟨_, rfl, ofFn_same fun i => ?_⟩
    rw [← ElemType.add_value, getAligned_of_same (cast_same _ ha), getAligned_of_same (cast_same _ hb),
      ElemType.add_value]

theorem clamp_same {a b : Tensor} (h : a.same b = true) : a.clamp.same b.clamp = true := by
  unfold clamp
  rw [elem_of_same h]
  exact map_same _ (fun x => by rw [ElemType.clamp_value]) h

theorem permute_same {a b : Tensor} (axes : List Nat) (h : a.same b = true) :
    (a.permute axes).same (b.permute axes) = true := by
  unfold permute
  rw [elem_of_same h, shape_of_same h, rank, rank, shape_of_same h]
  exact ofFn_same fun i => get_of_same h _

theorem convolve_same {sums : Contraction} {a a' b b' c : Tensor} {strideH strideW : Nat}
    (ha : a.same a' = true) (hb : b.same b' = true) (h : a.convolve b sums strideH strideW = .ok c) :
    ∃ c', a'.convolve b' sums strideH strideW = .ok c' ∧ c.same c' = true := by
  unfold convolve at h ⊢
  rw [← shape_of_same ha, ← shape_of_same hb, ← elem_of_same ha, ← elem_of_same hb]
  split at h
  · split at h
    · cases h
    · rename_i hfits
      cases h
      rw [if_neg hfits]
      exact ⟨_, rfl, ofFn_same fun i => sums.entry_of_same _ (cast_same _ ha) (cast_same _ hb) _ _ i⟩
  · cases h

end Tensor

/-! ### Operators -/

/-- Two lists of tensors hold the same values, place by place. -/
abbrev SameTensors : List Tensor → List Tensor → Prop :=
  List.Forall₂ fun a b => a.same b = true

theorem ofKernel_eq_ok_iff {α : Type} {r : Except KernelFault α} {a : α} :
    ofKernel r = .ok a ↔ r = .ok a := by
  cases r <;> simp [ofKernel]

theorem transposeTensor_same {perm : Option (List AxisEntry)} {x y t : Tensor}
    (h : x.same y = true) (ht : transposeTensor perm x = .ok t) :
    ∃ u, transposeTensor perm y = .ok u ∧ t.same u = true := by
  have hrank : x.rank = y.rank := by rw [Tensor.rank, Tensor.rank, Tensor.shape_of_same h]
  unfold transposeTensor at ht ⊢
  rw [← hrank]
  cases hp : permFor perm x.rank with
  | error e => simp [hp, bind, Except.bind] at ht
  | ok entries =>
    simp only [hp, bind, Except.bind] at ht ⊢
    split at ht
    · cases ht
      exact ⟨_, rfl, Tensor.permute_same _ h⟩
    · cases ht

theorem convolveTensors_same {sums : Contraction} {strideH strideW : Nat} {a a' b b' t : Tensor}
    (ha : a.same a' = true) (hb : b.same b' = true)
    (ht : convolveTensors sums strideH strideW a b = .ok t) :
    ∃ u, convolveTensors sums strideH strideW a' b' = .ok u ∧ t.same u = true := by
  unfold convolveTensors at ht ⊢
  rw [← Tensor.shape_of_same ha, ← Tensor.shape_of_same hb]
  split at ht
  · split at ht
    · obtain ⟨u, hu, hs⟩ := Tensor.convolve_same ha hb (ofKernel_eq_ok_iff.1 ht)
      rename_i hc
      exact ⟨u, by rw [if_pos hc, hu]; rfl, hs⟩
    · cases ht
  · cases ht

namespace Operator

/-- The permutation that a transposition is built with: the positions of its
entries, if all have one, are those of the axes in some order. -/
def ValidPerm (perm : List AxisEntry) : Prop :=
  ∀ axes, perm.mapM AxisEntry.position? = some axes → axes.Perm (List.range perm.length)

/-- The operators of the library, with attributes that their makers accept. -/
def IsLibrary : Operator → Prop
  | custom _ => False
  | placeholder fact => fact.value = none
  | transpose (some perm) => ValidPerm perm
  | _ => True

/-- On inputs of the same values an operator of the library has the same output. -/
theorem eval_same {op : Operator} (hop : op.IsLibrary) {xs ys : List Tensor} {t : Tensor}
    (h : SameTensors xs ys) (ht : op.eval xs = .ok t) :
    ∃ u, op.eval ys = .ok u ∧ t.same u = true := by
  cases op with
  | custom c => exact hop.elim
  | const value =>
    cases h with
    | nil => exact ⟨t, ht, t.same_refl⟩
    | cons _ _ => cases ht
  | placeholder fact => cases ht
  | identity =>
    rcases h with _ | ⟨hx, _ | ⟨_, _⟩⟩
    · cases ht
    · cases ht
      exact ⟨_, rfl, hx⟩
    · cases ht
  | relu =>
    rcases h with _ | ⟨hx, _ | ⟨_, _⟩⟩
    · cases ht
    · cases ht
      exact ⟨_, rfl, Tensor.clamp_same hx⟩
    · cases ht
  | transpose perm =>
    rcases h with _ | ⟨hx, _ | ⟨_, _⟩⟩
    · cases ht
    · exact transposeTensor_same hx ht
    · cases ht
  | add =>
    rcases h with _ | ⟨hx, _ | ⟨hy, _ | ⟨_, _⟩⟩⟩
    · cases ht
    · cases ht
    · obtain ⟨u, hu, hs⟩ := Tensor.add_same hx hy (ofKernel_eq_ok_iff.1 ht)
      exact ⟨u, by simp [eval, hu, ofKernel], hs⟩
    · cases ht
  | convolution sums strideH strideW =>
    rcases h with _ | ⟨hx, _ | ⟨hy, _ | ⟨_, _⟩⟩⟩
    · cases ht
    · cases ht
    · exact convolveTensors_same hx hy ht
    · cases ht

end Operator

end EdgeFacts
