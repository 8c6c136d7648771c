/-
# Slices and their concatenation

A slice is read at shifted positions (`Tensor.get_slice`). Slices that follow
each other join to a slice (`Tensor.concat_slice`), so the pieces into which a
tensor is cut along an axis are put together again (`Tensor.concatAll_pieces`),
its slices of extent 1 in particular (`Tensor.concatAll_unitSlices`).

Key definitions: `Tensor.concatAll`, `Tensor.pieces`, `Tensor.unitSlices`.
Key theorems: `Tensor.slice_slice`, `Tensor.concat_slice`, `Tensor.concatAll_pieces`,
`Tensor.concatAll_unitSlices`.
-/
import Mathlib.Algebra.Ring.Nat
import EdgeFacts.Proofs.Index

namespace EdgeFacts

/-! ### Positions within bounds -/

theorem set_getD : ∀ (shape : List Nat) (k : Nat), shape.set k (shape.getD k 0) = shape
  | [], _ => rfl
  | _ :: _, 0 => rfl
  | n :: shape, k + 1 => congrArg (n :: ·) (set_getD shape k)

theorem getD_set {shape : List Nat} {k : Nat} (hk : k < shape.length) (m : Nat) :
    (shape.set k m).getD k 0 = m := by
  rw [List.getD_eq_getElem?_getD, List.getElem?_set_self hk]
  rfl

theorem InBounds.length_eq {index shape : List Nat} (h : InBounds index shape) :
    index.length = shape.length := List.Forall₂.length_eq h

theorem InBounds.getD_lt {index shape : List Nat} (h : InBounds index shape) {k : Nat}
    (hk : k < shape.length) : index.getD k 0 < shape.getD k 0 := by
  have hk' : k < index.length := h.length_eq ▸ hk
  have hlt := List.Forall₂.get h hk' hk
  rwa [List.getD_eq_getElem?_getD, List.getD_eq_getElem?_getD, List.getElem?_eq_getElem hk,
    List.getElem?_eq_getElem hk']

theorem InBounds.getD_lt_set {index shape : List Nat} {k m : Nat} (h : InBounds index (shape.set k m))
    (hk : k < shape.length) : index.getD k 0 < m := by
  have hlt := h.getD_lt (k := k) (by rwa [List.length_set])
  rwa [getD_set hk] at hlt

/-- It matters only how a coordinate is moved where it is. -/
theorem modify_congr : ∀ {index : List Nat} {k : Nat} {f g : Nat → Nat},
    f (index.getD k 0) = g (index.getD k 0) → index.modify k f = index.modify k g
  | [], 0, _, _, _ => rfl
  | [], _ + 1, _, _, _ => rfl
  | _ :: index, 0, _, _, h => congrArg (· :: index) h
  | i :: _, _ + 1, _, _, h => congrArg (i :: ·) (modify_congr h)

/-- A coordinate may be moved to where the other shape has room for it. -/
theorem InBounds.modify : ∀ {index shape : List Nat} {k m m' : Nat} {f : Nat → Nat},
    InBounds index (shape.set k m) → f (index.getD k 0) < m' →
    InBounds (index.modify k f) (shape.set k m')
  | index, [], k, _, _, _, h, _ => by
    cases h
    cases k <;> exact .nil
  | _, n :: shape, 0, _, _, _, .cons _ hs, hf => .cons hf hs
  | _, n :: shape, k + 1, _, _, _, .cons hj hs, hf => .cons hj (InBounds.modify hs hf)

theorem InBounds.narrow {index shape : List Nat} {k m m' : Nat} (h : InBounds index (shape.set k m))
    (hlt : index.getD k 0 < m') : InBounds index (shape.set k m') := by
  have := h.modify (f := id) hlt
  rwa [List.modify_id] at this

namespace Tensor

variable {t : Tensor} {k a b c : Nat}

theorem shape_slice_of_le (h : b ≤ t.extent k) : (t.slice k a b).shape = t.shape.set k (b - a) := by
  rw [shape_slice, Nat.min_eq_left h]

theorem extent_slice (h : b ≤ t.extent k) (hk : k < t.rank) : (t.slice k a b).extent k = b - a := by
  rw [extent, shape_slice_of_le h, getD_set hk]

theorem elem_slice : (t.slice k a b).elem = t.elem := rfl

theorem lt_rank_of_extent (h : 0 < t.extent k) : k < t.rank := by
  by_contra hk
  rw [extent, List.getD_eq_getElem?_getD, List.getElem?_eq_none (Nat.le_of_not_lt hk)] at h
  exact Nat.lt_irrefl 0 h

theorem cast_of_eq {e : ElemType} (h : t.elem = e) : t.cast e = t := by
  rw [← h]
  exact t.cast_self

theorem get_slice (hb : b ≤ t.extent k) {index : List Nat} (h : InBounds index (t.shape.set k (b - a))) :
    (t.slice k a b).get index = t.get (index.modify k (a + ·)) := by
  rw [slice, Nat.min_eq_left hb, get_ofFn h]

theorem eq_slice {u : Tensor} (he : u.elem = t.elem) (hb : b ≤ t.extent k)
    (hs : u.shape = t.shape.set k (b - a))
    (h : ∀ index, InBounds index (t.shape.set k (b - a)) → u.get index = t.get (index.modify k (a + ·))) :
    u = t.slice k a b := by
  refine ext_get he (hs.trans (shape_slice_of_le hb).symm) fun index hi => ?_
  rw [hs] at hi
  rw [h index hi, get_slice hb hi]

theorem slice_full (t : Tensor) (k : Nat) : t.slice k 0 (t.extent k) = t := by
  refine (eq_slice rfl (Nat.le_refl _) (set_getD t.shape k).symm fun index _ => ?_).symm
  have hid : (0 + · : Nat → Nat) = id := funext Nat.zero_add
  rw [hid, List.modify_id]

theorem slice_slice {d : Nat} (hab : a ≤ b) (hb : b ≤ t.extent k) (hk : k < t.rank) (hd : d ≤ b - a) :
    (t.slice k a b).slice k c d = t.slice k (a + c) (a + d) := by
  have hext := extent_slice (a := a) hb hk
  have hd' : d ≤ (t.slice k a b).extent k := hext.symm ▸ hd
  have hshape : (t.slice k a b).shape.set k (d - c) = t.shape.set k (a + d - (a + c)) := by
    rw [shape_slice_of_le hb, List.set_set, Nat.add_sub_add_left]
  refine eq_slice rfl (by omega) ?_ fun index hi => ?_
  · rw [shape_slice_of_le hd', hshape]
  · have hlt := hi.getD_lt_set hk
    rw [get_slice hd' (hshape ▸ hi),
      get_slice hb (hi.modify (f := (c + ·)) (show c + index.getD k 0 < b - a by omega)),
      List.modify_modify_eq]
    congr 2
    funext j
    exact (Nat.add_assoc a c j).symm

theorem join_slice (hab : a ≤ b) (hbc : b ≤ c) (hc : c ≤ t.extent k) (hk : k < t.rank) :
    (t.slice k a b).join (t.slice k b c) k = t.slice k a c := by
  have hb := Nat.le_trans hbc hc
  have hn := extent_slice (a := a) hb hk
  have hm := extent_slice (a := b) hc hk
  have hshape : (t.slice k a b).shape.set k (b - a + (c - b)) = t.shape.set k (c - a) := by
    rw [shape_slice_of_le hb, List.set_set]
    congr 1
    omega
  refine eq_slice t.elem.promote_self hc ?_ fun index hi => ?_
  · show (t.slice k a b).shape.set k _ = _
    rw [hn, hm, hshape]
  · have hlt := hi.getD_lt_set hk
    simp only [join, elem_slice, ElemType.promote_self, hn, hm, hshape]
    rw [get_ofFn hi, cast_of_eq elem_slice, cast_of_eq elem_slice]
    by_cases hfirst : index.getD k 0 < b - a
    · rw [if_pos hfirst, get_slice hb (hi.narrow hfirst)]
    · rw [if_neg hfirst, get_slice hc (hi.modify (f := (· - (b - a)))
          (show index.getD k 0 - (b - a) < c - b by omega)), List.modify_modify_eq]
      refine congrArg t.get (modify_congr ?_)
      show b + (index.getD k 0 - (b - a)) = a + index.getD k 0
      omega

theorem position?_natCast {count k : Nat} (hk : k < count) : position? count (k : Int) = some k := by
  unfold position?
  rw [if_pos (Int.natCast_nonneg k), if_pos (by omega)]
  rfl

/-- **Slices that follow each other are concatenated to a slice.** -/
theorem concat_slice (hab : a ≤ b) (hbc : b ≤ c) (hc : c ≤ t.extent k) (hk : k < t.rank) :
    (t.slice k a b).concat (t.slice k b c) k = .ok (t.slice k a c) := by
  have hrank (a b : Nat) : (t.slice k a b).rank = t.rank := List.length_set
  have hothers (a b : Nat) : (t.slice k a b).shape.eraseIdx k = t.shape.eraseIdx k := List.eraseIdx_set_eq
  unfold concat
  rw [hrank, hrank, if_neg (Nat.ne_of_gt (Nat.zero_lt_of_lt hk)), position?_natCast hk]
  simp only [hothers, and_self, if_true, join_slice hab hbc hc hk]

/-! ### Pieces and their concatenation -/

/-- The concatenation of tensors along an axis; there must be one. -/
def concatAll (axis : Int) : List Tensor → Except KernelFault Tensor
  | [] => .error .mismatch
  | t :: ts => ts.foldlM (fun t u => t.concat u axis) t

/-- Slices that follow each other from a position on, of the given extents. -/
def pieces (t : Tensor) (k : Nat) : Nat → List Nat → List Tensor
  | _, [] => []
  | r, n :: ns => t.slice k r (r + n) :: pieces t k (r + n) ns

theorem map_extent_pieces (hk : k < t.rank) : ∀ {r : Nat} {ns : List Nat}, r + ns.sum ≤ t.extent k →
    (t.pieces k r ns).map (·.extent k) = ns
  | _, [], _ => rfl
  | r, n :: ns, h => by
    rw [List.sum_cons] at h
    rw [pieces, List.map_cons, extent_slice (by omega) hk, Nat.add_sub_cancel_left,
      map_extent_pieces hk (by omega)]

theorem pieces_append : ∀ (r : Nat) (ns ms : List Nat),
    t.pieces k r (ns ++ ms) = t.pieces k r ns ++ t.pieces k (r + ns.sum) ms
  | _, [], _ => rfl
  | r, n :: ns, ms => by
    rw [List.cons_append, pieces, pieces, List.sum_cons, ← Nat.add_assoc, pieces_append (r + n) ns ms]
    rfl

theorem foldlM_pieces (hk : k < t.rank) : ∀ {a r : Nat} {ns : List Nat}, a ≤ r → r + ns.sum ≤ t.extent k →
    (t.pieces k r ns).foldlM (fun u v => u.concat v k) (t.slice k a r) = .ok (t.slice k a (r + ns.sum))
  | a, r, [], _, _ => rfl
  | a, r, n :: ns, ha, h => by
    rw [List.sum_cons] at h ⊢
    rw [pieces, List.foldlM_cons, concat_slice ha (Nat.le_add_right r n) (by omega) hk, ← Nat.add_assoc]
    exact foldlM_pieces hk (by omega) (by omega)

/-- **Pieces are put together again**, if there are any. -/
theorem concatAll_pieces (hk : k < t.rank) {r : Nat} {ns : List Nat} (hns : ns ≠ [])
    (h : r + ns.sum ≤ t.extent k) : concatAll k (t.pieces k r ns) = .ok (t.slice k r (r + ns.sum)) := by
  cases ns with
  | nil => exact absurd rfl hns
  | cons n ns =>
    rw [List.sum_cons] at h ⊢
    rw [pieces, concatAll, ← Nat.add_assoc]
    exact foldlM_pieces hk (Nat.le_add_right r n) (by omega)

theorem pieces_slice (hk : k < t.rank) {b : Nat} (hb : b ≤ t.extent k) : ∀ {r : Nat} {ns : List Nat},
    r + ns.sum ≤ b → (t.slice k 0 b).pieces k r ns = t.pieces k r ns
  | _, [], _ => rfl
  | r, n :: ns, h => by
    rw [List.sum_cons] at h
    rw [pieces, pieces, slice_slice (Nat.zero_le b) hb hk (by omega), Nat.zero_add, Nat.zero_add,
      pieces_slice hk hb (by omega)]

/-! ### Unit slices -/

/-- The slices of extent 1 of a tensor along an axis, in order. -/
def unitSlices (t : Tensor) (axis : Nat) : List Tensor :=
  (List.range (t.extent axis)).map fun j => t.slice axis j (j + 1)

theorem pieces_replicate : ∀ (i r : Nat),
    t.pieces k r (List.replicate i 1) = (List.range' r i).map fun j => t.slice k j (j + 1)
  | 0, _ => rfl
  | i + 1, r => by
    rw [List.replicate_succ, pieces, pieces_replicate i (r + 1), List.range'_succ, List.map_cons]

/-- The first unit slices are pieces. -/
theorem take_unitSlices {i : Nat} (hi : i ≤ t.extent k) :
    (t.unitSlices k).take i = t.pieces k 0 (List.replicate i 1) := by
  rw [pieces_replicate, unitSlices, ← List.map_take, List.take_range, Nat.min_eq_left hi, List.range_eq_range']

/-- The first unit slices are put together to a slice. -/
theorem concatAll_slices (hk : k < t.rank) (n : Nat) (hn : n + 1 ≤ t.extent k) :
    concatAll k ((List.range (n + 1)).map fun j => t.slice k j (j + 1)) = .ok (t.slice k 0 (n + 1)) := by
  have hsum : (List.replicate (n + 1) 1).sum = n + 1 := by simp
  have hne : List.replicate (n + 1) 1 ≠ [] := List.replicate_succ_ne_nil
  have hall := concatAll_pieces hk hne (by omega : 0 + _ ≤ t.extent k)
  rwa [pieces_replicate, ← List.range_eq_range', hsum, Nat.zero_add] at hall

/-- **A tensor is the concatenation of its unit slices.** -/
theorem concatAll_unitSlices (h : 0 < t.extent k) : concatAll k (t.unitSlices k) = .ok t := by
  obtain ⟨n, hn⟩ : ∃ n, t.extent k = n + 1 := ⟨t.extent k - 1, by omega⟩
  have hall := concatAll_slices (lt_rank_of_extent h) n (Nat.le_of_eq hn.symm)
  rw [unitSlices, hn, hall, ← hn, slice_full]

end Tensor

end EdgeFacts
