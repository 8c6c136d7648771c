/-
# Kernels work chunk by chunk

What a kernel computes from a slice of an operand is a slice of what it computes
from the whole operand: along the same axis for a clamp, along the permuted axis
for a permutation, along the aligned axis for an addition of something that has
extent 1 there, and for a convolution along the batch axis. Along a spatial axis
the slice must cover the windows of the result.

Key theorems: `Tensor.clamp_slice`, `Tensor.permute_slice`, `Tensor.add_slice_left`,
`Tensor.add_slice_right`, `convolveTensors_slice_batch`,
`convolveTensors_slice_spatial`.
-/
import EdgeFacts.Proofs.Slice
import EdgeFacts.Proofs.Value

namespace EdgeFacts

theorem InBounds.shift {index shape : List Nat} {k a b : Nat} (h : InBounds index (shape.set k (b - a)))
    (hb : b ≤ shape.getD k 0) (hk : k < shape.length) : InBounds (index.modify k (a + ·)) shape := by
  have hlt := h.getD_lt_set hk
  have := h.modify (f := (a + ·)) (show a + index.getD k 0 < shape.getD k 0 by omega)
  rwa [set_getD] at this

namespace Tensor

variable {t : Tensor} {k a b : Nat}

theorem map_slice {e : ElemType} {f : Scalar → Scalar} {hs : ((t.slice k a b).data.map f).size = _}
    {ht : (t.data.map f).size = _} (hb : b ≤ t.extent k) (hk : k < t.rank) :
    (⟨e, (t.slice k a b).shape, (t.slice k a b).data.map f, hs⟩ : Tensor) =
      slice ⟨e, t.shape, t.data.map f, ht⟩ k a b := by
  refine eq_slice rfl hb (shape_slice_of_le hb) fun index hi => ?_
  have hi' : InBounds index (t.slice k a b).shape := (shape_slice_of_le hb).symm ▸ hi
  have hshift : InBounds (index.modify k (a + ·)) t.shape := hi.shift hb hk
  rw [get_map hi', get_slice hb hi, get_map hshift]

theorem clamp_slice (hb : b ≤ t.extent k) (hk : k < t.rank) :
    (t.slice k a b).clamp = t.clamp.slice k a b := map_slice hb hk

theorem cast_slice (hb : b ≤ t.extent k) (hk : k < t.rank) (e : ElemType) :
    (t.slice k a b).cast e = (t.cast e).slice k a b := by
  unfold cast
  rw [elem_slice]
  by_cases he : e = t.elem
  · rw [if_pos he, if_pos he]
  · rw [if_neg he, if_neg he]
    exact map_slice hb hk

theorem get_cast_slice (hb : b ≤ t.extent k) (hk : k < t.rank) (e : ElemType) {index : List Nat}
    (hi : InBounds index (t.shape.set k (b - a))) :
    ((t.slice k a b).cast e).get index = (t.cast e).get (index.modify k (a + ·)) := by
  rw [cast_slice hb hk]
  refine get_slice ?_ ?_
  · rwa [extent, shape_cast]
  · rwa [shape_cast]

theorem ofFn_eq_slice {e : ElemType} {shape shape' : List Nat} {f g : List Nat → Scalar}
    (hs : shape' = shape.set k (b - a)) (hb : b ≤ shape.getD k 0) (hk : k < shape.length)
    (h : ∀ index, InBounds index (shape.set k (b - a)) → f index = g (index.modify k (a + ·))) :
    ofFn e shape' f = (ofFn e shape g).slice k a b := by
  refine eq_slice rfl hb hs fun index hi => ?_
  have hi' : InBounds index (shape.set k (b - a)) := hi
  rw [get_ofFn (hs ▸ hi'), get_ofFn (hi'.shift hb hk), h index hi']

/-! ### Permutations -/

/-- An index list of a permuted shape, permuted back. -/
theorem inBounds_permute {axes shape index : List Nat} (hp : axes.Perm (List.range shape.length))
    (h : InBounds index (axes.map fun p => shape.getD p 0)) :
    InBounds ((List.range shape.length).map fun q => index.getD (axes.idxOf q) 0) shape := by
  refine List.forall₂_iff_get.2 ⟨by simp, fun q hq hq' => ?_⟩
  have hmem : q ∈ axes := hp.mem_iff.2 (List.mem_range.2 hq')
  have hlt := List.idxOf_lt_length_of_mem hmem
  have hget := h.getD_lt (k := axes.idxOf q) (by rwa [List.length_map])
  simpa [List.getD_eq_getElem?_getD, hlt, hq'] using hget

theorem map_getD_set {axes shape : List Nat} (hn : axes.Nodup) (hk : k < shape.length) (m : Nat) :
    axes.map (fun p => (shape.set k m).getD p 0) =
      (axes.map fun p => shape.getD p 0).set (axes.idxOf k) m := by
  refine List.ext_getElem (by simp) fun j hj hj' => ?_
  have hj₁ : j < axes.length := by simpa using hj
  rw [List.getElem_map, List.getElem_set, List.getElem_map]
  by_cases hjk : axes.idxOf k = j
  · have hkj : axes[j] = k := by
      subst hjk
      exact List.getElem_idxOf hj₁
    rw [if_pos hjk, hkj, getD_set hk]
  · have hkj : axes[j] ≠ k := by
      rintro rfl
      exact hjk (hn.idxOf_getElem j hj₁)
    rw [if_neg hjk, List.getD_eq_getElem?_getD, List.getElem?_set_ne (Ne.symm hkj),
      ← List.getD_eq_getElem?_getD]

theorem shape_permute (t : Tensor) (axes : List Nat) :
    (t.permute axes).shape = axes.map fun p => t.shape.getD p 0 := rfl

theorem get_permute {axes index : List Nat} (h : InBounds index (t.permute axes).shape) :
    (t.permute axes).get index = t.get ((List.range t.rank).map fun q => index.getD (axes.idxOf q) 0) :=
  get_ofFn h

theorem extent_permute {axes : List Nat} (hk : k ∈ axes) :
    (t.permute axes).extent (axes.idxOf k) = t.extent k := by
  have hlt := List.idxOf_lt_length_of_mem hk
  rw [extent, shape_permute, List.getD_eq_getElem?_getD, List.getElem?_map, List.getElem?_eq_getElem hlt,
    List.getElem_idxOf hlt]
  rfl

/-- **A slice is permuted to a slice** along the axis that its axis is moved to. -/
theorem permute_slice {axes : List Nat} (hp : axes.Perm (List.range t.rank)) (hb : b ≤ t.extent k)
    (hk : k < t.rank) : (t.slice k a b).permute axes = (t.permute axes).slice (axes.idxOf k) a b := by
  have hn : axes.Nodup := hp.nodup_iff.2 List.nodup_range
  have hmem : k ∈ axes := hp.mem_iff.2 (List.mem_range.2 hk)
  have hlt : axes.idxOf k < (t.permute axes).shape.length := by
    rw [shape_permute, List.length_map]
    exact List.idxOf_lt_length_of_mem hmem
  have hb' : b ≤ (t.permute axes).extent (axes.idxOf k) := Nat.le_trans hb (Nat.le_of_eq (extent_permute hmem).symm)
  have hshape : ((t.slice k a b).permute axes).shape = (t.permute axes).shape.set (axes.idxOf k) (b - a) := by
    rw [shape_permute, shape_slice_of_le hb]
    exact map_getD_set hn hk _
  have hrank : (t.slice k a b).rank = t.rank := List.length_set
  refine eq_slice rfl hb' hshape fun index hi => ?_
  have hp' : axes.Perm (List.range (t.slice k a b).shape.length) := by
    rw [← rank, hrank]
    exact hp
  rw [← hshape] at hi
  have hback := inBounds_permute hp' hi
  rw [shape_slice_of_le hb, List.length_set] at hback
  rw [get_permute hi, hrank, rank, get_slice hb hback]
  rw [hshape] at hi
  rw [get_permute (hi.shift hb' hlt)]
  refine congrArg t.get (List.ext_getElem (by simp [rank]) fun q hq hq' => ?_)
  have hqr : q < t.rank := by simpa using hq'
  have hkq : axes.idxOf k = axes.idxOf q ↔ k = q := List.idxOf_inj hmem
  have hidx : axes.idxOf q < index.length := by
    rw [hi.length_eq, List.length_set, shape_permute, List.length_map]
    exact List.idxOf_lt_length_of_mem (hp.mem_iff.2 (List.mem_range.2 hqr))
  rw [List.getElem_modify, List.getElem_map, List.getElem_range, List.getElem_map, List.getElem_range,
    List.getD_eq_getElem?_getD, List.getD_eq_getElem?_getD, List.getElem?_modify,
    List.getElem?_eq_getElem hidx]
  by_cases hkq' : k = q
  · simp [hkq']
  · simp [hkq, hkq']

/-! ### Additions -/

theorem reverse_set {α : Type} {xs : List α} {k j : Nat} (x : α) (hk : k + j + 1 = xs.length) :
    (xs.set k x).reverse = xs.reverse.set j x := by
  refine List.ext_getElem (by simp) fun q hq _ => ?_
  have hq' : q < xs.length := by simpa using hq
  rw [List.getElem_reverse, List.getElem_set, List.getElem_set, List.getElem_reverse]
  simp only [List.length_set]
  by_cases hjq : j = q
  · rw [if_pos hjq, if_pos (by omega)]
  · rw [if_neg hjq, if_neg (by omega)]

theorem broadcastReversed?_set : ∀ {as bs cs : List Nat} {j : Nat} (m : Nat),
    broadcastReversed? as bs = some cs → j < as.length → bs.getD j 1 = 1 →
    broadcastReversed? (as.set j m) bs = some (cs.set j m)
  | a :: as, [], cs, j, m, h, _, _ => by
    cases h
    cases j <;> rfl
  | a :: as, b :: bs, cs, j, m, h, hj, hone => by
    simp only [broadcastReversed?] at h
    split at h
    · rename_i n rest hn hrest
      cases h
      cases j with
      | zero =>
        obtain rfl : b = 1 := hone
        have hm : broadcastExtent? m 1 = some m := by
          unfold broadcastExtent?
          by_cases hm : m = 1 <;> simp [hm]
        simp only [List.set_cons_zero, broadcastReversed?, hm, hrest]
      | succ j =>
        have ih := broadcastReversed?_set m hrest (Nat.lt_of_succ_lt_succ hj) hone
        simp only [List.set_cons_succ, broadcastReversed?, hn, ih]
    · cases h

theorem broadcastExtents_set {xs ys zs : List Nat} {k k' j : Nat} (m : Nat)
    (h : broadcastExtents xs ys = some zs) (hk : k + j + 1 = xs.length) (hk' : k' + j + 1 = zs.length)
    (hone : ys.reverse.getD j 1 = 1) : broadcastExtents (xs.set k m) ys = some (zs.set k' m) := by
  obtain ⟨cs, hcs, rfl⟩ := Option.map_eq_some_iff.1 h
  rw [List.length_reverse] at hk'
  have hset := broadcastReversed?_set m hcs (by rw [List.length_reverse]; omega) hone
  have hcs' : cs.set j m = (cs.reverse.set k' m).reverse := by
    rw [reverse_set m (by rwa [List.length_reverse]), List.reverse_reverse]
  rw [broadcastExtents, reverse_set m hk, hset, hcs', Option.map_some, List.reverse_reverse]

/-- An operand has the extents of the result, or extent 1. -/
theorem broadcastReversed?_getElem : ∀ {as bs cs : List Nat}, broadcastReversed? as bs = some cs →
    as.length ≤ cs.length ∧ ∀ q a : Nat, as[q]? = some a → cs[q]? = some a ∨ a = 1
  | [], bs, cs, h => ⟨Nat.zero_le _, fun q a ha => by simp at ha⟩
  | a :: as, [], cs, h => by
    cases h
    exact ⟨Nat.le_refl _, fun q b hb => .inl hb⟩
  | a :: as, b :: bs, cs, h => by
    simp only [broadcastReversed?] at h
    split at h
    · rename_i n rest hn hrest
      cases h
      obtain ⟨hlen, hget⟩ := broadcastReversed?_getElem hrest
      refine ⟨Nat.succ_le_succ hlen, fun q c hc => ?_⟩
      cases q with
      | zero =>
        cases hc
        unfold broadcastExtent? at hn
        simp only [List.getElem?_cons_zero, Option.some.injEq]
        grind
      | succ q => exact hget q c hc
    · cases h

theorem broadcastExtents_getElem {xs ys zs : List Nat} (h : broadcastExtents xs ys = some zs) :
    xs.length ≤ zs.length ∧ ∀ q a : Nat, xs[q]? = some a → zs[q + (zs.length - xs.length)]? = some a ∨ a = 1 := by
  obtain ⟨cs, hcs, rfl⟩ := Option.map_eq_some_iff.1 h
  obtain ⟨hlen, hget⟩ := broadcastReversed?_getElem hcs
  rw [List.length_reverse] at hlen ⊢
  refine ⟨hlen, fun q a ha => ?_⟩
  have hq := (List.getElem?_eq_some_iff.1 ha).1
  have hrev := hget (xs.length - 1 - q) a (by
    rw [List.getElem?_reverse (by omega)]
    rw [show xs.length - 1 - (xs.length - 1 - q) = q by omega]
    exact ha)
  refine hrev.imp_left fun hc => ?_
  rw [List.getElem?_reverse (by omega)]
  rw [show cs.length - 1 - (q + (cs.length - xs.length)) = xs.length - 1 - q by omega]
  exact hc

theorem alignIndex_getElem {shape index : List Nat} (hlen : shape.length ≤ index.length) {q n : Nat}
    (hn : shape[q]? = some n) :
    (alignIndex shape index)[q]? =
      some (if n = 1 then 0 else index.getD (q + (index.length - shape.length)) 0) := by
  have hq := (List.getElem?_eq_some_iff.1 hn).1
  have hi : q + (index.length - shape.length) < index.length := by omega
  rw [alignIndex, List.getElem?_zipWith, hn, List.getElem?_drop, Nat.add_comm,
    List.getElem?_eq_getElem hi, List.getD_eq_getElem?_getD, List.getElem?_eq_getElem hi]
  rfl

theorem length_alignIndex {shape index : List Nat} (hlen : shape.length ≤ index.length) :
    (alignIndex shape index).length = shape.length := by
  rw [alignIndex, List.length_zipWith, List.length_drop]
  omega

theorem inBounds_alignIndex {xs ys zs index : List Nat} (h : broadcastExtents xs ys = some zs)
    (hi : InBounds index zs) : InBounds (alignIndex xs index) xs := by
  obtain ⟨hlen, hget⟩ := broadcastExtents_getElem h
  rw [← hi.length_eq] at hlen
  refine List.forall₂_iff_get.2 ⟨length_alignIndex hlen, fun q hq hq' => ?_⟩
  have hn := List.getElem?_eq_getElem hq'
  have halign := alignIndex_getElem hlen hn
  rw [List.getElem?_eq_getElem hq, Option.some.injEq] at halign
  simp only [List.get_eq_getElem, halign]
  by_cases hone : xs[q] = 1
  · rw [if_pos hone, hone]
    exact Nat.zero_lt_one
  · rw [if_neg hone]
    have hz := (hget q _ hn).resolve_right hone
    rw [← hi.length_eq] at hz
    have hlt := hi.getD_lt (List.getElem?_eq_some_iff.1 hz).1
    rwa [List.getD_eq_getElem?_getD (l := zs), hz] at hlt

theorem getD_modify {index : List Nat} {k q : Nat} (hq : q < index.length) (f : Nat → Nat) :
    (index.modify k f).getD q 0 = if k = q then f (index.getD q 0) else index.getD q 0 := by
  rw [List.getD_eq_getElem?_getD, List.getD_eq_getElem?_getD, List.getElem?_modify,
    List.getElem?_eq_getElem hq]
  by_cases hkq : k = q <;> simp [hkq]

/-- The operand along whose axis a sum is sliced is read at shifted positions. -/
theorem getAligned_slice {x : Tensor} {ys zs : List Nat} {k k' j a b : Nat}
    (h : broadcastExtents x.shape ys = some zs) (hk : k + j + 1 = x.rank) (hk' : k' + j + 1 = zs.length)
    (hone : ys.reverse.getD j 1 = 1) (hb : b ≤ x.extent k) {index : List Nat}
    (hi : InBounds index (zs.set k' (b - a))) :
    (x.slice k a b).getAligned index = x.getAligned (index.modify k' (a + ·)) := by
  have hset := broadcastExtents_set (b - a) h hk hk' hone
  have hin := inBounds_alignIndex hset hi
  have hlen := (broadcastExtents_getElem h).1
  have hzs : index.length = zs.length := by rw [hi.length_eq, List.length_set]
  have hlt := hi.getD_lt_set (k := k') (by omega)
  rw [getAligned, shape_slice_of_le hb, get_slice hb hin, getAligned]
  have hl₁ : (x.shape.set k (b - a)).length ≤ index.length := by
    rw [List.length_set, hzs]
    exact hlen
  have hl₂ : x.shape.length ≤ (index.modify k' (a + ·)).length := by
    rw [List.length_modify, hzs]
    exact hlen
  refine congrArg x.get (List.ext_getElem ?_ fun q hq _ => ?_)
  · rw [List.length_modify, length_alignIndex hl₁, length_alignIndex hl₂, List.length_set]
  rw [List.length_modify, length_alignIndex hl₁, List.length_set] at hq
  refine Option.some.inj ?_
  rw [← List.getElem?_eq_getElem, ← List.getElem?_eq_getElem, List.getElem?_modify,
    alignIndex_getElem hl₂ (List.getElem?_eq_getElem hq), List.length_modify]
  have hk₁ : k < x.shape.length := by rw [rank] at hk; omega
  have hbound : q + (index.length - x.shape.length) < index.length := by omega
  rw [getD_modify hbound]
  by_cases hkq : k = q
  · subst hkq
    have hshift : k' = k + (index.length - x.shape.length) := by rw [rank] at hk; omega
    have hm : (x.shape.set k (b - a))[k]? = some (b - a) := List.getElem?_set_self hk₁
    have hx : b ≤ x.shape[k] := by
      rwa [extent, List.getD_eq_getElem?_getD, List.getElem?_eq_getElem hk₁] at hb
    rw [alignIndex_getElem hl₁ hm, List.length_set, if_pos hshift, ← hshift]
    -- an axis of extent 1 is read at 0 before and after the shift
    by_cases h₁ : b - a = 1 <;> by_cases h₂ : x.shape[k] = 1 <;>
      simp only [h₁, h₂, if_true, if_false, Option.map_eq_map, Option.map_some, Option.some.injEq] <;> omega
  · have hshift : ¬ k' = q + (index.length - x.shape.length) := by rw [rank] at hk; omega
    have hm : (x.shape.set k (b - a))[q]? = some x.shape[q] := by
      rw [List.getElem?_set_ne hkq, List.getElem?_eq_getElem hq]
    rw [alignIndex_getElem hl₁ hm, List.length_set, if_neg hshift]
    simp [hkq]

/-- The other operand is read where it was. -/
theorem getAligned_modify {y : Tensor} {xs zs : List Nat} {k' j : Nat}
    (h : broadcastExtents y.shape xs = some zs) (hk' : k' + j + 1 = zs.length)
    (hone : y.shape.reverse.getD j 1 = 1) {index : List Nat} (hi : index.length = zs.length)
    (f : Nat → Nat) : y.getAligned index = y.getAligned (index.modify k' f) := by
  have hlen := (broadcastExtents_getElem h).1
  rw [← hi] at hlen
  have hl₂ : y.shape.length ≤ (index.modify k' f).length := by rwa [List.length_modify]
  refine congrArg y.get (List.ext_getElem ?_ fun q hq _ => ?_)
  · rw [length_alignIndex hlen, length_alignIndex hl₂]
  rw [length_alignIndex hlen] at hq
  refine Option.some.inj ?_
  have hn := List.getElem?_eq_getElem hq
  rw [← List.getElem?_eq_getElem, ← List.getElem?_eq_getElem, alignIndex_getElem hlen hn,
    alignIndex_getElem hl₂ hn, List.length_modify, getD_modify (by omega)]
  by_cases hkq : k' = q + (index.length - y.shape.length)
  · have hj : y.shape.reverse.getD j 1 = y.shape[q] := by
      rw [List.getD_eq_getElem?_getD, List.getElem?_reverse (by omega)]
      rw [show y.shape.length - 1 - j = q by omega, hn]
      rfl
    rw [if_pos (hj.symm.trans hone), if_pos (hj.symm.trans hone)]
  · rw [if_neg hkq]

theorem add_eq_ok_iff {x y z : Tensor} : x.add y = .ok z ↔ ∃ zs, broadcastExtents x.shape y.shape = some zs ∧
    ofFn (x.elem.promote y.elem) zs (fun i => (x.elem.promote y.elem).add
      ((x.cast (x.elem.promote y.elem)).getAligned i) ((y.cast (x.elem.promote y.elem)).getAligned i)) = z := by
  unfold add
  cases broadcastExtents x.shape y.shape <;> simp

section

variable {x y z : Tensor} {k' j : Nat}

theorem extent_of_broadcast {ys zs : List Nat} (h : broadcastExtents x.shape ys = some zs)
    (hk : k + j + 1 = x.rank) (hk' : k' + j + 1 = zs.length) (hone : ys.reverse.getD j 1 = 1) :
    zs.getD k' 0 = x.extent k := by
  have hset := broadcastExtents_set (x.extent k) h hk hk' hone
  rw [extent, set_getD, h, Option.some.injEq] at hset
  rw [hset, getD_set (by omega), extent]

theorem getAligned_cast_slice {ys zs : List Nat} (e : ElemType) (h : broadcastExtents x.shape ys = some zs)
    (hk : k + j + 1 = x.rank) (hk' : k' + j + 1 = zs.length) (hone : ys.reverse.getD j 1 = 1)
    (hb : b ≤ x.extent k) {index : List Nat} (hi : InBounds index (zs.set k' (b - a))) :
    ((x.slice k a b).cast e).getAligned index = (x.cast e).getAligned (index.modify k' (a + ·)) := by
  have hcast := shape_cast x e
  rw [cast_slice hb (by omega)]
  refine getAligned_slice ?_ ?_ hk' hone ?_ hi
  · rwa [hcast]
  · rwa [rank, hcast]
  · rwa [extent, hcast]

theorem getAligned_cast_modify {xs zs : List Nat} (e : ElemType) (h : broadcastExtents xs y.shape = some zs)
    (hk' : k' + j + 1 = zs.length) (hone : y.shape.reverse.getD j 1 = 1) {index : List Nat} {m : Nat}
    (hi : InBounds index (zs.set k' m)) (f : Nat → Nat) :
    (y.cast e).getAligned index = (y.cast e).getAligned (index.modify k' f) := by
  have hcast := shape_cast y e
  rw [broadcastExtents_comm, ← hcast] at h
  refine getAligned_modify h hk' ?_ ?_ f
  · rwa [hcast]
  · rw [hi.length_eq, List.length_set]

/-- **A sum with a sliced operand is a slice of the sum**, if the other operand has
extent 1 along the axis or does not have it. -/
theorem add_slice_left (h : x.add y = .ok z) (hk : k + j + 1 = x.rank) (hk' : k' + j + 1 = z.rank)
    (hone : y.shape.reverse.getD j 1 = 1) (hb : b ≤ x.extent k) :
    (x.slice k a b).add y = .ok (z.slice k' a b) := by
  obtain ⟨zs, hzs, rfl⟩ := add_eq_ok_iff.1 h
  have hk'' : k' + j + 1 = zs.length := hk'
  have hbz : b ≤ zs.getD k' 0 := Nat.le_trans hb (Nat.le_of_eq (extent_of_broadcast hzs hk hk'' hone).symm)
  refine add_eq_ok_iff.2 ⟨zs.set k' (b - a), ?_, ofFn_eq_slice rfl hbz (by omega) fun index hi => ?_⟩
  · rw [shape_slice_of_le hb]
    exact broadcastExtents_set (b - a) hzs hk hk'' hone
  · rw [elem_slice, getAligned_cast_slice _ hzs hk hk'' hone hb hi,
      getAligned_cast_modify _ hzs hk'' hone hi (a + ·)]

theorem add_slice_right (h : y.add x = .ok z) (hk : k + j + 1 = x.rank) (hk' : k' + j + 1 = z.rank)
    (hone : y.shape.reverse.getD j 1 = 1) (hb : b ≤ x.extent k) :
    y.add (x.slice k a b) = .ok (z.slice k' a b) := by
  obtain ⟨zs, hzs, rfl⟩ := add_eq_ok_iff.1 h
  have hk'' : k' + j + 1 = zs.length := hk'
  have hzs' : broadcastExtents x.shape y.shape = some zs := (broadcastExtents_comm _ _).trans hzs
  have hbz : b ≤ zs.getD k' 0 := Nat.le_trans hb (Nat.le_of_eq (extent_of_broadcast hzs' hk hk'' hone).symm)
  refine add_eq_ok_iff.2 ⟨zs.set k' (b - a), ?_, ofFn_eq_slice rfl hbz (by omega) fun index hi => ?_⟩
  · rw [shape_slice_of_le hb, broadcastExtents_comm]
    exact broadcastExtents_set (b - a) hzs' hk hk'' hone
  · rw [elem_slice, getAligned_cast_slice _ hzs' hk hk'' hone hb hi,
      getAligned_cast_modify _ hzs' hk'' hone hi (a + ·)]

end

/-! ### Convolutions -/

theorem windowCount_add {j hi window stride : Nat} (hs : 0 < stride) (h : j * stride + window ≤ hi) :
    windowCount (hi - j * stride) window stride + j = windowCount hi window stride := by
  unfold windowCount
  have hsplit : hi - window = hi - j * stride - window + j * stride := by omega
  rw [hsplit, Nat.add_mul_div_right _ _ hs]
  omega

theorem windowCount_mono {m n window stride : Nat} (h : m ≤ n) :
    windowCount m window stride ≤ windowCount n window stride :=
  Nat.succ_le_succ (Nat.div_le_div_right (Nat.sub_le_sub_right h window))

section

variable {extent window stride i : Nat} (hstride : 0 < stride) (hwindow : window ≤ extent)
include hstride hwindow

/-- There is a window at a position exactly if it ends within the extent. -/
theorem lt_windowCount_iff : i < windowCount extent window stride ↔ i * stride + window ≤ extent := by
  rw [windowCount, Nat.lt_succ_iff, Nat.le_div_iff_mul_le hstride, Nat.le_sub_iff_add_le hwindow]

/-- The number of windows tells which is the last one that ends within the extent. -/
theorem windowCount_eq_iff : windowCount extent window stride = i + 1 ↔
    i * stride + window ≤ extent ∧ extent < (i + 1) * stride + window := by
  rw [← lt_windowCount_iff hstride hwindow, ← Nat.not_le (b := extent),
    ← lt_windowCount_iff (i := i + 1) hstride hwindow]
  omega

end

theorem lt_of_lt_windowCount {i p extent window stride : Nat} (hi : i < windowCount extent window stride)
    (hp : p < window) (h : window ≤ extent) : i * stride + p < extent := by
  have hle : i * stride ≤ extent - window := by
    refine Nat.le_trans (Nat.mul_le_mul_right stride (Nat.le_of_lt_succ hi)) ?_
    exact Nat.div_mul_le_self _ _
  omega

/-- Where a library sums uniformly, two elements of convolutions agree if the same pairs
meet in them. -/
theorem entry_congr {sums : Contraction} {e : ElemType} (hsums : sums.Uniform e) {x x' f : Tensor}
    {kh kw c o n n' i i' j j' g strideH strideW : Nat} (hf : f.shape = [kh, kw, c, o])
    (h : ∀ p q r, p < kh → q < kw → r < c → x'.get [n', i' * strideH + p, j' * strideW + q, r] =
      x.get [n, i * strideH + p, j * strideW + q, r]) :
    sums.entry e x' f strideH strideW [n', i', j', g] = sums.entry e x f strideH strideW [n, i, j, g] := by
  obtain ⟨sum, hsum⟩ := hsums
  rw [hsum, hsum]
  refine congrArg sum (List.map_congr_left fun k hk => ?_)
  rw [hf] at hk
  obtain ⟨p, q, r, rfl, hp, hq, hr⟩ : ∃ p q r, k = [p, q, r] ∧ p < kh ∧ q < kw ∧ r < c := by
    have hb : InBounds k [kh, kw, c] := mem_indices_iff.1 hk
    simp only [InBounds, List.forall₂_cons_right_iff, List.forall₂_nil_right_iff] at hb
    obtain ⟨p, _, hp, ⟨q, _, hq, ⟨r, _, hr, rfl, rfl⟩, rfl⟩, rfl⟩ := hb
    exact ⟨p, q, r, rfl, hp, hq, hr⟩
  exact congrArg (·, f.get [p, q, r, g]) (h p q r hp hq hr)

theorem inBounds_four {i₀ i₁ i₂ i₃ n h w c : Nat} : InBounds [i₀, i₁, i₂, i₃] [n, h, w, c] ↔
    i₀ < n ∧ i₁ < h ∧ i₂ < w ∧ i₃ < c := by
  simp [InBounds]

theorem exists_four {index : List Nat} {n h w c : Nat} (hi : InBounds index [n, h, w, c]) :
    ∃ i₀ i₁ i₂ i₃, index = [i₀, i₁, i₂, i₃] := by
  obtain _ | ⟨i₀, _ | ⟨i₁, _ | ⟨i₂, _ | ⟨i₃, _ | ⟨i₄, index⟩⟩⟩⟩⟩ := index <;> first
    | exact ⟨_, _, _, _, rfl⟩
    | exact absurd hi.length_eq (by simp)

end Tensor

theorem convolveTensors_eq_ok_iff {sums : Contraction} {strideH strideW : Nat} {x f z : Tensor} :
    convolveTensors sums strideH strideW x f = .ok z ↔ ∃ n h w c kh kw o, x.shape = [n, h, w, c] ∧
      f.shape = [kh, kw, c, o] ∧ kh ≤ h ∧ kw ≤ w ∧ 0 < strideH ∧ 0 < strideW ∧
      Tensor.ofFn (x.elem.promote f.elem)
        [n, Tensor.windowCount h kh strideH, Tensor.windowCount w kw strideW, o]
        (sums.entry (x.elem.promote f.elem) (x.cast (x.elem.promote f.elem)) (f.cast (x.elem.promote f.elem))
          strideH strideW) = z := by
  constructor
  · intro hz
    unfold convolveTensors at hz
    split at hz
    · rename_i n h w c kh kw c' o hx hf
      split at hz
      · rename_i hc
        subst hc
        have hz := ofKernel_eq_ok_iff.1 hz
        simp only [Tensor.convolve, hx, hf] at hz
        split at hz
        · cases hz
        · rename_i hfit
          cases hz
          exact ⟨n, h, w, c, kh, kw, o, hx, hf, by omega, by omega, by omega, by omega, rfl⟩
      · cases hz
    · cases hz
  · rintro ⟨n, h, w, c, kh, kw, o, hx, hf, hh, hw, hsh, hsw, rfl⟩
    have hfit : ¬ (h < kh ∨ w < kw ∨ strideH = 0 ∨ strideW = 0) := by omega
    simp only [convolveTensors, hx, hf, if_true, Tensor.convolve, if_neg hfit, ofKernel]

/-- What one library convolves, another does to a result of the same shape. -/
theorem convolveTensors_shape {sums : Contraction} {strideH strideW : Nat} {x f z : Tensor} (sums' : Contraction)
    (h : convolveTensors sums strideH strideW x f = .ok z) :
    ∃ u, convolveTensors sums' strideH strideW x f = .ok u ∧ u.shape = z.shape := by
  obtain ⟨n, hx, wx, c, kh, kw, o, hxs, hfs, hkh, hkw, hsh, hsw, rfl⟩ := convolveTensors_eq_ok_iff.1 h
  exact ⟨_, convolveTensors_eq_ok_iff.2 ⟨n, hx, wx, c, kh, kw, o, hxs, hfs, hkh, hkw, hsh, hsw, rfl⟩, rfl⟩

/-- The stride of a convolution along a spatial axis. -/
def spatialStride (strideH strideW axis : Nat) : Nat := if axis = 1 then strideH else strideW

section

variable {sums : Contraction} {strideH strideW : Nat} {x f z : Tensor}
  (hsums : sums.Uniform (x.elem.promote f.elem)) (h : convolveTensors sums strideH strideW x f = .ok z)
include hsums h

/-- **A convolution works on slices of the batch.** -/
theorem convolveTensors_slice_batch {a b : Nat} (hb : b ≤ x.extent 0) :
    convolveTensors sums strideH strideW (x.slice 0 a b) f = .ok (z.slice 0 a b) := by
  obtain ⟨n, hx, wx, c, kh, kw, o, hxs, hfs, hkh, hkw, hsh, hsw, rfl⟩ := convolveTensors_eq_ok_iff.1 h
  have hn : b ≤ n := by simpa [Tensor.extent, hxs] using hb
  have hrank : 0 < x.rank := by simp [Tensor.rank, hxs]
  refine convolveTensors_eq_ok_iff.2 ⟨b - a, hx, wx, c, kh, kw, o, ?_, hfs, hkh, hkw, hsh, hsw, ?_⟩
  · rw [Tensor.shape_slice_of_le hb, hxs]
    rfl
  refine Tensor.ofFn_eq_slice rfl hn (Nat.zero_lt_succ _) fun index hi => ?_
  obtain ⟨i₀, i₁, i₂, i₃, rfl⟩ := Tensor.exists_four hi
  obtain ⟨h₀, h₁, h₂, -⟩ := Tensor.inBounds_four.1 hi
  refine Tensor.entry_congr hsums ((Tensor.shape_cast f _).trans hfs) fun p q r hp hq hr => ?_
  refine Tensor.get_cast_slice hb hrank _ ?_
  rw [hxs]
  exact Tensor.inBounds_four.2 ⟨h₀, Tensor.lt_of_lt_windowCount h₁ hp hkh,
    Tensor.lt_of_lt_windowCount h₂ hq hkw, hr⟩

theorem convolveTensors_slice_height {j b : Nat} (hb : b ≤ x.extent 1)
    (hj : j * strideH + f.extent 0 ≤ b) : convolveTensors sums strideH strideW (x.slice 1 (j * strideH) b) f =
      .ok (z.slice 1 j (Tensor.windowCount b (f.extent 0) strideH)) := by
  obtain ⟨n, hx, wx, c, kh, kw, o, hxs, hfs, hkh, hkw, hsh, hsw, rfl⟩ := convolveTensors_eq_ok_iff.1 h
  have hfh : f.extent 0 = kh := by simp [Tensor.extent, hfs]
  have hbx : b ≤ hx := by simpa [Tensor.extent, hxs] using hb
  have hrank : 1 < x.rank := by simp [Tensor.rank, hxs]
  rw [hfh] at hj ⊢
  have hcount : Tensor.windowCount b kh strideH - j = Tensor.windowCount (b - j * strideH) kh strideH := by
    rw [← Tensor.windowCount_add hsh hj, Nat.add_sub_cancel]
  refine convolveTensors_eq_ok_iff.2 ⟨n, b - j * strideH, wx, c, kh, kw, o, ?_, hfs, by omega, hkw, hsh,
    hsw, ?_⟩
  · rw [Tensor.shape_slice_of_le hb, hxs]
    rfl
  refine Tensor.ofFn_eq_slice ?_ (Tensor.windowCount_mono hbx) (by simp) fun index hi => ?_
  · rw [hcount]
    rfl
  obtain ⟨i₀, i₁, i₂, i₃, rfl⟩ := Tensor.exists_four hi
  obtain ⟨h₀, h₁, h₂, -⟩ := Tensor.inBounds_four.1 hi
  rw [hcount] at h₁
  refine Tensor.entry_congr hsums ((Tensor.shape_cast f _).trans hfs) fun p q r hp hq hr => ?_
  refine (Tensor.get_cast_slice hb hrank _ ?_).trans ?_
  · rw [hxs]
    exact Tensor.inBounds_four.2 ⟨h₀, Tensor.lt_of_lt_windowCount h₁ hp (by omega),
      Tensor.lt_of_lt_windowCount h₂ hq hkw, hr⟩
  · show (x.cast _).get [i₀, j * strideH + (i₁ * strideH + p), i₂ * strideW + q, r] =
      (x.cast _).get [i₀, (j + i₁) * strideH + p, i₂ * strideW + q, r]
    rw [Nat.add_mul, Nat.add_assoc]
    rfl

theorem convolveTensors_slice_width {j b : Nat} (hb : b ≤ x.extent 2)
    (hj : j * strideW + f.extent 1 ≤ b) : convolveTensors sums strideH strideW (x.slice 2 (j * strideW) b) f =
      .ok (z.slice 2 j (Tensor.windowCount b (f.extent 1) strideW)) := by
  obtain ⟨n, hx, wx, c, kh, kw, o, hxs, hfs, hkh, hkw, hsh, hsw, rfl⟩ := convolveTensors_eq_ok_iff.1 h
  have hfw : f.extent 1 = kw := by simp [Tensor.extent, hfs]
  have hbx : b ≤ wx := by simpa [Tensor.extent, hxs] using hb
  have hrank : 2 < x.rank := by simp [Tensor.rank, hxs]
  rw [hfw] at hj ⊢
  have hcount : Tensor.windowCount b kw strideW - j = Tensor.windowCount (b - j * strideW) kw strideW := by
    rw [← Tensor.windowCount_add hsw hj, Nat.add_sub_cancel]
  refine convolveTensors_eq_ok_iff.2 ⟨n, hx, b - j * strideW, c, kh, kw, o, ?_, hfs, hkh, by omega, hsh,
    hsw, ?_⟩
  · rw [Tensor.shape_slice_of_le hb, hxs]
    rfl
  refine Tensor.ofFn_eq_slice ?_ (Tensor.windowCount_mono hbx) (by simp) fun index hi => ?_
  · rw [hcount]
    rfl
  obtain ⟨i₀, i₁, i₂, i₃, rfl⟩ := Tensor.exists_four hi
  obtain ⟨h₀, h₁, h₂, -⟩ := Tensor.inBounds_four.1 hi
  rw [hcount] at h₂
  refine Tensor.entry_congr hsums ((Tensor.shape_cast f _).trans hfs) fun p q r hp hq hr => ?_
  refine (Tensor.get_cast_slice hb hrank _ ?_).trans ?_
  · rw [hxs]
    exact Tensor.inBounds_four.2 ⟨h₀, Tensor.lt_of_lt_windowCount h₁ hp hkh,
      Tensor.lt_of_lt_windowCount h₂ hq (by omega), hr⟩
  · show (x.cast _).get [i₀, i₁ * strideH + p, j * strideW + (i₂ * strideW + q), r] =
      (x.cast _).get [i₀, i₁ * strideH + p, (j + i₂) * strideW + q, r]
    rw [Nat.add_mul, Nat.add_assoc]
    rfl

/-- **A convolution works on slices along a spatial axis** that cover the windows. -/
theorem convolveTensors_slice_spatial {axis j b : Nat} (hax : axis = 1 ∨ axis = 2) (hb : b ≤ x.extent axis)
    (hj : j * spatialStride strideH strideW axis + f.extent (axis - 1) ≤ b) :
    convolveTensors sums strideH strideW (x.slice axis (j * spatialStride strideH strideW axis) b) f =
      .ok (z.slice axis j
        (Tensor.windowCount b (f.extent (axis - 1)) (spatialStride strideH strideW axis))) := by
  rcases hax with rfl | rfl
  · exact convolveTensors_slice_height hsums h hb hj
  · exact convolveTensors_slice_width hsums h hb hj

end

end EdgeFacts
