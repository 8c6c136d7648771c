/-
# Shapes of streamed tensors

The fact about a tensor that is streamed knows all extents but the one along the
streamed axis (`ShapeFact.along`). From such a fact about one input and known
shapes of the others an operator infers such a fact about its output: a sum
keeps the axis aligned at its end, a transposition permutes it, a convolution
keeps the batch and the spatial axes and refuses the channels.

Key definitions: `ShapeFact.along`.
Key theorems: `ShapeFact.Refines.eq_along`, `broadcastShapes_along`,
`refineTranspose_along`, `refineConvolution_along`.
-/
import EdgeFacts.Proofs.Admits
import EdgeFacts.Proofs.Chunk
import EdgeFacts.Proofs.Rules

namespace EdgeFacts

namespace ShapeFact

/-- The dimensions of a tensor that is streamed along an axis, or not at all. -/
def streamDims (extents : List Nat) : Option Nat → List DimFact
  | none => extents.map .known
  | some k => (extents.map .known).set k .streamed

/-- The fact about the shape of a tensor that is streamed along an axis, or not at all. -/
def along (extents : List Nat) (axis : Option Nat) : ShapeFact := .closed (streamDims extents axis)

variable {extents : List Nat}

theorem length_streamDims (axis : Option Nat) : (streamDims extents axis).length = extents.length := by
  cases axis <;> simp [streamDims]

theorem ne_any_of_mem_streamDims {axis : Option Nat} {d : DimFact} (h : d ∈ streamDims extents axis) :
    d ≠ .any := by
  cases axis with
  | none =>
    obtain ⟨n, -, rfl⟩ := List.mem_map.1 h
    exact fun h => nomatch h
  | some k =>
    rcases List.mem_or_eq_of_mem_set h with h | rfl
    · obtain ⟨n, -, rfl⟩ := List.mem_map.1 h
      exact fun h => nomatch h
    · exact fun h => nomatch h

theorem Refines.eq_along {s : ShapeFact} {axis : Option Nat} (h : s.Refines (along extents axis)) :
    s = along extents axis :=
  h.eq_of_ne_any fun _ => ne_any_of_mem_streamDims

theorem streamedAxis?_along {k : Nat} (hk : k < extents.length) :
    (along extents (some k)).streamedAxis? = some k := by
  refine List.findIdx?_eq_some_iff_getElem.2 ⟨?_, ?_, fun j hj => ?_⟩
  · rwa [along, closed, length_streamDims]
  · simp [along, closed, streamDims]
  · simp [along, closed, streamDims, List.getElem_set_ne (Nat.ne_of_gt hj)]

theorem streamedAxis?_ofExtents : (ofExtents extents).streamedAxis? = none := by
  simp [streamedAxis?, ofExtents, closed, List.findIdx?_eq_none_iff]

theorem rank?_along (axis : Option Nat) : (along extents axis).rank? = some extents.length := by
  rw [rank?, along, closed, length_streamDims]
  rfl

end ShapeFact

open ShapeFact (along streamDims)

/-! ### Element-wise operators -/

theorem refineElementwise_shape {op : Operator} {invertible : Bool} {x f out : TensorFact}
    {ins : List TensorFact} (h : refineElementwise op invertible x f = .ok (ins, some out)) :
    out.shape.Refines x.shape := by
  obtain ⟨m, hm, -, hout, -⟩ := refineElementwise_eq_ok h
  rw [hout]
  exact (TensorFact.isMeet.lower hm).1.shape

/-! ### Additions -/

theorem broadcastDim_comm {a b c : DimFact} (h : broadcastDim a b = .ok c) : broadcastDim b a = .ok c := by
  unfold broadcastDim at h ⊢
  cases a <;> cases b <;> grind

theorem broadcastDims_comm : ∀ {as bs cs : List DimFact}, broadcastDims as bs = .ok cs →
    broadcastDims bs as = .ok cs
  | [], [], cs, h => h
  | [], _ :: _, cs, h => h
  | _ :: _, [], cs, h => h
  | a :: as, b :: bs, cs, h => by
    simp only [broadcastDims, bind_eq_ok_iff, pure_eq_ok] at h ⊢
    obtain ⟨d, hd, rest, hrest, h⟩ := h
    exact ⟨d, broadcastDim_comm hd, rest, broadcastDims_comm hrest, h⟩

theorem broadcastShapes_comm {a b c : ShapeFact} (h : broadcastShapes a b = .ok c) :
    broadcastShapes b a = .ok c := by
  unfold broadcastShapes at h ⊢
  rw [Bool.or_comm] at h
  split at h
  · rename_i hopen
    rw [if_pos hopen]
    exact h
  · rename_i hopen
    rw [if_neg hopen]
    simp only [bind_eq_ok_iff] at h ⊢
    obtain ⟨dims, hdims, h⟩ := h
    exact ⟨dims, broadcastDims_comm hdims, h⟩

/-- The streamed dimension broadcasts with extent 1 only. -/
theorem broadcastDims_streamed : ∀ {as bs cs : List Nat} {ds : List DimFact} {j : Nat},
    broadcastReversed? as bs = some cs → j < as.length →
    broadcastDims ((as.map .known).set j .streamed) (bs.map .known) = .ok ds →
    bs.getD j 1 = 1 ∧ ds = (cs.map .known).set j .streamed
  | a :: as, [], cs, ds, j, h, _, hd => by
    cases h
    cases j <;> (cases hd; exact ⟨rfl, rfl⟩)
  | a :: as, b :: bs, cs, ds, j, h, hj, hd => by
    simp only [broadcastReversed?] at h
    split at h
    · rename_i n rest hn hrest
      cases h
      cases j with
      | zero =>
        simp only [List.map_cons, List.set_cons_zero, broadcastDims, bind_eq_ok_iff, pure_eq_ok] at hd
        obtain ⟨d, hd, ds, hds, heq⟩ := hd
        cases heq
        cases hds.symm.trans (broadcastDims_known hrest)
        by_cases hb : b = 1
        · subst hb
          cases hd
          exact ⟨rfl, rfl⟩
        · simp [broadcastDim, hb] at hd
      | succ j =>
        simp only [List.map_cons, List.set_cons_succ, broadcastDims, bind_eq_ok_iff, pure_eq_ok] at hd
        obtain ⟨d, hd, ds, hds, heq⟩ := hd
        cases heq
        cases hd.symm.trans (broadcastDim_known hn)
        obtain ⟨hone, rfl⟩ := broadcastDims_streamed hrest (Nat.lt_of_succ_lt_succ hj) hds
        exact ⟨hone, rfl⟩
    · cases h

theorem reverse_streamDims {extents : List Nat} {k j : Nat} (hk : k + j + 1 = extents.length) :
    (streamDims extents (some k)).reverse = (extents.reverse.map .known).set j .streamed := by
  rw [streamDims, Tensor.reverse_set _ (by rwa [List.length_map]), List.map_reverse]

/-- The sum of a streamed tensor and a whole one is streamed along the axis that is
aligned with that of the operand. -/
theorem broadcastShapes_along {xs ys zs : List Nat} {k j : Nat} {s : ShapeFact}
    (h : broadcastExtents xs ys = some zs) (hk : k + j + 1 = xs.length)
    (hs : broadcastShapes (along xs (some k)) (along ys none) = .ok s) :
    ys.reverse.getD j 1 = 1 ∧ ∃ k', k' + j + 1 = zs.length ∧ s = along zs (some k') := by
  obtain ⟨cs, hcs, rfl⟩ := Option.map_eq_some_iff.1 h
  have hj : j < xs.reverse.length := by
    rw [List.length_reverse]
    omega
  have hlen := (Tensor.broadcastReversed?_getElem hcs).1
  simp only [broadcastShapes, along, ShapeFact.closed, Bool.or_self, Bool.false_eq_true, if_false,
    bind_eq_ok_iff, pure_eq_ok] at hs
  obtain ⟨ds, hds, heq⟩ := hs
  cases heq
  have hys : (streamDims ys none).reverse = ys.reverse.map .known := List.map_reverse.symm
  rw [reverse_streamDims hk, hys] at hds
  obtain ⟨hone, rfl⟩ := broadcastDims_streamed hcs hj hds
  refine ⟨hone, cs.length - 1 - j, ?_, ?_⟩
  · rw [List.length_reverse]
    omega
  · have hrev : (cs.length - 1 - j) + j + 1 = cs.reverse.length := by
      rw [List.length_reverse]
      omega
    have heq := reverse_streamDims hrev
    rw [List.reverse_reverse] at heq
    rw [along, ← heq, List.reverse_reverse]
    rfl

theorem refineAdd_shape {a b f out : TensorFact} {ins : List TensorFact}
    (h : refineAdd a b f = .ok (ins, some out)) :
    ∃ s, broadcastShapes a.shape b.shape = .ok s ∧ out.shape.Refines s := by
  obtain ⟨_, s, -, -, hs, hshape, -, -⟩ := refineAdd_eq_ok h
  exact ⟨s, hs, (ShapeFact.isMeet.lower hshape).1⟩

/-! ### Transpositions -/

theorem map_getD_streamDims {axes extents : List Nat} {axis : Option Nat} (hn : axes.Nodup)
    (hlt : ∀ p ∈ axes, p < extents.length) (hk : ∀ k, axis = some k → k < extents.length) :
    (axes.map fun p => (streamDims extents axis).getD p .any) =
      streamDims (axes.map fun p => extents.getD p 0) (axis.map axes.idxOf) := by
  have hknown : (axes.map fun p => (extents.map DimFact.known).getD p .any) =
      (axes.map fun p => extents.getD p 0).map .known := by
    rw [List.map_map]
    refine List.map_congr_left fun p hp => ?_
    simp [hlt p hp]
  cases axis with
  | none => exact hknown
  | some k =>
    rw [Option.map_some, streamDims, streamDims, ← hknown]
    refine List.ext_getElem (by simp) fun j hj _ => ?_
    have hja : j < axes.length := by simpa using hj
    have hpj := hlt _ (List.getElem_mem hja)
    rw [List.getElem_map, List.getElem_set, List.getElem_map, List.getD_eq_getElem?_getD, List.getElem?_set]
    by_cases hkj : k = axes[j]
    · have hidx : axes.idxOf k = j := by rw [hkj, hn.idxOf_getElem j hja]
      rw [if_pos hkj, if_pos hidx, List.length_map, if_pos (hk k rfl)]
      rfl
    · have hidx : axes.idxOf k ≠ j := by
        rintro rfl
        exact hkj (List.getElem_idxOf hja).symm
      rw [if_neg hkj, if_neg hidx, List.getD_eq_getElem?_getD]

/-- A transposition infers that its output is streamed along the permuted axis. -/
theorem refineTranspose_along {perm : Option (List AxisEntry)}
    (hop : (Operator.transpose perm).IsLibrary) {x : Tensor} {axis : Option Nat} {entries : List AxisEntry}
    {axes : List Nat} {fx f out : TensorFact} {ins : List TensorFact} (hfx : fx.shape = along x.shape axis)
    (hk : ∀ k, axis = some k → k < x.rank) (hperm : permFor perm x.rank = .ok entries)
    (haxes : entries.mapM AxisEntry.axis? = some axes)
    (h : refineTranspose perm fx f = .ok (ins, some out)) :
    out.shape = along (x.permute axes).shape (axis.map axes.idxOf) := by
  have hpos := positions_of_axes haxes
  rw [mapM_eq_some_iff] at haxes
  have hp := permFor_perm hop hperm (mapM_eq_some_iff.2 (haxes.imp fun _ _ => position?_of_axis?))
  obtain ⟨before, -, hs, -, -⟩ := refineTranspose_eq_ok h
  have hrank : transposedRank? perm fx.shape f.shape = some x.rank := by
    rw [transposedRank?, hfx, ShapeFact.rank?_along]
    rfl
  simp only [refineTransposedShapes, hrank, bind_eq_ok_iff, pure_eq_ok, hperm, Except.ok.injEq,
    exists_eq_left'] at hs
  obtain ⟨x₁, hx₁, y₁, -, axes', haxes', y₂, hy₂, x₂, -, hs⟩ := hs
  cases hs
  cases hpos.symm.trans haxes'
  have hx : x₁ = along x.shape axis := by
    refine ShapeFact.Refines.eq_along ?_
    rw [← hfx]
    exact (ShapeFact.isMeet.lower hx₁).1
  have hy := (ShapeFact.isMeet.lower hy₂).2
  subst hx
  have hdims : (along x.shape axis).dims = streamDims x.shape axis := rfl
  rw [hdims, map_getD_streamDims (hp.nodup_iff.2 List.nodup_range)
    (fun p hpa => List.mem_range.1 (hp.mem_iff.1 hpa)) hk] at hy
  exact hy.eq_along

/-! ### Convolutions -/

theorem fourDims_along {n h w c : Nat} {axis : Option Nat} {d : DimFact × DimFact × DimFact × DimFact}
    (hd : fourDims (along [n, h, w, c] axis) = .ok d) :
    [d.1, d.2.1, d.2.2.1, d.2.2.2] = streamDims [n, h, w, c] axis := by
  simp only [fourDims, bind_eq_ok_iff] at hd
  obtain ⟨s, hs, hd⟩ := hd
  have hsr := (ShapeFact.isMeet.lower hs).1.eq_along
  subst hsr
  obtain ⟨a, b, e, g, hdims⟩ : ∃ a b e g, streamDims [n, h, w, c] axis = [a, b, e, g] := by
    have hlen : (streamDims [n, h, w, c] axis).length = 4 := ShapeFact.length_streamDims axis
    match streamDims [n, h, w, c] axis, hlen with
    | [a, b, e, g], _ => exact ⟨a, b, e, g, rfl⟩
  simp only [along, ShapeFact.closed, hdims, pure_eq_ok, Except.ok.injEq] at hd
  rw [hdims, ← hd]

/-- A convolution of streamed data with a whole filter infers that its output is
streamed along the same axis, which is not that of the channels. -/
theorem refineConvolution_along {sums : Contraction} {strideH strideW : Nat} {x k t : Tensor} {axis : Option Nat}
    {fx fk f out : TensorFact} {ins : List TensorFact} (hfx : fx.shape = along x.shape axis)
    (hfk : fk.shape = .ofExtents k.shape) (haxis : ∀ j, axis = some j → j < x.rank)
    (ht : convolveTensors sums strideH strideW x k = .ok t)
    (h : refineConvolution sums strideH strideW fx fk f = .ok (ins, some out)) :
    axis ≠ some 3 ∧ out.shape = along t.shape axis := by
  obtain ⟨n, hx, wx, c, hk, wk, o, hxs, hks, hh, hw, hsh, hsw, -, -, hts⟩ := convolveTensors_eq_ok ht
  obtain ⟨_, _, _, -, -, hshapes, -, -⟩ := refineConvolution_eq_ok h
  obtain ⟨xn, xh, xw, xc, kh, kw, kc, ko, _, yh, yw, yo, batch, channels, features, h₁, height, w₁, width,
    hdx, hdk, -, hb, hc, hf, hh₁, hheight, hw₁, hwidth, -, -, hshape⟩ := hshapes
  rw [hfk, hks, fourDims_ofExtents] at hdk
  cases hdk
  rw [hfx, hxs] at hdx
  have hdims : [xn, xh, xw, xc] = streamDims [n, hx, wx, c] axis := fourDims_along hdx
  have hchannels := DimFact.isMeet.lower hc
  have hle : List.Forall₂ DimFact.Refines [batch, height, width, features] [xn, h₁, w₁, .known o] :=
    .cons (DimFact.isMeet.lower hb).1 (.cons (DimFact.isMeet.lower hheight).1
      (.cons (DimFact.isMeet.lower hwidth).1 (.cons (DimFact.isMeet.lower hf).1 .nil)))
  rw [Tensor.rank, hxs] at haxis
  suffices hout : axis ≠ some 3 ∧ [xn, h₁, w₁, .known o] =
      streamDims [n, Tensor.windowCount hx hk strideH, Tensor.windowCount wx wk strideW, o] axis by
    rw [hout.2] at hle
    rw [hts, hshape]
    exact ⟨hout.1, (ShapeFact.closed_refines_closed_iff.2 hle).eq_along⟩
  rcases axis with _ | _ | _ | _ | _ | j
  · cases hdims
    cases hh₁.symm.trans (convolvedDim_known hh hsh)
    cases hw₁.symm.trans (convolvedDim_known hw hsw)
    exact ⟨by decide, rfl⟩
  · cases hdims
    cases hh₁.symm.trans (convolvedDim_known hh hsh)
    cases hw₁.symm.trans (convolvedDim_known hw hsw)
    exact ⟨by decide, rfl⟩
  · cases hdims
    cases hh₁
    cases hw₁.symm.trans (convolvedDim_known hw hsw)
    exact ⟨by decide, rfl⟩
  · cases hdims
    cases hh₁.symm.trans (convolvedDim_known hh hsh)
    cases hw₁
    exact ⟨by decide, rfl⟩
  · cases hdims
    rcases hchannels with ⟨hdata | hdata, hfilter | hfilter⟩ <;> cases hdata <;> cases hfilter
  · exact absurd (haxis _ rfl) (by simp)

end EdgeFacts
