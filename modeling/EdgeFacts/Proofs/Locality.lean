/-
# Convolutions are local

The windows of a convolution from one position up to another see the data along a
spatial axis from where the first of them begins to where the last one ends. The
convolution of these data alone is that part of the whole convolution. Longer data that
begin there give the same windows as long as they end before another window does
(`convolveTensors_slice_of_ends`), and no other data that begin there do
(`convolveTensors_slice_iff`). Along the batch axis each image is convolved by itself
(`convolveTensors_images`). This is why a stream can drop what comes before the next
window and convolve what it has kept.

Key theorems: `convolveTensors_slice_of_ends`, `convolveTensors_slice_iff`,
`convolveTensors_images`, `Operator.convolution_local`.
-/
import EdgeFacts.Proofs.Streaming

namespace EdgeFacts

namespace Tensor

theorem slice_min (t : Tensor) (k a b : Nat) : t.slice k a (min b (t.extent k)) = t.slice k a b := by
  simp only [slice, Nat.min_assoc, Nat.min_self]

end Tensor

section

variable {sums : Contraction} {strideH strideW : Nat} {x f z : Tensor}
  (h : convolveTensors sums strideH strideW x f = .ok z)
include h

theorem extent_batch_of_convolveTensors : z.extent 0 = x.extent 0 := by
  obtain ⟨n, hx, wx, c, kh, kw, o, hxs, -, -, -, -, -, rfl⟩ := convolveTensors_eq_ok_iff.1 h
  rw [Tensor.extent, Tensor.extent, hxs]
  rfl

/-- What every library that sums uniformly makes a slice of the result, any library makes a
tensor of the slice's shape. -/
theorem exists_part {part : Tensor} {k a b : Nat}
    (hpart : ∀ {sums' : Contraction} {u : Tensor}, sums'.Uniform (x.elem.promote f.elem) →
      convolveTensors sums' strideH strideW x f = .ok u → u.shape = z.shape →
      convolveTensors sums' strideH strideW part f = .ok (u.slice k a b)) :
    ∃ w, convolveTensors sums strideH strideW part f = .ok w ∧ w.shape = (z.slice k a b).shape ∧
      (sums.Uniform (x.elem.promote f.elem) → w = z.slice k a b) := by
  obtain ⟨u, hu, hshape⟩ := convolveTensors_shape .sequential h
  obtain ⟨w, hw, hwshape⟩ := convolveTensors_shape sums (hpart (Contraction.sequential_uniform _) hu hshape)
  refine ⟨w, hw, ?_, fun hsums => Except.ok.inj (hw.symm.trans (hpart hsums h rfl))⟩
  rw [hwshape, Tensor.shape_slice, Tensor.shape_slice, Tensor.extent, Tensor.extent, hshape]

/-- **Each image of a batch is convolved by itself**; a slice may end beyond the batch. -/
theorem convolveTensors_images (hsums : sums.Uniform (x.elem.promote f.elem)) (a b : Nat) :
    convolveTensors sums strideH strideW (x.slice 0 a b) f = .ok (z.slice 0 a b) := by
  rw [← x.slice_min 0 a b, ← z.slice_min 0 a b, extent_batch_of_convolveTensors h]
  exact convolveTensors_slice_batch hsums h (Nat.min_le_right b _)

variable {axis a b r : Nat} (hax : axis = 1 ∨ axis = 2) (hab : a < b) (hb : b ≤ z.extent axis)
include hax hab hb

theorem lastWindow_le :
    (b - 1) * spatialStride strideH strideW axis + f.extent (axis - 1) ≤ x.extent axis := by
  obtain ⟨-, -, -, hstride, hwindow, hcount⟩ := convolveTensors_spatial h hax
  refine (Tensor.lt_windowCount_iff hstride hwindow).1 ?_
  omega

variable (hsums : sums.Uniform (x.elem.promote f.elem)) (hr : r ≤ x.extent axis)
include hsums hr

/-- Data from where the first window of a range begins give the windows of the range, if
they end no sooner than the last of these, and before another one does. -/
theorem convolveTensors_slice_of_ends
    (hlow : (b - 1) * spatialStride strideH strideW axis + f.extent (axis - 1) ≤ r)
    (hhigh : r < b * spatialStride strideH strideW axis + f.extent (axis - 1)) :
    convolveTensors sums strideH strideW (x.slice axis (a * spatialStride strideH strideW axis) r) f =
      .ok (z.slice axis a b) := by
  obtain ⟨last, rfl⟩ : ∃ last, b = last + 1 := ⟨b - 1, by omega⟩
  rw [Nat.add_sub_cancel] at hlow
  have hstride := (convolveTensors_spatial h hax).2.2.2.1
  have hbegin : a * spatialStride strideH strideW axis ≤ last * spatialStride strideH strideW axis :=
    Nat.mul_le_mul_right _ (Nat.le_of_lt_succ hab)
  have hcount := (Tensor.windowCount_eq_iff hstride (by omega)).2 ⟨hlow, hhigh⟩
  have hslice := convolveTensors_slice_spatial (j := a) hsums h hax hr (by omega)
  rwa [hcount] at hslice

/-- **Exactly these data give the windows of a range**: from where the first of them begins
to where the last one ends, and to before another one does. -/
theorem convolveTensors_slice_iff (hfilter : 0 < f.extent (axis - 1)) :
    convolveTensors sums strideH strideW (x.slice axis (a * spatialStride strideH strideW axis) r) f =
        .ok (z.slice axis a b) ↔
      (b - 1) * spatialStride strideH strideW axis + f.extent (axis - 1) ≤ r ∧
        r < b * spatialStride strideH strideW axis + f.extent (axis - 1) := by
  refine ⟨fun hslice => ?_, fun ⟨hlow, hhigh⟩ => convolveTensors_slice_of_ends h hax hab hb hsums hr hlow hhigh⟩
  obtain ⟨hx, -, hz, hstride, -, hcount⟩ := convolveTensors_spatial h hax
  have hcover : a * spatialStride strideH strideW axis + f.extent (axis - 1) ≤ r := by
    have hwindow := (convolveTensors_spatial hslice hax).2.2.2.2.1
    rw [Tensor.extent_slice hr hx] at hwindow
    omega
  have hwindows : Tensor.windowCount r (f.extent (axis - 1)) (spatialStride strideH strideW axis) = b := by
    have heq := Except.ok.inj ((convolveTensors_slice_spatial hsums h hax hr hcover).symm.trans hslice)
    have hext := congrArg (fun t : Tensor => t.extent axis) heq
    have hle : Tensor.windowCount r (f.extent (axis - 1)) (spatialStride strideH strideW axis) ≤ z.extent axis :=
      hcount ▸ Tensor.windowCount_mono hr
    simp only [Tensor.extent_slice hb hz, Tensor.extent_slice hle hz] at hext
    omega
  obtain ⟨last, rfl⟩ : ∃ last, b = last + 1 := ⟨b - 1, by omega⟩
  exact (Tensor.windowCount_eq_iff hstride (by omega)).1 hwindows

end

namespace Operator

/-- **A convolution is local.** Take data and a filter that are convolved. Along a spatial
axis, the results from one position up to another are what the operator computes
of the data from where the first of their windows begins to where the last one ends; if
the filter has positions along the axis, data that begin there give these results exactly
if they end there or later, but before another window does. Along the batch axis, any
slice of the data gives the same slice of the result. Whatever the library, the shapes are
the same; the elements are where it sums uniformly, as it does in any type but floats. -/
theorem convolution_local {sums : Contraction} {strideH strideW : Nat} {x f z : Tensor}
    (h : (convolution sums strideH strideW).eval [x, f] = .ok z) :
    (∀ axis, axis = 1 ∨ axis = 2 → ∀ a b, a < b → b ≤ z.extent axis →
      (b - 1) * spatialStride strideH strideW axis + f.extent (axis - 1) ≤ x.extent axis ∧
      (∃ w, (convolution sums strideH strideW).eval [x.slice axis (a * spatialStride strideH strideW axis)
          ((b - 1) * spatialStride strideH strideW axis + f.extent (axis - 1)), f] = .ok w ∧
        w.shape = (z.slice axis a b).shape ∧ (sums.Uniform (x.elem.promote f.elem) → w = z.slice axis a b)) ∧
      (sums.Uniform (x.elem.promote f.elem) → 0 < f.extent (axis - 1) → ∀ r ≤ x.extent axis,
        ((convolution sums strideH strideW).eval [x.slice axis (a * spatialStride strideH strideW axis) r, f] =
            .ok (z.slice axis a b) ↔
          (b - 1) * spatialStride strideH strideW axis + f.extent (axis - 1) ≤ r ∧
            r < b * spatialStride strideH strideW axis + f.extent (axis - 1)))) ∧
    z.extent 0 = x.extent 0 ∧
    ∀ a b, ∃ w, (convolution sums strideH strideW).eval [x.slice 0 a b, f] = .ok w ∧
      w.shape = (z.slice 0 a b).shape ∧ (sums.Uniform (x.elem.promote f.elem) → w = z.slice 0 a b) := by
  refine ⟨fun axis hax a b hab hb => ?_, extent_batch_of_convolveTensors h, fun a b => ?_⟩
  · have hends := lastWindow_le h hax hab hb
    have hstride := (convolveTensors_spatial h hax).2.2.2.1
    have hlater := Nat.mul_lt_mul_of_pos_right (show b - 1 < b by omega) hstride
    refine ⟨hends, exists_part h fun hsums hu hshape => ?_, fun hsums hfilter r hr =>
      convolveTensors_slice_iff h hax hab hb hsums hr hfilter⟩
    have hbu := Nat.le_trans hb (Nat.le_of_eq (congrArg (List.getD · axis 0) hshape.symm))
    exact convolveTensors_slice_of_ends hu hax hab hbu hsums hends (Nat.le_refl _) (by omega)
  · exact exists_part h fun hsums hu _ => convolveTensors_images hu hsums a b

end Operator

/-- Five integers have two sums of neighbours that are two apart. The second is that of the
third and the fourth integer, with or without the fifth, but not without the fourth. -/
theorem column_local :
    (Operator.convolution .sequential 2 1).eval [column [1, 2, 3, 4, 5], pairFilter] = .ok (column [3, 7]) ∧
    (Operator.convolution .sequential 2 1).eval [(column [1, 2, 3, 4, 5]).slice 1 2 4, pairFilter] =
      .ok ((column [3, 7]).slice 1 1 2) ∧
    (Operator.convolution .sequential 2 1).eval [(column [1, 2, 3, 4, 5]).slice 1 2 5, pairFilter] =
      .ok ((column [3, 7]).slice 1 1 2) ∧
    (Operator.convolution .sequential 2 1).eval [(column [1, 2, 3, 4, 5]).slice 1 2 3, pairFilter] ≠
      .ok ((column [3, 7]).slice 1 1 2) ∧
    (Operator.convolution .sequential 2 1).eval [(column [1, 2, 3, 4, 5]).slice 0 0 1, pairFilter] =
      .ok ((column [3, 7]).slice 0 0 1) := by
  have heval : (Operator.convolution .sequential 2 1).eval [column [1, 2, 3, 4, 5], pairFilter] =
      .ok (column [3, 7]) := rfl
  have hsums : Contraction.sequential.Uniform (.int .w64) := Contraction.sequential_uniform _
  obtain ⟨hspatial, -, hbatch⟩ := Operator.convolution_local heval
  obtain ⟨-, ⟨w, hsecond, -, hw⟩, hexactly⟩ := hspatial 1 (.inl rfl) 1 2 (by decide) (by decide)
  obtain ⟨v, hfirst, -, hv⟩ := hbatch 0 1
  obtain rfl := hw hsums
  obtain rfl := hv hsums
  have hends := hexactly hsums (by decide)
  refine ⟨heval, hsecond, (hends 5 (by decide)).2 (by decide), fun hshort => ?_, hfirst⟩
  have hcovered := ((hends 3 (by decide)).1 hshort).1
  exact absurd hcovered (by decide)

end EdgeFacts
