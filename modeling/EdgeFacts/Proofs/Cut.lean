/-
# Convolutions of data cut into chunks

Data for a convolution may be cut along a spatial axis into chunks of any extents
(`Tensor.pieces`), and chunks may be missing. `feed` gives them to the convolution one after
the other and collects what it emits. A chunk is skipped as a whole and counts as one position
then, and a chunk that completes several windows has all of them emitted, while only
the first is dropped. So the windows come out right if the chunks keep in step with
them (`InStep`): chunks that are skipped have extent 1, unless no window is to
come, and only the last chunk completes several windows. Then what is emitted is, put
together, the convolution of all data (`feed_pieces`). Unit slices are always in step, so
the convolution of every prefix comes out as it is reached (`feed_prefixes`).

How results are cut does not depend on the library that sums the products (`feed_shapes`).
That they agree with the convolution to the last bit does, and is said of libraries that
sum uniformly.

Key definitions: `FitsAcross`, `feed`, `InStep`.
Key theorems: `feed_shapes`, `feed_steps`, `feed_prefixes`, `feed_pieces`, `column_out_of_step`.
-/
import Mathlib.Data.List.ReduceOption
import EdgeFacts.Proofs.Streaming

namespace EdgeFacts

namespace Tensor

theorem toList_chunk? (t : Tensor) (k : Nat) {r r' : Nat} (h : r ≤ r') :
    ∃ ns, (t.chunk? k r r').toList = t.pieces k r ns ∧ r + ns.sum = r' ∧ (r' ≤ r + 1 → ∀ n ∈ ns, n = 1) := by
  rcases Nat.lt_or_eq_of_le h with hlt | rfl
  · refine ⟨[r' - r], ?_, ?_, ?_⟩
    · rw [chunk?, if_pos hlt, pieces, Nat.add_sub_cancel' h]
      rfl
    · simp only [List.sum_singleton]
      omega
    · simp only [List.mem_singleton, forall_eq]
      omega
  · refine ⟨[], ?_, rfl, by simp⟩
    rw [chunk?, if_neg (Nat.lt_irrefl r)]
    rfl

end Tensor

/-! ### Filters that fit -/

/-- Whether a filter fits the data of a convolution in all but the given spatial axis. -/
structure FitsAcross (x f : Tensor) (axis : Nat) : Prop where
  rank : x.rank = 4
  filterRank : f.rank = 4
  channels : x.extent 3 = f.extent 2
  across : f.extent (2 - axis) ≤ x.extent (3 - axis)

namespace FitsAcross

variable {x f : Tensor} {axis : Nat} (h : FitsAcross x f axis)
include h

theorem axis_lt (hax : axis = 1 ∨ axis = 2) : axis < x.rank ∧ axis ≤ f.rank := by
  have := h.rank
  have := h.filterRank
  omega

theorem slice (hax : axis = 1 ∨ axis = 2) {a b : Nat} : FitsAcross (x.slice axis a b) f axis := by
  have hne {k : Nat} (hk : axis ≠ k) : (x.slice axis a b).extent k = x.extent k := by
    rw [Tensor.extent, Tensor.shape_slice, List.getD_eq_getElem?_getD, List.getElem?_set_ne hk,
      ← List.getD_eq_getElem?_getD, ← Tensor.extent]
  refine ⟨List.length_set.trans h.rank, h.filterRank, ?_, ?_⟩
  · rw [hne (by omega)]
    exact h.channels
  · rw [hne (by omega)]
    exact h.across

theorem exists_shapes : ∃ n h w c kh kw o, x.shape = [n, h, w, c] ∧ f.shape = [kh, kw, c, o] := by
  obtain ⟨hx, hf, hc, -⟩ := h
  obtain ⟨n, h, w, c, hxs⟩ := List.length_eq_four.1 hx
  obtain ⟨kh, kw, c', o, hfs⟩ := List.length_eq_four.1 hf
  obtain rfl : c = c' := by simpa [Tensor.extent, hxs, hfs] using hc
  exact ⟨n, h, w, c, kh, kw, o, hxs, hfs⟩

variable {sums : Contraction} {strideH strideW : Nat} (hax : axis = 1 ∨ axis = 2)
include hax

theorem exists_convolved (hstride : 0 < strideH ∧ 0 < strideW) (hle : f.extent (axis - 1) ≤ x.extent axis) :
    ∃ z, convolveTensors sums strideH strideW x f = .ok z := by
  obtain ⟨n, hx, wx, c, kh, kw, o, hxs, hfs⟩ := h.exists_shapes
  have hacross := h.across
  have hfit : kh ≤ hx ∧ kw ≤ wx := by
    rcases hax with rfl | rfl <;> simp [Tensor.extent, hxs, hfs] at hacross hle <;> omega
  exact ⟨_, convolveTensors_eq_ok_iff.2
    ⟨n, hx, wx, c, kh, kw, o, hxs, hfs, hfit.1, hfit.2, hstride.1, hstride.2, rfl⟩⟩

theorem not_convolved (hlt : x.extent axis < f.extent (axis - 1)) :
    convolveTensors sums strideH strideW x f = .error (.primitive .mismatch) := by
  obtain ⟨n, hx, wx, c, kh, kw, o, hxs, hfs⟩ := h.exists_shapes
  have hfit : hx < kh ∨ wx < kw ∨ strideH = 0 ∨ strideW = 0 := by
    rcases hax with rfl | rfl <;> simp [Tensor.extent, hxs, hfs] at hlt <;> omega
  simp only [convolveTensors, hxs, hfs, if_true, Tensor.convolve, if_pos hfit, ofKernel]

end FitsAcross

/-! ### Feeding -/

/-- Feeds chunks of its data along an axis to an operator with a whole filter, one after
the other, and collects what it emits. -/
def feed (op : Operator) (axis : Nat) (filter : Tensor) :
    List (Option Tensor) → Option StreamBuffer → Except Failure (List Tensor) × Option StreamBuffer
  | [], s => (.ok [], s)
  | chunk :: chunks, s =>
    match op.step [⟨some axis, chunk⟩, ⟨none, some filter⟩] s with
    | (.error e, s) => (.error e, s)
    | (.ok result, s) => ((result.toList ++ ·) <$> (feed op axis filter chunks s).1, (feed op axis filter chunks s).2)

variable {sums : Contraction} {strideH strideW axis : Nat} {x f z : Tensor}

theorem feed_cons (hax : axis = 1 ∨ axis = 2) {chunk : Tensor} {result : Option Tensor}
    {chunks : List (Option Tensor)} {s s' : StreamBuffer} {s'' : Option StreamBuffer} {results : List Tensor}
    (hstep : stepSpatial sums strideH strideW chunk f axis s = (.ok result, s'))
    (hrest : feed (.convolution sums strideH strideW) axis f chunks (some s') = (.ok results, s'')) :
    feed (.convolution sums strideH strideW) axis f (some chunk :: chunks) (some s) =
      (.ok (result.toList ++ results), s'') := by
  rw [feed, Operator.step_spatial hax, hstep]
  simp only [hrest]
  rfl

/-- Missing chunks make no difference. -/
theorem feed_reduceOption (hax : axis = 1 ∨ axis = 2) : ∀ (chunks : List (Option Tensor)) (s : StreamBuffer),
    feed (.convolution sums strideH strideW) axis f chunks (some s) =
      feed (.convolution sums strideH strideW) axis f (chunks.reduceOption.map some) (some s)
  | [], _ => rfl
  | none :: chunks, s => by
    rw [List.reduceOption_cons_of_none, ← feed_reduceOption hax chunks s, feed, Operator.step_missing]
    exact Prod.ext (by simp) rfl
  | some chunk :: chunks, s => by
    rw [List.reduceOption_cons_of_some, List.map_cons, feed, feed, Operator.step_spatial hax]
    obtain ⟨e | result, s'⟩ := stepSpatial sums strideH strideW chunk f axis s
    · rfl
    · simp only [feed_reduceOption hax chunks s']

/-! ### Other libraries -/

section

variable (sums' : Contraction)

theorem stepSpatial_shape {chunk : Tensor} {result : Option Tensor} {s s' : StreamBuffer}
    (h : stepSpatial sums strideH strideW chunk f axis s = (.ok result, s')) :
    ∃ result', stepSpatial sums' strideH strideW chunk f axis s = (.ok result', s') ∧
      result'.map Tensor.shape = result.map Tensor.shape := by
  unfold stepSpatial at h ⊢
  by_cases hskip : 0 < s.skip
  · rw [if_pos hskip] at h ⊢
    exact ⟨result, h, rfl⟩
  rw [if_neg hskip] at h ⊢
  cases hjoin : s.accumulate chunk axis with
  | error e =>
    rw [hjoin] at h
    cases h
  | ok joined =>
    rw [hjoin] at h
    dsimp only at h ⊢
    split at h
    · cases h
    split at h
    · cases h
    rename_i hf hdata
    rw [if_neg hf, if_neg hdata]
    split at h
    · rename_i hwait
      rw [if_pos hwait]
      exact ⟨result, h, rfl⟩
    rename_i hfull
    rw [if_neg hfull]
    -- only now does the library come in, and what is kept does not depend on what it gives
    split at h
    · cases h
    rename_i w hw
    obtain ⟨u, hu, hshape⟩ := convolveTensors_shape sums' hw
    rw [hu]
    dsimp only
    split at h
    · cases h
    · cases h
      exact ⟨some u, rfl, congrArg some hshape⟩

/-- **Where results are cut does not depend on the library**: what is fed with one can be fed
with another, and the results have the same shapes. -/
theorem feed_shapes (hax : axis = 1 ∨ axis = 2) : ∀ {chunks : List Tensor} {s : StreamBuffer}
    {s' : Option StreamBuffer} {results : List Tensor},
    feed (.convolution sums strideH strideW) axis f (chunks.map some) (some s) = (.ok results, s') →
    ∃ results', feed (.convolution sums' strideH strideW) axis f (chunks.map some) (some s) = (.ok results', s') ∧
      results'.map Tensor.shape = results.map Tensor.shape
  | [], _, _, _, h => by
    cases h
    exact ⟨[], rfl, rfl⟩
  | chunk :: chunks, s, s', results, h => by
    rw [List.map_cons, feed, Operator.step_spatial hax] at h
    rcases hstep : stepSpatial sums strideH strideW chunk f axis s with ⟨e | result, b⟩
    · rw [hstep] at h
      cases h
    rcases hrest : feed (.convolution sums strideH strideW) axis f (chunks.map some) (some b) with ⟨e | rest, s''⟩
    · simp only [hstep, hrest] at h
      cases h
    simp only [hstep, hrest] at h
    cases h
    obtain ⟨result', hstep', hshape⟩ := stepSpatial_shape sums' hstep
    obtain ⟨rest', hrest', hshapes⟩ := feed_shapes hax hrest
    refine ⟨result'.toList ++ rest', feed_cons hax hstep' hrest', ?_⟩
    rw [List.map_append, List.map_append, hshapes, ← Option.toList_map, hshape, Option.toList_map]

end

/-! ### Chunks in step with the windows -/

/-- Whether chunks of some extents, from a position on, keep in step with the windows of a
convolution: those that are skipped have extent 1, unless no window is to come, and only
the last chunk completes several windows. -/
def InStep (window stride : Nat) : Nat → List Nat → Prop
  | _, [] => True
  | r, n :: ns =>
    (r < windowsIn window stride r * stride → n = 1 ∨
      windowsIn window stride (r + (n :: ns).sum) = windowsIn window stride r) ∧
    (ns = [] ∨ windowsIn window stride (r + n) ≤ windowsIn window stride r + 1) ∧
    InStep window stride (r + n) ns

instance InStep.decidable (window stride : Nat) :
    ∀ (r : Nat) (ns : List Nat), Decidable (InStep window stride r ns)
  | _, [] => .isTrue trivial
  | r, n :: ns =>
    have := InStep.decidable window stride (r + n) ns
    inferInstanceAs (Decidable (_ ∧ _ ∧ _))

section

variable (hfit : FitsAcross x f axis) (hax : axis = 1 ∨ axis = 2)
include hfit hax

/-- As long as the data do not cover the next window, nothing is emitted. -/
theorem feed_idle (sums : Contraction) (strideH strideW : Nat) : ∀ {ns : List Nat} {start r : Nat},
    (∀ n ∈ ns, 0 < n) → r + ns.sum ≤ x.extent axis → r + ns.sum < start + f.extent (axis - 1) →
    ∃ s, feed (.convolution sums strideH strideW) axis f ((x.pieces axis r ns).map some)
      (some (.after x axis start r)) = (.ok [], s)
  | [], start, r, _, _, _ => ⟨_, rfl⟩
  | n :: ns, start, r, hns, hle, hlt => by
    obtain ⟨hx, hf⟩ := hfit.axis_lt hax
    obtain ⟨hn, hns⟩ := List.forall_mem_cons.1 hns
    rw [List.sum_cons] at hle hlt
    obtain ⟨start', hlt', hstep⟩ : ∃ start', r + n + ns.sum < start' + f.extent (axis - 1) ∧
        stepSpatial sums strideH strideW (x.slice axis r (r + n)) f axis (.after x axis start r) =
          (.ok none, .after x axis start' (r + n)) := by
      by_cases hskip : r < start
      · exact ⟨_, by omega, stepSpatial_skip _ hskip (by omega : r < r + n)⟩
      · exact ⟨start, by omega, stepSpatial_wait (by omega) (by omega) (by omega) hx hf (by omega)⟩
    obtain ⟨s, hrest⟩ := feed_idle sums strideH strideW hns (by omega) hlt'
    exact ⟨s, feed_cons hax hstep hrest⟩

end

/-- **Chunks in step with the windows** have the windows emitted, in pieces that follow each
other; chunks of extent 1 have them emitted one by one. -/
theorem feed_steps {window stride : Nat} (hsums : sums.Uniform (x.elem.promote f.elem))
    (h : convolveTensors sums strideH strideW x f = .ok z)
    (hfit : FitsAcross x f axis) (hax : axis = 1 ∨ axis = 2) (hwindow : f.extent (axis - 1) = window)
    (hstride : spatialStride strideH strideW axis = stride) (hpos : 0 < window) :
    ∀ {ns : List Nat} {r : Nat}, (∀ n ∈ ns, 0 < n) → r + ns.sum ≤ x.extent axis → InStep window stride r ns →
    ∃ ms s, feed (.convolution sums strideH strideW) axis f ((x.pieces axis r ns).map some)
        (some (.after x axis (windowsIn window stride r * stride) r)) =
          (.ok (z.pieces axis (windowsIn window stride r) ms), s) ∧
      windowsIn window stride r + ms.sum = windowsIn window stride (r + ns.sum) ∧
      ((∀ n ∈ ns, n = 1) → ∀ m ∈ ms, m = 1)
  | [], r, _, _, _ => ⟨[], _, rfl, rfl, by simp⟩
  | n :: ns, r, hns, hle, hsteps => by
    obtain ⟨hn, hns'⟩ := List.forall_mem_cons.1 hns
    obtain ⟨hskip, hlast, hrest⟩ := hsteps
    have hs : 0 < stride := hstride ▸ (convolveTensors_spatial h hax).2.2.2.1
    by_cases hout : r < windowsIn window stride r * stride ∧ n ≠ 1
    · -- the rest of the data has no window, however much of it is skipped
      have hnone := (hskip hout.1).resolve_left hout.2
      have hshort := (windowsIn_spec window (r + (n :: ns).sum) hs).2
      rw [hnone, ← hwindow] at hshort
      obtain ⟨s, hfed⟩ := feed_idle hfit hax sums strideH strideW hns hle hshort
      exact ⟨[], s, hwindow ▸ hfed, hnone.symm, by simp⟩
    rw [List.sum_cons] at hle ⊢
    have hone : r < windowsIn window stride r * stride → r + n = r + 1 := fun hlt => by
      by_contra hne
      exact hout ⟨hlt, by omega⟩
    have hstep := stepSpatial_after hsums h hax (hwindow ▸ hpos) (Nat.lt_add_of_pos_right hn)
      (by omega : r + n ≤ x.extent axis) rfl rfl (by rw [hwindow, hstride]; exact hone)
    rw [hwindow, hstride] at hstep
    generalize hc : windowsIn window stride r = c at *
    generalize hc' : windowsIn window stride (r + n) = c' at *
    have hcc' : c ≤ c' := by
      rw [← hc, ← hc']
      exact windowsIn_mono window stride (Nat.le_add_right r n)
    obtain ⟨ms, hms, hsum, hunit⟩ := z.toList_chunk? axis hcc'
    -- after the last chunk it makes no difference which window is to come
    obtain ⟨ms', s, hfed, hsum', hunit'⟩ : ∃ ms' s,
        feed (.convolution sums strideH strideW) axis f ((x.pieces axis (r + n) ns).map some)
          (some (.after x axis (min c' (c + 1) * stride) (r + n))) = (.ok (z.pieces axis c' ms'), s) ∧
        c' + ms'.sum = windowsIn window stride (r + n + ns.sum) ∧ ((∀ n ∈ ns, n = 1) → ∀ m ∈ ms', m = 1) := by
      rcases hlast with rfl | hlast
      · exact ⟨[], _, rfl, hc'.symm, by simp⟩
      · rw [Nat.min_eq_left hlast, ← hc']
        exact feed_steps hsums h hfit hax hwindow hstride hpos hns' (by omega) hrest
    refine ⟨ms ++ ms', s, ?_, ?_, fun hall => ?_⟩
    · rw [Tensor.pieces_append, ← hms, hsum]
      exact feed_cons hax hstep hfed
    · rw [List.sum_append, ← Nat.add_assoc, hsum, hsum', Nat.add_assoc]
    · obtain ⟨rfl, hall'⟩ := List.forall_mem_cons.1 hall
      have hnext : c' ≤ c + 1 := by
        rw [← hc, ← hc']
        exact windowsIn_succ_le r hs
      exact List.forall_mem_append.2 ⟨hunit hnext, hunit' hall'⟩

theorem concatAll_all (h : convolveTensors sums strideH strideW x f = .ok z) (hax : axis = 1 ∨ axis = 2)
    {ms : List Nat} (hms : ms.sum = z.extent axis) :
    Tensor.concatAll axis (z.pieces axis 0 ms) = .ok z := by
  obtain ⟨-, -, hz, -, -, hext⟩ := convolveTensors_spatial h hax
  have hne : ms ≠ [] := by
    rintro rfl
    rw [hext, List.sum_nil, Tensor.windowCount] at hms
    exact Nat.succ_ne_zero _ hms.symm
  rw [Tensor.concatAll_pieces hz hne (by omega), Nat.zero_add, hms, Tensor.slice_full]

theorem inStep_units {window stride : Nat} (hs : 0 < stride) : ∀ (i r : Nat),
    InStep window stride r (List.replicate i 1)
  | 0, _ => trivial
  | i + 1, r => ⟨fun _ => .inl rfl, .inr (windowsIn_succ_le r hs), inStep_units hs i (r + 1)⟩

section

variable (hstride : 0 < strideH ∧ 0 < strideW) (hax : axis = 1 ∨ axis = 2) (hfit : FitsAcross x f axis)
  (hpos : 0 < f.extent (axis - 1)) {ns : List Nat} (hns : ∀ n ∈ ns, 0 < n) (hsum : ns.sum = x.extent axis)
  (hsteps : InStep (f.extent (axis - 1)) (spatialStride strideH strideW axis) 0 ns)
include hax hfit hpos hns hsum hsteps

/-- Where the library sums uniformly, the pieces of the convolution are emitted. -/
theorem feed_uniform (hsums : sums.Uniform (x.elem.promote f.elem))
    (hz : convolveTensors sums strideH strideW x f = .ok z) :
    ∃ ms s, feed (.convolution sums strideH strideW) axis f ((x.pieces axis 0 ns).map some)
        (Operator.convolution sums strideH strideW).newState = (.ok (z.pieces axis 0 ms), s) ∧
      ms.sum = z.extent axis ∧ ((∀ n ∈ ns, n = 1) → ∀ m ∈ ms, m = 1) := by
  obtain ⟨-, -, -, -, hle, hext⟩ := convolveTensors_spatial hz hax
  have hzero : windowsIn (f.extent (axis - 1)) (spatialStride strideH strideW axis) 0 = 0 := if_pos hpos
  obtain ⟨ms, s, hfed, hms, hunit⟩ := feed_steps hsums hz hfit hax rfl rfl hpos hns (by omega) hsteps
  rw [hzero, Nat.zero_mul] at hfed
  rw [hzero, Nat.zero_add, Nat.zero_add, hsum, windowsIn, if_neg (Nat.not_lt.2 hle), ← hext] at hms
  exact ⟨ms, s, hfed, hms, hunit⟩

variable (sums)
include hstride

/-- What chunks in step have emitted when they are all there: nothing if the data are shorter
than the filter, and else results that have as many positions as the convolution, and that
make it up where the library sums uniformly. -/
theorem feed_all : ∃ results s, feed (.convolution sums strideH strideW) axis f ((x.pieces axis 0 ns).map some)
      (Operator.convolution sums strideH strideW).newState = (.ok results, s) ∧
    (x.extent axis < f.extent (axis - 1) → results = []) ∧
    (f.extent (axis - 1) ≤ x.extent axis → ∃ z, convolveTensors sums strideH strideW x f = .ok z ∧
      (results.map (·.extent axis)).sum = z.extent axis ∧
      ((∀ n ∈ ns, n = 1) → ∀ t ∈ results, t.extent axis = 1) ∧
      (sums.Uniform (x.elem.promote f.elem) → Tensor.concatAll axis results = .ok z)) := by
  by_cases hle : f.extent (axis - 1) ≤ x.extent axis
  · obtain ⟨z, hz⟩ : ∃ z, convolveTensors sums strideH strideW x f = .ok z := hfit.exists_convolved hax hstride hle
    -- the plainest library tells where the results are cut
    obtain ⟨u, hu, hshape⟩ := convolveTensors_shape .sequential hz
    have hext : u.extent axis = z.extent axis := congrArg (List.getD · axis 0) hshape
    obtain ⟨ms, s, hplain, hms, hunit⟩ :=
      feed_uniform hax hfit hpos hns hsum hsteps (Contraction.sequential_uniform _) hu
    obtain ⟨results, hfed, hshapes⟩ := feed_shapes sums hax hplain
    have hextents : results.map (·.extent axis) = ms := by
      have hcut := Tensor.map_extent_pieces (convolveTensors_spatial hu hax).2.2.1 (r := 0)
        (Nat.le_of_eq ((Nat.zero_add _).trans hms))
      have hmap (ts : List Tensor) : ts.map (·.extent axis) = (ts.map Tensor.shape).map (List.getD · axis 0) := by
        rw [List.map_map]
        rfl
      rw [hmap, hshapes, ← hmap, hcut]
    refine ⟨results, s, hfed, fun hlt => absurd hle (Nat.not_le.2 hlt), fun _ => ⟨z, hz, ?_, fun hones t ht => ?_,
      fun hsums => ?_⟩⟩
    · rw [hextents, hms, hext]
    · exact hunit hones _ (hextents ▸ List.mem_map_of_mem ht)
    · obtain ⟨ms', s', hfed', hms', -⟩ := feed_uniform hax hfit hpos hns hsum hsteps hsums hz
      obtain rfl := Except.ok.inj (congrArg Prod.fst (hfed.symm.trans hfed'))
      exact concatAll_all hz hax hms'
  · have hshort : 0 + ns.sum < 0 + f.extent (axis - 1) := by omega
    obtain ⟨s, hfed⟩ := feed_idle hfit hax sums strideH strideW hns (by omega) hshort
    exact ⟨[], s, hfed, fun _ => rfl, fun h => absurd h hle⟩

end

/-- **Data in chunks that are in step** are convolved as a whole: nothing is emitted if they are
shorter than the filter, and else as many positions as the convolution has. Put together they
are the convolution, to the last bit where the library sums uniformly, as it does in any type
but floats. -/
theorem feed_pieces (hstride : 0 < strideH ∧ 0 < strideW) (hax : axis = 1 ∨ axis = 2) (hfit : FitsAcross x f axis)
    (hpos : 0 < f.extent (axis - 1)) {ns : List Nat} (hns : ∀ n ∈ ns, 0 < n) (hsum : ns.sum = x.extent axis)
    (hsteps : InStep (f.extent (axis - 1)) (spatialStride strideH strideW axis) 0 ns) :
    ∃ results s, feed (.convolution sums strideH strideW) axis f ((x.pieces axis 0 ns).map some)
        (Operator.convolution sums strideH strideW).newState = (.ok results, s) ∧
      (x.extent axis < f.extent (axis - 1) → results = []) ∧
      (f.extent (axis - 1) ≤ x.extent axis → ∃ z, (Operator.convolution sums strideH strideW).eval [x, f] = .ok z ∧
        (results.map (·.extent axis)).sum = z.extent axis ∧
        (sums.Uniform (x.elem.promote f.elem) → Tensor.concatAll axis results = .ok z)) := by
  obtain ⟨results, s, hfed, hnone, hsome⟩ := feed_all sums hstride hax hfit hpos hns hsum hsteps
  refine ⟨results, s, hfed, hnone, fun hle => ?_⟩
  obtain ⟨z, hz, hextents, -, hput⟩ := hsome hle
  exact ⟨z, hz, hextents, hput⟩

/-- Five integers in chunks of two, one and two: the last chunk completes two sums of neighbours. -/
theorem column_pieces : ∃ results s, feed (.convolution .sequential 1 1) 1 pairFilter
      [some (column [1, 2]), some (column [3]), some (column [4, 5])] (some .fresh) = (.ok results, s) ∧
    Tensor.concatAll 1 results = .ok (column [3, 5, 7, 9]) := by
  have hfit : FitsAcross (column [1, 2, 3, 4, 5]) pairFilter 1 := ⟨rfl, rfl, rfl, by decide⟩
  have hcut : ((column [1, 2, 3, 4, 5]).pieces 1 0 [2, 1, 2]).map some =
      [some (column [1, 2]), some (column [3]), some (column [4, 5])] := by decide +kernel
  obtain ⟨results, s, hfed, -, hall⟩ := @feed_pieces .sequential 1 1 1 _ _ (by decide) (.inl rfl) hfit (by decide)
    [2, 1, 2] (by decide) rfl (by decide)
  obtain ⟨z, heval, -, hz⟩ := hall (by decide)
  have hsums : (Operator.convolution .sequential 1 1).eval [column [1, 2, 3, 4, 5], pairFilter] =
      .ok (column [3, 5, 7, 9]) := rfl
  obtain rfl := Except.ok.inj (heval.symm.trans hsums)
  rw [hcut] at hfed
  exact ⟨results, s, hfed, hz (Contraction.uniform_of_exact _ fun w hw => by cases hw)⟩

/-- The filter that keeps data as they are. -/
def unitFilter : Tensor := .ofFn (.int .w64) [1, 1, 1, 1] fun _ => .int 1

/-- A chunk of two integers, each a window of its own, is emitted at once; only the first of
them is dropped, so the second is emitted again with the next chunk. -/
theorem column_out_of_step : ∃ results s, feed (.convolution .sequential 1 1) 1 unitFilter
      (((column [1, 2, 3]).pieces 1 0 [2, 1]).map some) (Operator.convolution .sequential 1 1).newState =
        (.ok results, s) ∧
    Tensor.concatAll 1 results = .ok (column [1, 2, 2, 3]) ∧
    (Operator.convolution .sequential 1 1).eval [column [1, 2, 3], unitFilter] = .ok (column [1, 2, 3]) ∧
    column [1, 2, 2, 3] ≠ column [1, 2, 3] :=
  ⟨_, _, rfl, rfl, rfl, by decide⟩

/-- **Every prefix is convolved as it is reached.** When the first unit slices of the data
have come, with missing chunks between them, as many slices are emitted as there are
windows among them. Together these are the convolution of the prefix, to the last bit
where the library sums uniformly, as it does in any type but floats. -/
theorem feed_prefixes (hstride : 0 < strideH ∧ 0 < strideW) (hax : axis = 1 ∨ axis = 2) (hfit : FitsAcross x f axis)
    (hpos : 0 < f.extent (axis - 1)) {i : Nat} (hi : i ≤ x.extent axis) {chunks : List (Option Tensor)}
    (hchunks : chunks.reduceOption = (x.unitSlices axis).take i) :
    ∃ results s, feed (.convolution sums strideH strideW) axis f chunks
        (Operator.convolution sums strideH strideW).newState = (.ok results, s) ∧
      results.length = (if i < f.extent (axis - 1) then 0
        else (i - f.extent (axis - 1)) / spatialStride strideH strideW axis + 1) ∧
      (∀ t ∈ results, t.extent axis = 1) ∧
      (f.extent (axis - 1) ≤ i →
        ∃ z, (Operator.convolution sums strideH strideW).eval [x.slice axis 0 i, f] = .ok z) ∧
      (sums.Uniform (x.elem.promote f.elem) → ofKernel (Tensor.concatAll axis results) =
        (Operator.convolution sums strideH strideW).eval [x.slice axis 0 i, f]) := by
  obtain ⟨hx, -⟩ := hfit.axis_lt hax
  have hunits : ∀ n ∈ List.replicate i 1, n = 1 := fun n hn => List.eq_of_mem_replicate hn
  have hsum : (List.replicate i 1).sum = i := by simp
  have hext : (x.slice axis 0 i).extent axis = i := by rw [Tensor.extent_slice hi hx, Nat.sub_zero]
  have hs : 0 < spatialStride strideH strideW axis := by
    unfold spatialStride
    split <;> omega
  obtain ⟨results, s, hfed, hnone, hsome⟩ := feed_all sums hstride hax (hfit.slice hax) hpos
    (fun n hn => by rw [hunits n hn]; exact Nat.one_pos) (hsum.trans hext.symm) (inStep_units hs i 0)
  rw [hext] at hnone hsome
  rw [Tensor.pieces_slice hx hi (by omega), ← Tensor.take_unitSlices hi, ← hchunks] at hfed
  refine ⟨results, s, (feed_reduceOption hax chunks .fresh).trans hfed, ?_⟩
  by_cases hlt : i < f.extent (axis - 1)
  · obtain rfl := hnone hlt
    have hrefused : (Operator.convolution sums strideH strideW).eval [x.slice axis 0 i, f] =
        .error (.primitive .mismatch) := (hfit.slice hax).not_convolved hax (by rw [hext]; exact hlt)
    exact ⟨by rw [if_pos hlt]; rfl, by simp, fun hle => absurd hlt (Nat.not_lt.2 hle), fun _ => hrefused.symm⟩
  · obtain ⟨z, hz, hextents, hones, hput⟩ := hsome (Nat.le_of_not_lt hlt)
    have hcount : results.length = z.extent axis := by
      rw [← hextents, List.map_eq_replicate_iff.2 (hones hunits)]
      simp
    refine ⟨?_, hones hunits, fun _ => ⟨z, hz⟩, fun hsums => ?_⟩
    · obtain ⟨-, -, -, -, -, hzext⟩ := convolveTensors_spatial hz hax
      rw [if_neg hlt, hcount, hzext, hext, Tensor.windowCount]
    · rw [hput hsums]
      exact hz.symm

/-- Five integers with chunks missing between them: the sums of neighbours, three apart, come
out one by one. -/
theorem column_prefixes : ∃ results s, feed (.convolution .sequential 3 1) 1 pairFilter
      [none, some (column [1]), some (column [2]), none, some (column [3]), some (column [4]), some (column [5])]
      (some .fresh) = (.ok results, s) ∧
    results.length = 2 ∧ (∀ t ∈ results, t.extent 1 = 1) ∧ Tensor.concatAll 1 results = .ok (column [3, 9]) := by
  have hfit : FitsAcross (column [1, 2, 3, 4, 5]) pairFilter 1 := ⟨rfl, rfl, rfl, by decide⟩
  have hchunks : [none, some (column [1]), some (column [2]), none, some (column [3]), some (column [4]),
      some (column [5])].reduceOption = ((column [1, 2, 3, 4, 5]).unitSlices 1).take 5 := by decide +kernel
  obtain ⟨results, s, hfed, hlength, hunit, -, hall⟩ :=
    @feed_prefixes .sequential 3 1 1 _ _ (by decide) (.inl rfl) hfit (by decide) 5 (by decide) _ hchunks
  have heval : (Operator.convolution .sequential 3 1).eval [(column [1, 2, 3, 4, 5]).slice 1 0 5, pairFilter] =
      .ok (column [3, 9]) := rfl
  have hput := (hall (Contraction.sequential_uniform _)).trans heval
  exact ⟨results, s, hfed, hlength, hunit, ofKernel_eq_ok_iff.1 hput⟩

end EdgeFacts
